import Build2.Lib.SearchTree
import Build2.Libbutl.PathMap.Find

/-! # Maps as search trees

`prefix_map_common` over `std::map`, with the keys that `compare_prefix` compares: strings with a
delimiter, and paths, where the root directory is treated as empty. The delimiter is the separator
of the class of the characters. The searches are exact (`find_exact_iff`), except that `find_sub`
with the empty key misses the keys that start with a character below the delimiter: these come
before the empty key, which is compared as if it ended with the delimiter. -/

namespace Build2.Libbutl.PrefixMaps

open Build2.Libbutl.PathMap Build2.Libbutl.PathMap.PathTraits Build2.Lib.SearchTree

variable {C V : Type} [PathTraits C]

/-! ### The map -/

/-- `std::map`: a search tree of entries in the order of their keys. -/
structure PrefixMap (c : ComparePrefix C) (V : Type) where
  tree : Lib.SearchTree.Tree (List C × V)
  sorted : tree.toList.Pairwise fun a b => c.less a.1 b.1 = true

namespace PrefixMap

variable {c : ComparePrefix C} (m : PrefixMap c V) (k : List C)

def entries : List (List C × V) := m.tree.toList

def lowerBound : List (List C × V) := m.tree.lowerBound fun e => c.less e.1 k

/-- `find_sub`. -/
def findSub : List (List C × V) := c.findSub m.lowerBound k

/-- `find_sup`. -/
def findSup : Option (List C × V) := c.findSup m.lowerBound k

variable {m}

theorem searched (hm : ∀ e ∈ m.entries, c.IsKey e.1) : Searched c m.entries m.lowerBound := by
  have hsorted : m.entries.Pairwise fun a b => c.closed a.1 < c.closed b.1 :=
    m.sorted.imp_of_mem fun {a b} ha hb hab => (ComparePrefix.less_iff (hm a ha) (hm b hb)).mp hab
  exact {
    keys := hm
    sorted := hsorted
    found := fun p e l h => Tree.mem_of_lowerBound h
    bound := fun k hk => Tree.lowerBound_eq (pairwise_less hm hsorted hk) }

end PrefixMap

/-- **The searches are exact** for a key. -/
structure Exact {c : ComparePrefix C} (m : PrefixMap c V) (k : List C) : Prop where
  sub : m.findSub k = m.entries.filter fun e => c.isPrefix k e.1
  sup : Longest c m.entries k (m.findSup k)

/-! ### Both kinds of maps -/

/-- The keys of a prefix map. -/
inductive KeyKind
  | string
  | path

def KeyKind.comparePrefix : KeyKind → ComparePrefix C
  | .string => stringPrefix
  | .path => pathPrefix

theorem KeyKind.lawful (kind : KeyKind) : Lawful (kind.comparePrefix : ComparePrefix C) := by
  cases kind with
  | string => exact lawful_stringPrefix
  | path => exact lawful_pathPrefix

/-- **The searches of a prefix map are exact**, unless the key is empty (or the root directory) and
a key starts with a character below the delimiter. -/
theorem find_exact_iff {kind : KeyKind} (m : PrefixMap (kind.comparePrefix : ComparePrefix C) V)
    (k : List C) (hm : ∀ e ∈ m.entries, kind.comparePrefix.IsKey e.1)
    (hk : kind.comparePrefix.IsKey k) :
    Exact m k ↔ ¬(kind.comparePrefix.canonical k = [] ∧ ∃ e ∈ m.entries, ∃ a s,
      kind.comparePrefix.canonical e.1 = a :: s ∧ a < separator) := by
  have hsup : Longest kind.comparePrefix m.entries k (m.findSup k) :=
    (PrefixMap.searched hm).longest_findOuter kind.lawful k.length le_rfl
  have hsub : Exact m k ↔ m.findSub k =
      m.entries.filter fun e => kind.comparePrefix.isPrefix k e.1 :=
    ⟨Exact.sub, fun h => ⟨h, hsup⟩⟩
  rw [hsub]
  by_cases h0 : kind.comparePrefix.canonical k = []
  · rw [PrefixMap.findSub, (PrefixMap.searched hm).findSub_empty hk h0]
    simp only [h0, true_and, not_exists, not_and]
  · exact iff_of_true ((PrefixMap.searched hm).findSub_eq hk h0) fun h => h0 h.1

/-- The map of `-x` to nothing, with the delimiter `/`. -/
def dashed : PrefixMap (KeyKind.string.comparePrefix : ComparePrefix Char) Unit :=
  ⟨.node .leaf (['-', 'x'], ()) .leaf, List.pairwise_singleton _ _⟩

theorem isKey_dashed : ∀ e ∈ dashed.entries, KeyKind.string.comparePrefix.IsKey e.1 := by
  intro e he
  obtain rfl := List.mem_singleton.mp he
  show ['-', 'x'].getLast? ≠ some '/'
  decide

theorem find_exact_iff_dashed : Exact dashed [] ↔
    ¬(KeyKind.string.comparePrefix.canonical ([] : List Char) = [] ∧ ∃ e ∈ dashed.entries, ∃ a s,
      KeyKind.string.comparePrefix.canonical e.1 = a :: s ∧ a < separator) :=
  find_exact_iff dashed [] isKey_dashed bare_nil

/-- The empty key is a prefix of `-x`, but `find_sub` with it returns nothing. -/
theorem dashed_not_exact :
    ¬∀ (m : PrefixMap (KeyKind.string.comparePrefix : ComparePrefix Char) Unit) (k : List Char),
      (∀ e ∈ m.entries, KeyKind.string.comparePrefix.IsKey e.1) →
        KeyKind.string.comparePrefix.IsKey k → Exact m k := by
  intro h
  have hl : (dashed.findSub []).length =
      (dashed.entries.filter fun e => KeyKind.string.comparePrefix.isPrefix [] e.1).length := by
    rw [(h dashed [] isKey_dashed bare_nil).sub]
  exact absurd hl (by decide)

end Build2.Libbutl.PrefixMaps
