import Mathlib.Data.Char
import Mathlib.Data.List.Lex
import Mathlib.Data.List.Infix
import Mathlib.Order.Lattice
import Mathlib.Tactic.SplitIfs

/-! # Prefix maps

A prefix map keeps its entries in the order in which every key is followed by the keys below it, so
that the entries below a key are a range and the nearest one above it is found by going up from key
to key. The keys, strings with a delimiter or paths, are compared as if each ended with the
delimiter (`ComparePrefix`), and the searches are the same for every kind of keys and of maps. -/

namespace Build2.Libbutl.PathMap

/-- The characters of paths: their order, the directory separator and the dot. -/
class PathTraits (C : Type) extends LinearOrder C where
  separator : C
  dot : C

instance : PathTraits Char where
  separator := '/'
  dot := '.'

/-- The text of a path as it is stored: without the trailing separator, unless it is the root. -/
abbrev Path (C : Type) := List C

variable {C : Type} [PathTraits C]

open PathTraits

/-! ### Paths -/

/-- `path_traits::is_separator`. -/
def isSeparator (c : C) : Bool := c = separator

/-- `path_traits::root`. -/
def root (s : Path C) : Bool :=
  match s with
  | [c] => isSeparator c
  | _ => false

/-- `path_traits::absolute`. -/
def absolute (s : Path C) : Bool := s.head?.any isSeparator

/-- `path_traits::current`. -/
def current (s : List C) : Bool := s = [dot]

/-- `path_traits::parent`. -/
def parent (s : List C) : Bool := s = [dot, dot]

/-- The loop of `path_traits::normalized` with the component that it is in. -/
def normalizedFrom (component : List C) : Path C → Bool
  | [] => !(parent component || current component)
  | c :: s =>
    if isSeparator c then
      if s.head?.any isSeparator then false
      else if parent component || current component then false
      else normalizedFrom [] s
    else normalizedFrom (component ++ [c]) s

/-- `path_traits::normalized`, where there is only one directory separator. -/
def normalized (s : Path C) : Bool := normalizedFrom [] s

/-- `path_traits::rfind_separator` among the first characters. -/
def rfindSeparator (s : Path C) : ℕ → Option ℕ
  | 0 => none
  | n + 1 => if s[n]?.any isSeparator then some n else rfindSeparator s n

/-- `path_data::_init`: the text without a trailing separator, unless it is the root. -/
def init (s : List C) : Path C :=
  if s.getLast?.any isSeparator then if s.length = 1 then s else s.dropLast else s

/-- `path_data::_size`. -/
def size (s : Path C) : ℕ := if root s then 0 else s.length

/-- `basic_path::directory`, and what `make_directory` leaves of the path. -/
def directory (s : Path C) : Path C :=
  match rfindSeparator s (size s) with
  | some p => init (s.take (p + 1))
  | none => []

/-! ### Comparing keys -/

/-- `path_traits::compare`. -/
def traitsCompare : List C → List C → ℤ
  | [], [] => 0
  | [], _ :: _ => -1
  | _ :: _, [] => 1
  | l :: ls, r :: rs =>
    if isSeparator l && isSeparator r then traitsCompare ls rs
    else if l < r then -1
    else if r < l then 1
    else traitsCompare ls rs

/-- `compare_prefix::compare`. -/
def compare (x y : List C) : ℤ :=
  let n := min x.length y.length
  let r := traitsCompare (x.take n) (y.take n)
  if r = 0 then
    -- a directory separator at the end of the shorter string
    let xc := x[n]?.getD separator
    let yc := y[n]?.getD separator
    let r := traitsCompare [xc] [yc]
    if r = 0 then
      let xn := if n < x.length then x.length else x.length + 1
      let yn := if n < y.length then y.length else y.length + 1
      if xn = yn then 0 else if xn < yn then -1 else 1
    else r
  else r

/-! ### Keys -/

/-- The key as it is compared: the root is treated as empty. -/
def canonical (k : Path C) : List C := if root k then [] else k

/-- `compare_prefix`: the text that is compared of a key, and what `prefix (K&)` leaves of a key
that is not empty. -/
structure ComparePrefix (C : Type) where
  canonical : List C → List C
  outer : List C → List C
  length_outer : ∀ k, k ≠ [] → (outer k).length < k.length

@[simp] theorem isSeparator_iff {c : C} : isSeparator c = true ↔ c = separator := by
  simp [isSeparator]

theorem root_iff {k : Path C} : root k = true ↔ k = [separator] := by
  match k with
  | [] => simp [root]
  | [c] => simp [root]
  | _ :: _ :: _ => simp [root]

theorem rfindSeparator_lt {s : List C} {n p : ℕ} (h : rfindSeparator s n = some p) :
    p < n ∧ s[p]? = some separator := by
  induction n with
  | zero => cases h
  | succ n ih =>
    rw [rfindSeparator] at h
    split_ifs at h with hn
    · obtain rfl := Option.some.inj h
      obtain ⟨c, hc, hs⟩ := (Option.any_eq_true _ _).mp hn
      exact ⟨Nat.lt_succ_self n, by rw [hc, isSeparator_iff.mp hs]⟩
    · exact ⟨(ih h).1.trans (Nat.lt_succ_self n), (ih h).2⟩

/-- `k.resize (p != npos ? p : 0)`, where `p` is the position of the last delimiter. -/
def outerString (k : List C) : List C :=
  match rfindSeparator k k.length with
  | some p => k.take p
  | none => []

theorem length_outerString (k : List C) (hk : k ≠ []) : (outerString k).length < k.length := by
  unfold outerString
  cases h : rfindSeparator k k.length with
  | none => exact List.length_pos_iff.mpr hk
  | some p =>
    have hp := (rfindSeparator_lt h).1
    simp only [List.length_take]
    omega

/-- `compare_prefix<std::basic_string<C>>`. -/
def stringPrefix : ComparePrefix C := ⟨id, outerString, length_outerString⟩

theorem length_directory_lt (k : List C) (hk : k ≠ []) : (directory k).length < k.length := by
  have hpos := List.length_pos_iff.mpr hk
  unfold directory
  cases h : rfindSeparator k (size k) with
  | none => exact hpos
  | some p =>
    obtain ⟨hp, hs⟩ := rfindSeparator_lt h
    have hr : root k = false := by
      by_contra hr
      rw [Bool.not_eq_false] at hr
      rw [size, if_pos hr] at hp
      omega
    rw [size, hr, if_neg (by simp)] at hp
    have htake : k.take (p + 1) = k.take p ++ [separator] := by
      rw [List.take_add_one, hs]
      rfl
    have hlen : (k.take (p + 1)).length = p + 1 := by
      rw [List.length_take]
      omega
    show (init (k.take (p + 1))).length < k.length
    rw [init, htake, List.getLast?_concat, Option.any_some, isSeparator_iff.mpr rfl, if_pos rfl,
      ← htake]
    split_ifs with h1
    · -- the separator is the whole text only if more follows it
      by_contra hge
      have hk1 : k.length = 1 := by omega
      obtain ⟨c, rfl⟩ := List.length_eq_one_iff.mp hk1
      obtain rfl : p = 0 := by omega
      have hc : c = separator := by simpa using hs
      rw [Bool.eq_false_iff] at hr
      exact hr (root_iff.mpr (by rw [hc]))
    · rw [List.length_dropLast, hlen]
      omega

/-- `compare_prefix<basic_path<C, K>>`. -/
def pathPrefix : ComparePrefix C := ⟨canonical, directory, length_directory_lt⟩

/-! ### Searches -/

namespace ComparePrefix

variable {V : Type} (c : ComparePrefix C)

/-- `operator()`. -/
def less (x y : List C) : Bool := compare (c.canonical x) (c.canonical y) < 0

/-- `prefix (p, k)`: "empty key is always a prefix." -/
def isPrefix (p k : List C) : Bool :=
  let p := c.canonical p
  let k := c.canonical k
  let pn := p.length
  let kn := k.length
  pn = 0 || (pn ≤ kn && compare p (k.take (if pn = kn then pn else pn + 1)) = 0)

/-! The searches of `prefix_map_common` in a map whose `lower_bound` returns the entries from the
first that does not come before a key. -/

variable (lowerBound : List C → List (List C × V)) (k : List C)

/-- `find`. -/
def find : Option (List C × V) :=
  match lowerBound k with
  | [] => none
  | e :: _ => if c.less k e.1 then none else some e

/-- `find_sub`: the entries of which the key is a prefix. -/
def findSub : List (List C × V) := (lowerBound k).takeWhile fun e => c.isPrefix k e.1

/-- The loop of `find_sup`. -/
def findOuter (p : List C) : Option (List C × V) :=
  if _h : p = [] then none
  else (c.find lowerBound (c.outer p)).or (findOuter (c.outer p))
  termination_by p.length
  decreasing_by exact c.length_outer p _h

/-- `find_sup`: the entry with the longest key that is a prefix. -/
def findSup : Option (List C × V) := (c.find lowerBound k).or (c.findOuter lowerBound k)

end ComparePrefix

/-! ### Directories -/

/-- The entries in the order of their keys. -/
abbrev DirPathMap (C V : Type) := List (Path C × V)

variable {V : Type}

/-- `lower_bound`. -/
def lowerBound (m : DirPathMap C V) (k : Path C) : List (Path C × V) :=
  m.dropWhile fun e => pathPrefix.less e.1 k

/-- `emplace`: the map, the key of the entry and whether it is new. -/
def emplace (m : DirPathMap C V) (k : Path C) (v : V) : DirPathMap C V × Path C × Bool :=
  match lowerBound m k with
  | [] => (m ++ [(k, v)], k, true)
  | e :: es =>
    if pathPrefix.less k e.1 then
      ((m.takeWhile fun e => pathPrefix.less e.1 k) ++ (k, v) :: e :: es, k, true)
    else (m, e.1, false)

def find (m : DirPathMap C V) (k : Path C) : Option (Path C × V) := pathPrefix.find (lowerBound m) k

def findSub (m : DirPathMap C V) (k : Path C) : List (Path C × V) :=
  pathPrefix.findSub (lowerBound m) k

def findSup (m : DirPathMap C V) (k : Path C) : Option (Path C × V) :=
  pathPrefix.findSup (lowerBound m) k

end Build2.Libbutl.PathMap
