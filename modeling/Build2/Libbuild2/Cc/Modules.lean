import Build2.Lib.ByteString
import Mathlib.Data.List.Chain

/-! # Module info strings

`to_string` and `to_module_info` of `cc/compile-rule.cxx`: the line in the dependency database that
says what unit a translation unit is and what it imports. The line is read back as it was written
unless a name contains NUL, which `next_word` takes for a delimiter, or a quoted word with a marker
is directly followed by a quoted word: the reader then stops at the space in front of the quote
(`reads_back_iff`). -/

namespace Build2.Libbuild2.Cc.Modules

open Build2.Lib.ByteString

def space : UInt8 := ch ' '

def quote : UInt8 := ch '"'

/-- The marker of an interface or header unit. -/
def bang : UInt8 := ch '!'

/-- The marker of an implementation unit. -/
def plus : UInt8 := ch '+'

/-- The marker of a re-exported import. -/
def star : UInt8 := ch '*'

theorem space_ne_quote : space ≠ quote := by decide

theorem bang_ne_plus : bang ≠ plus := by decide

theorem star_ne_plus : star ≠ plus := by decide

theorem zero_ne_plus : 0 ≠ plus := by decide

/-- `unit_type`. -/
inductive UnitType
  | nonModular
  | moduleIface
  | moduleImpl
  | moduleHeader
  deriving DecidableEq, Repr

/-- `module_import`. -/
structure ModuleImport where
  type : UnitType
  name : Bytes
  exported : Bool
  score : ℕ
  deriving DecidableEq, Repr

/-- `module_info`. -/
structure ModuleInfo where
  name : Bytes
  imports : List ModuleImport
  deriving DecidableEq, Repr

/-! ### Writing -/

/-- A name as it is written: the path of a header unit is quoted. -/
def quoted (t : UnitType) (name : Bytes) : Bytes :=
  if t = .moduleHeader then quote :: (name ++ [quote]) else name

/-- The word of the unit itself. -/
def unitText (ut : UnitType) (mi : ModuleInfo) : Bytes :=
  if ut ≠ .nonModular then quoted ut mi.name ++ [if ut = .moduleImpl then plus else bang] else []

/-- The word of an import. -/
def importText (i : ModuleImport) : Bytes :=
  quoted i.type i.name ++ if i.exported then [star] else []

/-- `to_string`. -/
def toString (ut : UnitType) (mi : ModuleInfo) : Bytes :=
  mi.imports.foldl (fun s i => (if s ≠ [] then s ++ [space] else s) ++ importText i)
    (unitText ut mi)

/-! ### Reading -/

/-- The delimiters of `next_word`: `d2` is NUL by default. -/
def delimiter (d1 c : UInt8) : Bool := c = d1 || c = 0

def inWord (d1 c : UInt8) : Bool := !delimiter d1 c

/-- `next_word`: the next word and what is left at its end. -/
def nextWord (d1 : UInt8) (s : Bytes) : Option (Bytes × Bytes) :=
  match s.dropWhile (delimiter d1) with
  | [] => none
  | c :: t => some (c :: t.takeWhile (inWord d1), t.dropWhile (inWord d1))

/-- The character next to a word, if it is a marker, and NUL otherwise. -/
def marker (c : Option UInt8) : UInt8 :=
  if c = some bang ∨ c = some plus ∨ c = some star then c.getD 0 else 0

/-- A word as it is read: its type, the name and the marker. -/
structure Word where
  type : UnitType
  name : Bytes
  mark : UInt8
  deriving DecidableEq, Repr

/-- The word that a pass of the loop in `to_module_info` reads. -/
def Word.ofChars (d : UInt8) (w r : Bytes) : Word :=
  -- The marker is in front of the delimiter or, for a quoted word, after it.
  let c := marker (if d = space then w.getLast? else r[1]?)
  { type := if c = plus then .moduleImpl else if d = space then .moduleIface else .moduleHeader
    name := if d = space ∧ c ≠ 0 then w.dropLast else w
    mark := c }

/-- A pass of the loop: the word and what is left after the quote and the space, or the space. -/
def scan (s : Bytes) : Option (Word × Bytes) :=
  let d := if hd s = quote then quote else space
  match nextWord d s with
  | none => none
  | some (w, r) => some (Word.ofChars d w r, r.drop (if d = quote then 2 else 1))

/-- What the loop does with a word. -/
def accept (st : UnitType × ModuleInfo) (w : Word) : UnitType × ModuleInfo :=
  if w.mark = bang ∨ w.mark = plus then (w.type, { st.2 with name := w.name })
  else (st.1, { st.2 with imports := st.2.imports ++ [⟨w.type, w.name, w.mark = star, 0⟩] })

theorem nextWord_length {d : UInt8} {s w r : Bytes} (h : nextWord d s = some (w, r)) :
    r.length < s.length := by
  have hle := (List.dropWhile_sublist (l := s) (delimiter d)).length_le
  unfold nextWord at h
  split at h
  · cases h
  · rename_i c t hs
    have hr := (List.dropWhile_sublist (l := t) (inWord d)).length_le
    simp only [Option.some.injEq, Prod.mk.injEq] at h
    obtain ⟨-, rfl⟩ := h
    rw [hs, List.length_cons] at hle
    omega

theorem scan_length {s r : Bytes} {w : Word} (h : scan s = some (w, r)) : r.length < s.length := by
  simp only [scan] at h
  split at h
  · cases h
  · rename_i v t hv
    have hlt := nextWord_length hv
    simp only [Option.some.injEq, Prod.mk.injEq] at h
    obtain ⟨-, rfl⟩ := h
    rw [List.length_drop]
    omega

/-- The loop of `to_module_info`. -/
def readFrom (s : Bytes) (st : UnitType × ModuleInfo) : UnitType × ModuleInfo :=
  match _h : scan s with
  | none => st
  | some (w, r) => readFrom r (accept st w)
termination_by s.length
decreasing_by exact scan_length _h

/-- `to_module_info`. -/
def toModuleInfo (s : Bytes) : UnitType × ModuleInfo := readFrom s (.nonModular, ⟨[], []⟩)

variable {s t r u : Bytes} {d c : UInt8} {w p q : Word} {ws : List Word}
  {st : UnitType × ModuleInfo} {ut : UnitType} {mi : ModuleInfo}

theorem readFrom_none (h : scan s = none) : readFrom s st = st := by
  rw [readFrom]
  split
  · rfl
  · rename_i heq
    rw [h] at heq
    cases heq

theorem readFrom_some (h : scan s = some (w, r)) : readFrom s st = readFrom r (accept st w) := by
  rw [readFrom]
  split
  · rename_i heq
    rw [h] at heq
    cases heq
  · rename_i heq
    rw [h] at heq
    cases heq
    rfl

@[simp] theorem readFrom_nil : readFrom [] st = st := readFrom_none rfl

/-! ### The words of a line -/

/-- The word of the unit, as it is written. -/
def unitWord (ut : UnitType) (mi : ModuleInfo) : Word :=
  ⟨ut, mi.name, if ut = .moduleImpl then plus else bang⟩

/-- The word of an import, as it is written. -/
def importWord (i : ModuleImport) : Word := ⟨i.type, i.name, if i.exported then star else 0⟩

/-- The words of a line. -/
def wordsOf (ut : UnitType) (mi : ModuleInfo) : List Word :=
  (if ut ≠ .nonModular then [unitWord ut mi] else []) ++ mi.imports.map importWord

/-- The marker as it is written. -/
def Word.tag (w : Word) : Bytes := if w.mark = 0 then [] else [w.mark]

def Word.text (w : Word) : Bytes := quoted w.type w.name ++ w.tag

/-- What follows the first word of a line. -/
def tail (ws : List Word) : Bytes := ws.flatMap fun w => space :: w.text

/-- The words separated by spaces. -/
def join : List Word → Bytes
  | [] => []
  | w :: ws => w.text ++ tail ws

/-- A module name. -/
def IsName (n : Bytes) : Prop :=
  n ≠ [] ∧ space ∉ n ∧ quote ∉ n ∧ ∀ c ∈ n.getLast?, c ≠ bang ∧ c ≠ plus ∧ c ≠ star

/-- The path of a header. -/
def IsHeader (n : Bytes) : Prop := n ≠ [] ∧ quote ∉ n

/-- The name is a path or the name of a module, as the type says. -/
def Named (t : UnitType) (n : Bytes) : Prop := if t = .moduleHeader then IsHeader n else IsName n

instance (n : Bytes) : Decidable (IsName n) :=
  inferInstanceAs (Decidable (_ ∧ _ ∧ _ ∧ ∀ c ∈ n.getLast?, c ≠ bang ∧ c ≠ plus ∧ c ≠ star))

instance (n : Bytes) : Decidable (IsHeader n) := inferInstanceAs (Decidable (_ ∧ _))

instance (t : UnitType) (n : Bytes) : Decidable (Named t n) :=
  inferInstanceAs (Decidable (if t = .moduleHeader then _ else _))

/-- The unit and its imports are named, and imports are modules or headers. -/
structure Valid (ut : UnitType) (mi : ModuleInfo) : Prop where
  name : if ut = .nonModular then mi.name = [] else Named ut mi.name
  imports : ∀ i ∈ mi.imports, (i.type = .moduleIface ∨ i.type = .moduleHeader) ∧ Named i.type i.name

/-- A word that can be written: the marker `+` is the one of an implementation unit. -/
structure Word.Sound (w : Word) : Prop where
  type : w.type ≠ .nonModular
  named : Named w.type w.name
  mark : w.mark = 0 ∨ w.mark = bang ∨ w.mark = plus ∨ w.mark = star
  impl : w.mark = plus ↔ w.type = .moduleImpl

theorem importText_eq (i : ModuleImport) : importText i = (importWord i).text := by
  unfold importText importWord Word.text Word.tag
  cases i.exported with
  | false => rfl
  | true => rfl

theorem unitText_eq (h : ut ≠ .nonModular) : unitText ut mi = (unitWord ut mi).text := by
  unfold unitText unitWord Word.text Word.tag
  rw [if_pos h]
  by_cases hi : ut = .moduleImpl
  · simp only [hi, ↓reduceIte]
    rfl
  · simp only [hi, ↓reduceIte]
    rfl

theorem text_ne_nil (h : w.Sound) : w.text ≠ [] := by
  have hn := h.named
  unfold Word.text quoted
  unfold Named at hn
  split_ifs at hn ⊢
  · simp
  · simp [hn.1]

theorem foldl_words (l : List ModuleImport) (hs : s ≠ []) :
    l.foldl (fun s i => (if s ≠ [] then s ++ [space] else s) ++ importText i) s
      = s ++ tail (l.map importWord) := by
  induction l generalizing s with
  | nil => simp [tail]
  | cons i l ih =>
    rw [List.foldl_cons, if_pos hs, ih (by simp), importText_eq]
    simp [tail]

theorem toString_eq_join (h : ∀ w ∈ wordsOf ut mi, w.Sound) :
    toString ut mi = join (wordsOf ut mi) := by
  unfold toString
  by_cases hu : ut = .nonModular
  · have hw : wordsOf ut mi = mi.imports.map importWord := by simp [wordsOf, hu]
    have ht : unitText ut mi = [] := by simp [unitText, hu]
    rw [hw] at h ⊢
    rw [ht]
    cases hi : mi.imports with
    | nil => rfl
    | cons i l =>
      rw [hi] at h
      have hne := text_ne_nil (h (importWord i) (by simp))
      rw [List.foldl_cons, if_neg (by simp), List.nil_append, importText_eq, foldl_words l hne]
      rfl
  · have hw : wordsOf ut mi = unitWord ut mi :: mi.imports.map importWord := by
      simp [wordsOf, hu]
    rw [hw] at h ⊢
    rw [unitText_eq hu, foldl_words _ (text_ne_nil (h _ (by simp)))]
    rfl

theorem sound_of_valid (h : Valid ut mi) : ∀ w ∈ wordsOf ut mi, w.Sound := by
  intro w hw
  have hname := h.name
  simp only [wordsOf, List.mem_append, List.mem_map] at hw
  obtain hw | ⟨i, hi, rfl⟩ := hw
  · by_cases hu : ut = .nonModular
    · simp [hu] at hw
    · rw [if_pos hu, List.mem_singleton] at hw
      rw [if_neg hu] at hname
      subst hw
      refine ⟨hu, hname, ?_, ?_⟩
      · unfold unitWord
        split_ifs
        · exact .inr (.inr (.inl rfl))
        · exact .inr (.inl rfl)
      · unfold unitWord
        split_ifs with himpl
        · exact iff_of_true rfl himpl
        · exact iff_of_false bang_ne_plus himpl
  · obtain ⟨ht, hn⟩ := h.imports i hi
    refine ⟨?_, hn, ?_, iff_of_false ?_ ?_⟩
    · rcases ht with ht | ht <;> simp [importWord, ht]
    · unfold importWord
      split_ifs
      · exact .inr (.inr (.inr rfl))
      · exact .inl rfl
    · unfold importWord
      split_ifs
      · exact star_ne_plus
      · exact zero_ne_plus
    · rcases ht with ht | ht <;> simp [importWord, ht]

/-! ### Reading a word -/

theorem inWord_iff : inWord d c = true ↔ c ≠ d ∧ c ≠ 0 := by
  simp [inWord, delimiter]

theorem nextWord_eq {g v : Bytes} (hg : ∀ b ∈ g, delimiter d b = true) (hv : v ≠ [])
    (hin : ∀ b ∈ v, inWord d b = true) (hr : Stops (inWord d) r) :
    nextWord d (g ++ (v ++ r)) = some (v, r) := by
  obtain ⟨b, v, rfl⟩ := List.exists_cons_of_ne_nil hv
  have hb : delimiter d b = false := by simpa [inWord] using hin b (by simp)
  have hdrop : (g ++ (b :: v ++ r)).dropWhile (delimiter d) = b :: (v ++ r) :=
    dropWhile_run hg (by simpa using hb)
  have hvs : ∀ b ∈ v, inWord d b = true := fun b hb => hin b (List.mem_cons_of_mem _ hb)
  unfold nextWord
  rw [hdrop]
  simp only [takeWhile_run hvs hr, dropWhile_run hvs hr]

theorem scan_quoted {v : Bytes} (hv : v ≠ []) (hin : ∀ b ∈ v, inWord quote b = true)
    (hr : Stops (inWord quote) r) :
    scan (quote :: (v ++ r)) = some (Word.ofChars quote v r, r.drop 2) := by
  have h : nextWord quote ([quote] ++ (v ++ r)) = some (v, r) :=
    nextWord_eq (by simp [delimiter]) hv hin hr
  rw [List.singleton_append] at h
  simp only [scan, hd_cons, ↓reduceIte, h]

theorem scan_plain {g v : Bytes} (hq : hd (g ++ (v ++ r)) ≠ quote)
    (hg : ∀ b ∈ g, delimiter space b = true) (hv : v ≠ [])
    (hin : ∀ b ∈ v, inWord space b = true) (hr : Stops (inWord space) r) :
    scan (g ++ (v ++ r)) = some (Word.ofChars space v r, r.drop 1) := by
  simp only [scan, if_neg hq, nextWord_eq hg hv hin hr, if_neg space_ne_quote]

theorem scan_space (h : hd t ≠ quote) : scan (space :: t) = scan t := by
  have hne : hd (space :: t) ≠ quote := space_ne_quote
  have hs : delimiter space space = true := by decide
  simp only [scan, if_neg h, if_neg hne, nextWord, List.dropWhile_cons, hs, ↓reduceIte]

theorem readFrom_space (h : hd t ≠ quote) : readFrom (space :: t) st = readFrom t st := by
  cases hs : scan t with
  | none => rw [readFrom_none hs, readFrom_none ((scan_space h).trans hs)]
  | some x =>
    obtain ⟨w, r⟩ := x
    rw [readFrom_some hs, readFrom_some ((scan_space h).trans hs)]

theorem marker_mark (h : w.Sound) (hw : w.mark ≠ 0) : marker (some w.mark) = w.mark := by
  rcases h.mark with h | h | h | h
  · exact absurd h hw
  all_goals rw [h]; rfl

theorem marker_none : marker none = 0 := by decide

theorem marker_space : marker (some space) = 0 := by decide

/-- The end of the line or the space in front of the next word. -/
def AtSpace (u : Bytes) : Prop := u = [] ∨ ∃ t, u = space :: t

theorem atSpace_tail : AtSpace (tail ws) := by
  cases ws with
  | nil => exact .inl rfl
  | cons w ws => exact .inr ⟨w.text ++ tail ws, by simp [tail]⟩

theorem AtSpace.marker (h : AtSpace u) : marker u[0]? = 0 := by
  rcases h with rfl | ⟨t, rfl⟩
  · exact marker_none
  · exact marker_space

theorem AtSpace.stops (h : AtSpace u) : Stops (inWord space) u := by
  rcases h with rfl | ⟨t, rfl⟩
  · exact stops_nil
  · exact stops_cons.mpr (by decide)

/-- Where the reader goes on: after a quoted word with a marker it is in front of the space. -/
def Word.after (w : Word) (u : Bytes) : Bytes :=
  if w.type = .moduleHeader ∧ w.mark ≠ 0 then u else u.drop 1

theorem tag_of_zero (h : w.mark = 0) : w.tag = [] := if_pos h

theorem tag_of_ne_zero (h : w.mark ≠ 0) : w.tag = [w.mark] := if_neg h

theorem marker_tag (h : w.Sound) (hu : AtSpace u) : marker (w.tag ++ u)[0]? = w.mark := by
  by_cases hm : w.mark = 0
  · rw [tag_of_zero hm, List.nil_append, hu.marker, hm]
  · rw [tag_of_ne_zero hm]
    exact marker_mark h hm

theorem ofChars_quote (v r : Bytes) :
    Word.ofChars quote v r
      = ⟨if marker r[1]? = plus then .moduleImpl else .moduleHeader, v, marker r[1]?⟩ := by
  simp [Word.ofChars, space_ne_quote.symm]

theorem ofChars_space (v r : Bytes) :
    Word.ofChars space v r
      = ⟨if marker v.getLast? = plus then .moduleImpl else .moduleIface,
        if marker v.getLast? ≠ 0 then v.dropLast else v, marker v.getLast?⟩ := by
  simp [Word.ofChars]

theorem scan_header (h : w.Sound) (h0 : 0 ∉ w.name) (ht : w.type = .moduleHeader)
    (hu : AtSpace u) : scan (w.text ++ u) = some (w, w.after u) := by
  obtain ⟨hne, hq⟩ : IsHeader w.name := by
    have hn := h.named
    rwa [Named, if_pos ht] at hn
  have hin : ∀ b ∈ w.name, inWord quote b = true := fun b hb =>
    inWord_iff.mpr ⟨ne_of_mem_of_not_mem hb hq, ne_of_mem_of_not_mem hb h0⟩
  have htext : w.text ++ u = quote :: (w.name ++ quote :: (w.tag ++ u)) := by
    simp [Word.text, quoted, ht]
  have hr : Stops (inWord quote) (quote :: (w.tag ++ u)) := stops_cons.mpr (by decide)
  have hmark : marker (quote :: (w.tag ++ u))[1]? = w.mark := marker_tag h hu
  have hplus : w.mark ≠ plus := fun hp => by
    have := h.impl.mp hp
    rw [ht] at this
    cases this
  have hword : Word.ofChars quote w.name (quote :: (w.tag ++ u)) = w := by
    rw [ofChars_quote, hmark, if_neg hplus, ← ht]
  have hafter : (quote :: (w.tag ++ u)).drop 2 = w.after u := by
    unfold Word.after
    by_cases hm : w.mark = 0
    · rw [tag_of_zero hm, if_neg (fun hc => hc.2 hm)]
      rfl
    · rw [tag_of_ne_zero hm, if_pos ⟨ht, hm⟩]
      rfl
  rw [htext, scan_quoted hne hin hr, hword, hafter]

theorem scan_name (h : w.Sound) (h0 : 0 ∉ w.name) (ht : w.type ≠ .moduleHeader)
    (hu : AtSpace u) : scan (w.text ++ u) = some (w, w.after u) := by
  obtain ⟨hne, hs, hq, hlast⟩ : IsName w.name := by
    have hn := h.named
    rwa [Named, if_neg ht] at hn
  have hm : ∀ b ∈ w.tag, b = w.mark ∧ w.mark ≠ 0 := fun b hb => by
    by_cases hm : w.mark = 0
    · simp [tag_of_zero hm] at hb
    · rw [tag_of_ne_zero hm, List.mem_singleton] at hb
      exact ⟨hb, hm⟩
  have hmspace : w.mark ≠ space := by
    rcases h.mark with h | h | h | h <;> rw [h] <;> decide
  have hin : ∀ b ∈ w.name ++ w.tag, inWord space b = true := fun b hb => by
    rw [inWord_iff]
    rcases List.mem_append.mp hb with hb | hb
    · exact ⟨ne_of_mem_of_not_mem hb hs, ne_of_mem_of_not_mem hb h0⟩
    · obtain ⟨rfl, hz⟩ := hm b hb
      exact ⟨hmspace, hz⟩
  have hhd : hd (w.name ++ w.tag ++ u) ≠ quote := by
    obtain ⟨b, n, hbn⟩ := List.exists_cons_of_ne_nil hne
    rw [hbn]
    exact ne_of_mem_of_not_mem (by simp [hbn]) hq
  have hmark : marker (w.name ++ w.tag).getLast? = w.mark := by
    by_cases hz : w.mark = 0
    · rw [tag_of_zero hz, List.append_nil, hz]
      unfold marker
      rw [if_neg]
      rintro (hc | hc | hc)
      · exact (hlast _ hc).1 rfl
      · exact (hlast _ hc).2.1 rfl
      · exact (hlast _ hc).2.2 rfl
    · rw [tag_of_ne_zero hz, List.getLast?_concat, marker_mark h hz]
  have hword : Word.ofChars space (w.name ++ w.tag) u = w := by
    have htype : (if w.mark = plus then UnitType.moduleImpl else .moduleIface) = w.type := by
      split_ifs with hp
      · exact (h.impl.mp hp).symm
      · have hni : w.type ≠ .moduleImpl := fun hc => hp (h.impl.mpr hc)
        have hnn := h.type
        generalize w.type = t at *
        cases t <;> simp_all
    have hname : (if w.mark ≠ 0 then (w.name ++ w.tag).dropLast else w.name ++ w.tag)
        = w.name := by
      by_cases hz : w.mark = 0
      · rw [if_neg (not_not.mpr hz), tag_of_zero hz, List.append_nil]
      · rw [if_pos hz, tag_of_ne_zero hz, List.dropLast_concat]
    rw [ofChars_space, hmark, hname, htype]
  have hafter : u.drop 1 = w.after u := (if_neg fun hc => ht hc.1).symm
  have htext : w.text ++ u = [] ++ (w.name ++ w.tag ++ u) := by
    simp [Word.text, quoted, ht]
  rw [htext, scan_plain hhd (by simp) (by simp [hne]) hin hu.stops, hword, hafter]

theorem scan_text (h : w.Sound) (h0 : 0 ∉ w.name) (hu : AtSpace u) :
    scan (w.text ++ u) = some (w, w.after u) := by
  by_cases ht : w.type = .moduleHeader
  · exact scan_header h h0 ht hu
  · exact scan_name h h0 ht hu

/-! ### Reading a line back -/

/-- A quoted word with a marker is not directly followed by a quoted word. -/
def Apart (p q : Word) : Prop :=
  ¬((p.type = .moduleHeader ∧ p.mark ≠ 0) ∧ q.type = .moduleHeader)

instance (p q : Word) : Decidable (Apart p q) := inferInstanceAs (Decidable ¬_)

theorem readFrom_text (h : w.Sound) (h0 : 0 ∉ w.name) (hu : AtSpace u) :
    readFrom (w.text ++ u) st = readFrom (w.after u) (accept st w) :=
  readFrom_some (scan_text h h0 hu)

theorem hd_join_ne_quote (h : w.Sound) (ht : w.type ≠ .moduleHeader) :
    hd (join (w :: ws)) ≠ quote := by
  obtain ⟨hne, -, hq, -⟩ : IsName w.name := by
    have hn := h.named
    rwa [Named, if_neg ht] at hn
  obtain ⟨b, n, hbn⟩ := List.exists_cons_of_ne_nil hne
  have hjoin : join (w :: ws) = b :: (n ++ w.tag ++ tail ws) := by
    simp [join, Word.text, quoted, ht, hbn]
  rw [hjoin]
  exact ne_of_mem_of_not_mem (by simp [hbn]) hq

theorem tail_cons : tail (w :: ws) = space :: join (w :: ws) := by
  simp [tail, join]

theorem readFrom_apart (hp : p.Sound) (h0 : 0 ∉ p.name) (hq : q.Sound) (h : Apart p q) :
    readFrom (join (p :: q :: ws)) st = readFrom (join (q :: ws)) (accept st p) := by
  rw [join, readFrom_text hp h0 atSpace_tail, tail_cons]
  unfold Word.after
  split_ifs with hm
  · exact readFrom_space (hd_join_ne_quote hq fun hc => h ⟨hm, hc⟩)
  · rfl

theorem readFrom_last (hp : p.Sound) (h0 : 0 ∉ p.name) :
    readFrom (join [p]) st = accept st p := by
  have hafter : p.after (tail []) = [] := by simp [Word.after, tail]
  rw [join, readFrom_text hp h0 atSpace_tail, hafter, readFrom_nil]

theorem readFrom_join (hs : ∀ w ∈ ws, w.Sound) (h0 : ∀ w ∈ ws, 0 ∉ w.name)
    (hc : ws.IsChain Apart) : readFrom (join ws) st = ws.foldl accept st := by
  induction ws generalizing st with
  | nil => exact readFrom_nil
  | cons p ws ih =>
    have hp := hs p (by simp)
    have hp0 := h0 p (by simp)
    cases ws with
    | nil => exact readFrom_last hp hp0
    | cons q ws =>
      obtain ⟨hpq, hc⟩ := List.isChain_cons_cons.mp hc
      rw [readFrom_apart hp hp0 (hs q (by simp)) hpq,
        ih (fun w hw => hs w (List.mem_cons_of_mem p hw))
          (fun w hw => h0 w (List.mem_cons_of_mem p hw)) hc]
      rfl

/-- An import as it is read: without a score. -/
def ModuleImport.unscored (i : ModuleImport) : ModuleImport := { i with score := 0 }

theorem importWord_not_unit (i : ModuleImport) :
    ¬((importWord i).mark = bang ∨ (importWord i).mark = plus) := by
  unfold importWord
  cases i.exported with
  | false => exact (show ¬((0 : UInt8) = bang ∨ 0 = plus) by decide)
  | true => exact (show ¬(star = bang ∨ star = plus) by decide)

theorem importWord_mark (i : ModuleImport) :
    decide ((importWord i).mark = star) = i.exported := by
  unfold importWord
  cases i.exported with
  | false => exact (show decide ((0 : UInt8) = star) = false by decide)
  | true => exact (show decide (star = star) = true by decide)

theorem accept_import (i : ModuleImport) :
    accept st (importWord i) = (st.1, { st.2 with imports := st.2.imports ++ [i.unscored] }) := by
  rw [accept, if_neg (importWord_not_unit i), importWord_mark]
  rfl

theorem foldl_imports (l : List ModuleImport) :
    (l.map importWord).foldl accept st
      = (st.1, { st.2 with imports := st.2.imports ++ l.map ModuleImport.unscored }) := by
  induction l generalizing st with
  | nil => simp
  | cons i l ih => simp [ih, accept_import]

theorem accept_unit : accept st (unitWord ut mi) = (ut, { st.2 with name := mi.name }) := by
  unfold accept unitWord
  split_ifs with h
  all_goals simp_all

theorem foldl_wordsOf (h : Valid ut mi) :
    (wordsOf ut mi).foldl accept (.nonModular, ⟨[], []⟩)
      = (ut, ⟨mi.name, mi.imports.map ModuleImport.unscored⟩) := by
  have hname := h.name
  unfold wordsOf
  rw [List.foldl_append, foldl_imports]
  by_cases hu : ut = .nonModular
  · rw [if_pos hu] at hname
    simp [hu, hname]
  · simp [hu, accept_unit]

/-- The line is read back when no name contains NUL and the words are apart. -/
theorem reads_back (h : Valid ut mi) (h0 : ∀ w ∈ wordsOf ut mi, 0 ∉ w.name)
    (hc : (wordsOf ut mi).IsChain Apart) :
    toModuleInfo (toString ut mi) = (ut, ⟨mi.name, mi.imports.map ModuleImport.unscored⟩) := by
  have hs := sound_of_valid h
  rw [toModuleInfo, toString_eq_join hs, readFrom_join hs h0 hc, foldl_wordsOf h]

/-! ### Names that are read have no NUL -/

theorem nextWord_noNul {v : Bytes} (h : nextWord d s = some (v, r)) : 0 ∉ v := by
  unfold nextWord at h
  split at h
  · cases h
  · rename_i c u hs
    simp only [Option.some.injEq, Prod.mk.injEq] at h
    obtain ⟨rfl, -⟩ := h
    intro hc
    rcases List.mem_cons.mp hc with hc | hc
    · have hst : Stops (delimiter d) (s.dropWhile (delimiter d)) := stops_dropWhile s
      rw [hs, stops_cons, ← hc] at hst
      simp [delimiter] at hst
    · have := List.mem_takeWhile_imp hc
      simp [inWord, delimiter] at this

theorem ofChars_name (d : UInt8) (v r : Bytes) : (Word.ofChars d v r).name ⊆ v := by
  have hname : (Word.ofChars d v r).name = v.dropLast ∨ (Word.ofChars d v r).name = v :=
    ite_eq_or_eq _ _ _
  rcases hname with h | h
  · rw [h]
    exact List.dropLast_subset v
  · rw [h]
    exact List.Subset.refl v

theorem scan_noNul (h : scan s = some (w, r)) : 0 ∉ w.name := by
  simp only [scan] at h
  generalize (if hd s = quote then quote else space) = d at h
  cases hn : nextWord d s with
  | none => simp [hn] at h
  | some x =>
    obtain ⟨v, t⟩ := x
    simp only [hn, Option.some.injEq, Prod.mk.injEq] at h
    rw [← h.1]
    exact fun hc => nextWord_noNul hn (ofChars_name d v t hc)

/-- No name contains NUL. -/
def NoNul (mi : ModuleInfo) : Prop := 0 ∉ mi.name ∧ ∀ i ∈ mi.imports, 0 ∉ i.name

theorem noNul_accept (h : NoNul st.2) (hw : 0 ∉ w.name) : NoNul (accept st w).2 := by
  unfold accept
  split_ifs
  · exact ⟨hw, h.2⟩
  · refine ⟨h.1, fun i hi => ?_⟩
    rcases List.mem_append.mp hi with hi | hi
    · exact h.2 i hi
    · rw [List.mem_singleton.mp hi]
      exact hw

theorem noNul_readFrom (s : Bytes) (h : NoNul st.2) : NoNul (readFrom s st).2 := by
  induction hn : s.length using Nat.strong_induction_on generalizing s st with
  | _ n ih =>
    cases hs : scan s with
    | none => rwa [readFrom_none hs]
    | some x =>
      obtain ⟨w, r⟩ := x
      rw [readFrom_some hs]
      exact ih r.length (hn ▸ scan_length hs) r (noNul_accept h (scan_noNul hs)) rfl

theorem noNul_toModuleInfo (s : Bytes) : NoNul (toModuleInfo s).2 :=
  noNul_readFrom s ⟨by simp, by simp⟩

/-! ### Reading from inside a path

When the reader takes the opening quote of a path for a part of a word, it goes on inside the path.
The first import that it then reads is the name of a module or what stands between two paths. -/

theorem imports_readFrom (s : Bytes) (st : UnitType × ModuleInfo) :
    ∃ l, ∀ st' : UnitType × ModuleInfo, (readFrom s st').2.imports = st'.2.imports ++ l := by
  induction hn : s.length using Nat.strong_induction_on generalizing s st with
  | _ n ih =>
    cases hs : scan s with
    | none => exact ⟨[], fun st' => by rw [readFrom_none hs, List.append_nil]⟩
    | some x =>
      obtain ⟨w, r⟩ := x
      obtain ⟨l, hl⟩ := ih r.length (hn ▸ scan_length hs) r st rfl
      by_cases hm : w.mark = bang ∨ w.mark = plus
      · exact ⟨l, fun st' => by rw [readFrom_some hs, hl, accept, if_pos hm]⟩
      · refine ⟨⟨w.type, w.name, w.mark = star, 0⟩ :: l, fun st' => ?_⟩
        rw [readFrom_some hs, hl, accept, if_neg hm, List.append_assoc]
        rfl

/-- The imports that are read. -/
def importsOf (s : Bytes) : List ModuleImport := (toModuleInfo s).2.imports

theorem readFrom_imports (s : Bytes) (st : UnitType × ModuleInfo) :
    (readFrom s st).2.imports = st.2.imports ++ importsOf s := by
  obtain ⟨l, hl⟩ := imports_readFrom s st
  have h : importsOf s = l := hl (.nonModular, ⟨[], []⟩)
  rw [hl, h]

theorem importsOf_unit (h : scan s = some (w, r)) (hm : w.mark = bang ∨ w.mark = plus) :
    importsOf s = importsOf r := by
  have hs := readFrom_imports r (accept (.nonModular, ⟨[], []⟩) w)
  rw [← readFrom_some h, accept, if_pos hm] at hs
  exact hs

theorem importsOf_import (h : scan s = some (w, r)) (hm : ¬(w.mark = bang ∨ w.mark = plus)) :
    importsOf s = ⟨w.type, w.name, w.mark = star, 0⟩ :: importsOf r := by
  have hs := readFrom_imports r (accept (.nonModular, ⟨[], []⟩) w)
  rw [← readFrom_some h, accept, if_neg hm] at hs
  exact hs

/-- No space directly after a unit's marker. -/
def Plain (g : Bytes) : Prop := g.IsChain fun a b => b = space → a ≠ bang ∧ a ≠ plus

/-- The name of a module, or a text with no space directly after a unit's marker. -/
def Stray (i : ModuleImport) : Prop := i.type ≠ .moduleHeader ∨ Plain i.name

/-- The rest of a line from the closing quote of an import's path. -/
def Closed (v : Bytes) : Prop := ∃ m u, v = m ++ u ∧ (m = [] ∨ m = [star]) ∧ AtSpace u

/-- The line behind the closing quote of a path: what comes before the next path, and so on. -/
inductive Outside : Bytes → Prop
  | last {g : Bytes} : Plain g → quote ∉ g → 0 ∉ g → Outside g
  | path {g r v : Bytes} : Plain g → quote ∉ g → 0 ∉ g → space ∈ g → quote ∉ r → 0 ∉ r →
      Outside v → Closed v → Outside (g ++ quote :: (r ++ quote :: v))

/-- A word that is not quoted is a module or leaves the imports as they are. -/
theorem importsOf_plain {g v : Bytes} (hq : hd (g ++ (v ++ r)) ≠ quote)
    (hg : ∀ b ∈ g, delimiter space b = true) (hv : v ≠ [])
    (hin : ∀ b ∈ v, inWord space b = true) (hr : Stops (inWord space) r) :
    (∀ i ∈ (importsOf (g ++ (v ++ r))).head?, i.type ≠ .moduleHeader) ∨
      (marker v.getLast? = bang ∨ marker v.getLast? = plus) ∧
        importsOf (g ++ (v ++ r)) = importsOf (r.drop 1) := by
  have hs := scan_plain hq hg hv hin hr
  have hw := ofChars_space v r
  by_cases hm : (Word.ofChars space v r).mark = bang ∨ (Word.ofChars space v r).mark = plus
  · refine .inr ⟨?_, importsOf_unit hs hm⟩
    rwa [hw] at hm
  · refine .inl fun i hi => ?_
    rw [importsOf_import hs hm, List.head?_cons, Option.mem_some_iff] at hi
    rw [← hi, hw]
    dsimp only
    split_ifs <;> decide

theorem marker_quote_or_star {m : Bytes} (v : Bytes) (hm : m = [] ∨ m = [star]) :
    ¬(marker (v ++ quote :: m).getLast? = bang ∨ marker (v ++ quote :: m).getLast? = plus) := by
  rcases hm with rfl | rfl
  · rw [List.getLast?_concat]
    decide
  · rw [List.getLast?_append_cons, List.getLast?_cons_cons]
    decide

/-- A word that goes on over the closing quote is a module. -/
theorem importsOf_span {g v : Bytes} (hq : hd (g ++ (v ++ quote :: r)) ≠ quote)
    (hg : ∀ b ∈ g, delimiter space b = true) (hin : ∀ b ∈ v, inWord space b = true)
    (hr : Closed r) : ∀ i ∈ (importsOf (g ++ (v ++ quote :: r))).head?, i.type ≠ .moduleHeader := by
  obtain ⟨m, u, rfl, hm, hu⟩ := hr
  have heq : g ++ (v ++ quote :: (m ++ u)) = g ++ (v ++ quote :: m ++ u) := by simp
  have hin' : ∀ b ∈ v ++ quote :: m, inWord space b = true := by
    intro b hb
    rcases List.mem_append.mp hb with hb | hb
    · exact hin b hb
    · rcases hm with rfl | rfl
      · rw [List.mem_singleton.mp hb]
        decide
      · simp only [List.mem_cons, List.not_mem_nil, or_false] at hb
        rcases hb with rfl | rfl <;> decide
  rw [heq] at hq ⊢
  rcases importsOf_plain hq hg (by simp) hin' hu.stops with h | ⟨h, -⟩
  · exact h
  · exact absurd h (marker_quote_or_star v hm)

theorem hd_ne_quote {v : Bytes} (hr : r ≠ []) (hq : quote ∉ r) : hd (r ++ v) ≠ quote := by
  obtain ⟨b, r, rfl⟩ := List.exists_cons_of_ne_nil hr
  exact ne_of_mem_of_not_mem (by simp) hq

/-- From the closing quote on, the reader takes what comes before the next path for a path. -/
theorem importsOf_closing {v : Bytes} (hv : Outside v)
    (ih : ∀ r t, (r ++ quote :: t).length < v.length → quote ∉ r → 0 ∉ r → Outside t →
      Closed t → ∀ i ∈ (importsOf (r ++ quote :: t)).head?, Stray i) :
    ∀ i ∈ (importsOf (quote :: v)).head?, Stray i := by
  intro i hi
  cases hv with
  | last hp hq h0 =>
    by_cases hne : v = []
    · subst hne
      have hnone : importsOf [quote] = [] := by
        have hs : scan [quote] = none := by decide
        rw [importsOf, toModuleInfo, readFrom_none hs]
      rw [hnone] at hi
      cases hi
    · have hin : ∀ b ∈ v, inWord quote b = true := fun b hb =>
        inWord_iff.mpr ⟨ne_of_mem_of_not_mem hb hq, ne_of_mem_of_not_mem hb h0⟩
      have hs := scan_quoted hne hin stops_nil
      rw [List.append_nil] at hs
      have hm : ¬((Word.ofChars quote v []).mark = bang ∨
          (Word.ofChars quote v []).mark = plus) := by
        rw [ofChars_quote]
        exact (show ¬(marker none = bang ∨ marker none = plus) by decide)
      rw [importsOf_import hs hm, List.head?_cons, Option.mem_some_iff] at hi
      rw [← hi]
      refine .inr ?_
      rw [ofChars_quote]
      exact hp
  | @path g r t hp hq h0 hspace hqr h0r ht hct =>
    have hne : g ≠ [] := List.ne_nil_of_mem hspace
    have hin : ∀ b ∈ g, inWord quote b = true := fun b hb =>
      inWord_iff.mpr ⟨ne_of_mem_of_not_mem hb hq, ne_of_mem_of_not_mem hb h0⟩
    have hs := scan_quoted (r := quote :: (r ++ quote :: t)) hne hin (stops_cons.mpr (by decide))
    have hw := ofChars_quote g (quote :: (r ++ quote :: t))
    by_cases hm : (Word.ofChars quote g (quote :: (r ++ quote :: t))).mark = bang ∨
        (Word.ofChars quote g (quote :: (r ++ quote :: t))).mark = plus
    · rw [importsOf_unit hs hm] at hi
      cases r with
      | nil =>
        rw [hw] at hm
        exact absurd hm (show ¬(marker (some quote) = bang ∨ marker (some quote) = plus) by decide)
      | cons c r =>
        refine ih r t ?_ (fun hc => hqr (List.mem_cons_of_mem c hc))
          (fun hc => h0r (List.mem_cons_of_mem c hc)) ht hct i hi
        simp only [List.length_append, List.length_cons]
        omega
    · rw [importsOf_import hs hm, List.head?_cons, Option.mem_some_iff] at hi
      rw [← hi]
      refine .inr ?_
      rw [hw]
      exact hp

/-- From inside a path on, the first import that is read is a stray one. -/
theorem importsOf_inside (r v : Bytes) (hq : quote ∉ r) (h0 : 0 ∉ r) (hv : Outside v)
    (hc : Closed v) : ∀ i ∈ (importsOf (r ++ quote :: v)).head?, Stray i := by
  induction hn : (r ++ quote :: v).length using Nat.strong_induction_on generalizing r v with
  | _ n ih =>
    by_cases hr : r = []
    · subst hr
      refine importsOf_closing hv fun r t hlt hq h0 hv hc => ih _ ?_ r t hq h0 hv hc rfl
      rw [← hn, List.nil_append, List.length_cons]
      omega
    · have hhd := hd_ne_quote (v := quote :: v) hr hq
      obtain ⟨g, t, rfl, hg, ht⟩ := exists_run (delimiter space) r
      obtain ⟨w, t, rfl, hw, htw⟩ := exists_run (inWord space) t
      cases t with
      | nil =>
        rw [List.append_nil, List.append_assoc] at hhd ⊢
        exact fun i hi => .inl (importsOf_span hhd hg hw hc i hi)
      | cons c t =>
        have hcd : delimiter space c = true := by
          simpa [inWord] using stops_cons.mp htw
        have hne : w ≠ [] := by
          rintro rfl
          rw [List.nil_append, stops_cons, hcd] at ht
          cases ht
        have heq : g ++ (w ++ c :: t) ++ quote :: v = g ++ (w ++ c :: (t ++ quote :: v)) := by simp
        rw [heq] at hhd hn ⊢
        rcases importsOf_plain hhd hg hne hw (stops_cons.mpr (stops_cons.mp htw)) with h | ⟨-, h⟩
        · exact fun i hi => .inl (h i hi)
        · rw [h]
          refine ih _ ?_ t v (fun hm => hq (by simp [hm])) (fun hm => h0 (by simp [hm])) hv hc rfl
          rw [← hn]
          simp only [List.length_append, List.length_cons]
          omega

theorem plain_of_noSpace {g : Bytes} (h : space ∉ g) : Plain g := by
  unfold Plain
  induction g with
  | nil => exact .nil
  | cons a g ih =>
    rw [List.isChain_cons]
    exact ⟨fun b hb hbs => absurd (hbs ▸ List.mem_of_mem_head? hb) (fun hc =>
      h (List.mem_cons_of_mem a hc)), ih fun hc => h (List.mem_cons_of_mem a hc)⟩

/-- The text does not end with a unit's marker. -/
def Unmarked (g : Bytes) : Prop := ∀ a ∈ g.getLast?, a ≠ bang ∧ a ≠ plus

instance (g : Bytes) : Decidable (Unmarked g) :=
  inferInstanceAs (Decidable (∀ a ∈ g.getLast?, a ≠ bang ∧ a ≠ plus))

theorem plain_append {g x : Bytes} (hg : Plain g) (hl : Unmarked g) (hx : space ∉ x) :
    Plain (g ++ space :: x) := by
  unfold Plain
  rw [List.isChain_append]
  refine ⟨hg, ?_, fun a ha b _ _ => hl a ha⟩
  rw [List.isChain_cons]
  exact ⟨fun b hb hbs => absurd (hbs ▸ List.mem_of_mem_head? hb) hx, plain_of_noSpace hx⟩

/-- The word of an import that can be read: not a unit's, and without NUL. -/
structure Word.Readable (w : Word) : Prop where
  sound : w.Sound
  mark : w.mark = 0 ∨ w.mark = star
  noNul : 0 ∉ w.name

theorem Word.Readable.tag (h : w.Readable) : w.tag = [] ∨ w.tag = [star] := by
  rcases h.mark with hm | hm
  · exact .inl (tag_of_zero hm)
  · have hz : w.mark ≠ 0 := hm ▸ (by decide)
    exact .inr ((tag_of_ne_zero hz).trans (by rw [hm]))

theorem closed_tag (h : w.Readable) : Closed (w.tag ++ tail ws) :=
  ⟨w.tag, tail ws, rfl, h.tag, atSpace_tail⟩

theorem unmarked_tag (h : w.Readable) : Unmarked w.tag := by
  rcases h.tag with ht | ht
  · simp [ht, Unmarked]
  · rw [ht]
    decide

theorem noSpace_tag (h : w.Readable) : space ∉ w.tag ∧ quote ∉ w.tag ∧ 0 ∉ w.tag := by
  rcases h.tag with ht | ht <;> rw [ht] <;> decide

theorem outside_tail {g : Bytes} (hp : Plain g) (hl : Unmarked g) (hq : quote ∉ g) (h0 : 0 ∉ g)
    (hw : ∀ w ∈ ws, w.Readable) : Outside (g ++ tail ws) := by
  induction ws generalizing g with
  | nil => simpa [tail] using Outside.last hp hq h0
  | cons w ws ih =>
    have hr := hw w (by simp)
    have hws := fun v hv => hw v (List.mem_cons_of_mem w hv)
    obtain ⟨hts, htq, ht0⟩ := noSpace_tag hr
    have hn := hr.sound.named
    by_cases ht : w.type = .moduleHeader
    · rw [Named, if_pos ht] at hn
      have heq : g ++ tail (w :: ws)
          = g ++ [space] ++ quote :: (w.name ++ quote :: (w.tag ++ tail ws)) := by
        simp [tail, Word.text, quoted, ht]
      rw [heq]
      refine .path (plain_append hp hl (by simp)) ?_ ?_ (by simp) hn.2 hr.noNul
        (ih (plain_of_noSpace hts) (unmarked_tag hr) htq ht0 hws) (closed_tag hr)
      · simp [hq, space_ne_quote.symm]
      · simp [h0]
        decide
    · rw [Named, if_neg ht] at hn
      obtain ⟨hne, hns, hnq, hnl⟩ := hn
      have heq : g ++ tail (w :: ws) = (g ++ space :: (w.name ++ w.tag)) ++ tail ws := by
        simp [tail, Word.text, quoted, ht]
      rw [heq]
      refine ih (plain_append hp hl (by simp [hns, hts])) ?_ ?_ ?_ hws
      · intro a ha
        rcases hr.tag with htag | htag
        · rw [htag, List.append_nil, List.getLast?_append_cons,
            List.getLast?_cons_of_ne_nil hne] at ha
          exact ⟨(hnl a ha).1, (hnl a ha).2.1⟩
        · have hlast : (g ++ space :: (w.name ++ w.tag)).getLast? = some star := by
            rw [htag, ← List.cons_append, ← List.append_assoc, List.getLast?_concat]
          rw [hlast, Option.mem_some_iff] at ha
          exact ha ▸ (by decide)
      · simp [hq, hnq, htq, space_ne_quote.symm]
      · simp [h0, hr.noNul, ht0]
        decide

/-- A unit's marker at the end of a word that starts with a quote is not the quote. -/
theorem last_of_marker {a : Bytes}
    (h : marker (quote :: a).getLast? = bang ∨ marker (quote :: a).getLast? = plus) :
    ∃ x ∈ a.getLast?, x = bang ∨ x = plus := by
  have hne : a ≠ [] := by
    rintro rfl
    exact absurd h (by decide)
  rw [List.getLast?_cons_of_ne_nil hne, List.getLast?_eq_some_getLast hne] at h
  refine ⟨a.getLast hne, List.getLast?_eq_some_getLast hne, ?_⟩
  generalize a.getLast hne = x at h
  by_cases hx : marker (some x) = 0
  · rw [hx] at h
    exact absurd h (by decide)
  · have hval : marker (some x) = x := by
      unfold marker at hx ⊢
      split_ifs at hx ⊢
      · rfl
      · exact absurd rfl hx
    rwa [hval] at h

/-- A quoted word that the reader reaches at the space in front of it is not read as a header. -/
theorem importsOf_glued (hq : q.Readable) (ht : q.type = .moduleHeader)
    (hw : ∀ w ∈ ws, w.Readable) :
    ∀ i ∈ (importsOf (tail (q :: ws))).head?, i.type ≠ .moduleHeader ∨ i.name ≠ q.name := by
  obtain ⟨hts, htq, ht0⟩ := noSpace_tag hq
  have hn := hq.sound.named
  rw [Named, if_pos ht] at hn
  have hout : Outside (q.tag ++ tail ws) :=
    outside_tail (plain_of_noSpace hts) (unmarked_tag hq) htq ht0 hw
  have hclosed : Closed (q.tag ++ tail ws) := closed_tag hq
  have heq : tail (q :: ws) = [space] ++ (quote :: q.name ++ quote :: (q.tag ++ tail ws)) := by
    simp [tail, Word.text, quoted, ht]
  rw [heq]
  obtain ⟨a, t, hat, ha, hta⟩ := exists_run (inWord space) q.name
  have hin : ∀ b ∈ quote :: a, inWord space b = true := by
    intro b hb
    rcases List.mem_cons.mp hb with rfl | hb
    · decide
    · exact ha b hb
  have hs : ∀ b ∈ [space], delimiter space b = true := by simp [delimiter]
  have hhd : ∀ x, hd ([space] ++ x) ≠ quote := fun _ => space_ne_quote
  cases t with
  | nil =>
    rw [List.append_nil] at hat
    rw [hat]
    exact fun i hi => .inl (importsOf_span (hhd _) hs hin hclosed i hi)
  | cons c b =>
    have hc : c = space := by
      have h0 : c ≠ 0 := fun h => hq.noNul (by rw [hat, h]; simp)
      have hd : delimiter space c = true := by simpa [inWord] using stops_cons.mp hta
      simpa [delimiter, h0] using hd
    subst hc
    have hst : Stops (inWord space) (space :: (b ++ quote :: (q.tag ++ tail ws))) :=
      stops_cons.mpr (by decide)
    have heq : quote :: q.name ++ quote :: (q.tag ++ tail ws)
        = quote :: a ++ space :: (b ++ quote :: (q.tag ++ tail ws)) := by simp [hat]
    rw [heq]
    rcases importsOf_plain (hhd _) hs (by simp) hin hst with h | ⟨hm, h⟩
    · exact fun i hi => .inl (h i hi)
    · rw [h]
      intro i hi
      have hqb : quote ∉ b := fun hc => hn.2 (by simp [hat, hc])
      have h0b : 0 ∉ b := fun hc => hq.noNul (by simp [hat, hc])
      refine (importsOf_inside b _ hqb h0b hout hclosed i hi).imp id fun hp hc => ?_
      rw [hc, hat, Plain, List.isChain_append] at hp
      obtain ⟨x, hx, hxm⟩ := last_of_marker hm
      exact hxm.elim (hp.2.2 x hx space (by simp) rfl).1 (hp.2.2 x hx space (by simp) rfl).2

theorem foldl_imports_prefix (ws : List Word) (st : UnitType × ModuleInfo) :
    ∃ l, (ws.foldl accept st).2.imports = st.2.imports ++ l := by
  induction ws generalizing st with
  | nil => exact ⟨[], (List.append_nil _).symm⟩
  | cons w ws ih =>
    obtain ⟨l, hl⟩ := ih (accept st w)
    rw [List.foldl_cons, hl]
    unfold accept
    split_ifs
    · exact ⟨l, rfl⟩
    · exact ⟨_, List.append_assoc _ _ _⟩

theorem tail_wordsOf (ut : UnitType) (mi : ModuleInfo) :
    ∀ w ∈ (wordsOf ut mi).tail, w.mark = 0 ∨ w.mark = star := by
  have himport : ∀ w ∈ mi.imports.map importWord, w.mark = 0 ∨ w.mark = star := by
    intro w hw
    obtain ⟨i, -, rfl⟩ := List.mem_map.mp hw
    unfold importWord
    split_ifs
    · exact .inr rfl
    · exact .inl rfl
  unfold wordsOf
  split_ifs
  · exact himport
  · exact fun w hw => himport w (List.mem_of_mem_tail hw)

/-- What the reader makes of a line with such a word differs from what was written. -/
theorem imports_ne (st : UnitType × ModuleInfo) (hs : ∀ w ∈ ws, w.Sound) (h0 : ∀ w ∈ ws, 0 ∉ w.name)
    (hm : ∀ w ∈ ws.tail, w.mark = 0 ∨ w.mark = star) (hc : ¬ws.IsChain Apart) :
    (readFrom (join ws) st).2.imports ≠ (ws.foldl accept st).2.imports := by
  induction ws generalizing st with
  | nil => exact absurd .nil hc
  | cons p ws ih =>
    cases ws with
    | nil => exact absurd (.singleton p) hc
    | cons q ws =>
      have hws := fun w hw => hs w (List.mem_cons_of_mem p hw)
      have hws0 := fun w hw => h0 w (List.mem_cons_of_mem p hw)
      have hread : ∀ w ∈ q :: ws, w.Readable := fun w hw => ⟨hws w hw, hm w hw, hws0 w hw⟩
      by_cases ha : Apart p q
      · rw [readFrom_apart (hs p (by simp)) (h0 p (by simp)) (hws q (by simp)) ha]
        rw [List.isChain_cons_cons, not_and] at hc
        exact ih (accept st p) hws hws0 (fun w hw => hm w (List.mem_of_mem_tail hw)) (hc ha)
      · obtain ⟨hp, hq⟩ := not_not.mp ha
        have hafter : p.after (tail (q :: ws)) = tail (q :: ws) := if_pos hp
        rw [join, readFrom_text (hs p (by simp)) (h0 p (by simp)) atSpace_tail, hafter,
          readFrom_imports]
        have hqm : ¬(q.mark = bang ∨ q.mark = plus) := by
          rcases hm q (by simp) with h | h <;> rw [h] <;> decide
        obtain ⟨l, hl⟩ := foldl_imports_prefix ws (accept (accept st p) q)
        have haq : (accept (accept st p) q).2.imports
            = (accept st p).2.imports ++ [⟨q.type, q.name, q.mark = star, 0⟩] := by
          rw [accept, if_neg hqm]
        rw [List.foldl_cons, List.foldl_cons, hl, haq, List.append_assoc]
        intro h
        have hglued := importsOf_glued (hread q (by simp)) hq
          (fun w hw => hread w (List.mem_cons_of_mem q hw))
        rw [List.append_cancel_left h] at hglued
        exact (hglued _ rfl).elim (fun hne => hne hq) (fun hne => hne rfl)

/-- **The line is read back as it was written if and only if** no name contains NUL and no quoted
word with a marker is directly followed by a quoted word. -/
theorem reads_back_iff (ut : UnitType) (mi : ModuleInfo) (h : Valid ut mi) :
    toModuleInfo (toString ut mi) = (ut, ⟨mi.name, mi.imports.map ModuleImport.unscored⟩) ↔
      (∀ w ∈ wordsOf ut mi, 0 ∉ w.name) ∧ (wordsOf ut mi).IsChain Apart := by
  refine ⟨fun heq => ?_, fun hc => reads_back h hc.1 hc.2⟩
  have h0 : ∀ w ∈ wordsOf ut mi, 0 ∉ w.name := by
    have hnul := noNul_toModuleInfo (toString ut mi)
    rw [heq] at hnul
    intro w hw
    simp only [wordsOf, List.mem_append, List.mem_map] at hw
    obtain hw | ⟨i, hi, rfl⟩ := hw
    · split_ifs at hw
      · rw [List.mem_singleton.mp hw]
        exact hnul.1
      · cases hw
    · exact hnul.2 i.unscored (List.mem_map_of_mem hi)
  refine ⟨h0, by_contra fun hc => ?_⟩
  have hs := sound_of_valid h
  refine imports_ne (.nonModular, ⟨[], []⟩) hs h0 (tail_wordsOf ut mi) hc ?_
  rw [← toString_eq_join hs, foldl_wordsOf h]
  exact congrArg (fun x => x.2.imports) heq

/-- A header unit that re-exports a module and imports a header. -/
theorem reads_back_iff_module :
    toModuleInfo (toString .moduleHeader
        ⟨str ['a', ' ', 'b'], [⟨.moduleIface, str ['m'], true, 1⟩,
          ⟨.moduleHeader, str ['c', ' ', 'd'], false, 0⟩]⟩)
      = (.moduleHeader, ⟨str ['a', ' ', 'b'], [⟨.moduleIface, str ['m'], true, 0⟩,
          ⟨.moduleHeader, str ['c', ' ', 'd'], false, 0⟩]⟩) :=
  (reads_back_iff _ _ ⟨by decide, by decide⟩).mpr ⟨by decide, by decide⟩

/-- `"a"! "b"`: the header that is imported is read as a module. -/
theorem not_reads_back :
    Valid .moduleHeader ⟨str ['a'], [⟨.moduleHeader, str ['b'], false, 0⟩]⟩ ∧
      toModuleInfo (toString .moduleHeader ⟨str ['a'], [⟨.moduleHeader, str ['b'], false, 0⟩]⟩)
        ≠ (.moduleHeader, ⟨str ['a'], [⟨.moduleHeader, str ['b'], false, 0⟩]⟩) := by
  refine ⟨⟨by decide, by decide⟩, ?_⟩
  have hs : toString .moduleHeader ⟨str ['a'], [⟨.moduleHeader, str ['b'], false, 0⟩]⟩
      = str ['"', 'a', '"', '!', ' ', '"', 'b', '"'] := by decide
  have h1 : scan (str ['"', 'a', '"', '!', ' ', '"', 'b', '"'])
      = some (⟨.moduleHeader, str ['a'], bang⟩, str [' ', '"', 'b', '"']) := by decide
  have h2 : scan (str [' ', '"', 'b', '"'])
      = some (⟨.moduleIface, str ['"', 'b', '"'], 0⟩, []) := by decide
  rw [hs, toModuleInfo, readFrom_some h1, readFrom_some h2, readFrom_nil]
  decide

end Build2.Libbuild2.Cc.Modules
