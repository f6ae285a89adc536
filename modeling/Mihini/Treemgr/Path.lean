import Mathlib.Data.List.Basic

/-!
# Paths

`src/luafwk/utils/path.lua`: segments, clean, concat, split and gsplit.  `canon` is what `tonumber`
and the conversion back to a string make of a segment: the identity, unless the segment is a numeral.
-/

namespace Mihini.Path

open List

abbrev Str := List Char

/-- `%s` -/
def isSpace (c : Char) : Bool := c ∈ [' ', '\t', '\n', '\x0b', '\x0c', '\r']

section

variable (canon : Str → Str)

def segments (path : Str) : List Str :=
  ((path.splitOn '.').filter fun elt => !elt.isEmpty).map canon

/-- `concat`, and `pathconcat` on a part of a list. -/
def concat (l : List Str) : Str := ['.'].intercalate (l.filter fun v => !v.isEmpty)

def clean (path : Str) : Str := concat (segments canon path)

def gsplit (path : Str) : List (Str × Str) :=
  let segs := segments canon path
  (List.range (segs.length + 1)).reverse.map fun limit =>
    (concat (segs.take limit), concat (segs.drop limit))

/-- `split(path, -1)` -/
def splitLast (path : Str) : Str × Str :=
  let segs := segments canon path
  if segs.isEmpty then ([], path)
  else (concat (segs.take (segs.length - 1)), concat (segs.drop (segs.length - 1)))

/-- The first half of `split(path, 1)`. -/
def splitFirst (path : Str) : Str :=
  let segs := segments canon path
  if segs.isEmpty then path else concat (segs.take 1)

/-- The conversions keep a segment from becoming empty at a dot, and print no spaces. -/
structure Numerals : Prop where
  parts : ∀ s, s ≠ [] → '.' ∉ s → [] ∉ (canon s).splitOn '.'
  spaces : ∀ s, canon s = s ∨ ∀ c ∈ canon s, isSpace c = false

structure Segment (s : Str) : Prop where
  nonempty : s ≠ []
  dotless : '.' ∉ s
  canonical : canon s = s

/-- The segments of the path are names of nodes once read; no numeral has a dot. -/
def IsPath (path : Str) : Prop := ∀ s ∈ segments canon path, Segment canon s

end

theorem numerals_id : Numerals id where
  parts s hs hdot hmem := by
    rw [id, splitOn_eq_singleton hdot, mem_singleton] at hmem
    exact hs hmem.symm
  spaces _ := Or.inl rfl

/-! ## Concatenation -/

@[simp] theorem concat_nil : concat [] = [] := rfl

theorem concat_cons_nil (l : List Str) : concat ([] :: l) = concat l := rfl

theorem concat_singleton (s : Str) : concat [s] = s := by
  cases s with
  | nil => rfl
  | cons c s => exact intercalate_singleton

variable {l : List Str}

theorem concat_eq_nil : concat l = [] ↔ ∀ s ∈ l, s = [] := by
  constructor
  · intro h s hs
    by_contra hne
    have hmem : s ∈ l.filter fun v => !v.isEmpty := by simp [hs, hne]
    rw [concat] at h
    cases hl : l.filter fun v => !v.isEmpty with
    | nil =>
      rw [hl] at hmem
      exact not_mem_nil hmem
    | cons a rest =>
      have ha : a ≠ [] := by
        have : a ∈ l.filter fun v => !v.isEmpty := by rw [hl]; exact mem_cons_self
        simpa using (mem_filter.mp this).2
      rw [hl] at h
      cases rest with
      | nil =>
        rw [intercalate_singleton] at h
        exact ha h
      | cons b rest =>
        rw [intercalate_cons_cons] at h
        exact ha (append_eq_nil_iff.mp (append_eq_nil_iff.mp h).1).1
  · intro h
    rw [concat, filter_eq_nil_iff.mpr]
    · rfl
    · intro s hs
      simp [h s hs]

theorem concat_right_nil (s : Str) : concat [s, []] = s := by
  cases s with
  | nil => rfl
  | cons c s => exact intercalate_singleton

theorem concat_pair {s t : Str} (hs : s ≠ []) (ht : t ≠ []) : concat [s, t] = s ++ '.' :: t := by
  have hfilter : ([s, t].filter fun v => !v.isEmpty) = [s, t] := by simp [hs, ht]
  rw [concat, hfilter, intercalate_cons_cons, intercalate_singleton]
  simp

variable {a b : List Str}

theorem intercalate_append (ha : a ≠ []) (hb : b ≠ []) :
    ['.'].intercalate (a ++ b) = ['.'].intercalate a ++ '.' :: ['.'].intercalate b := by
  induction a with
  | nil => exact absurd rfl ha
  | cons s a ih =>
    cases a with
    | nil =>
      rw [singleton_append, intercalate_cons_of_ne_nil hb, intercalate_singleton]
      simp
    | cons s' a =>
      show ['.'].intercalate (s :: s' :: (a ++ b)) = _
      rw [intercalate_cons_cons, intercalate_cons_cons, ← cons_append,
        ih (by simp)]
      simp

theorem concat_append (a b : List Str) : concat (a ++ b) = concat [concat a, concat b] := by
  by_cases ha : concat a = []
  · have hfilter : (a.filter fun v => !v.isEmpty) = [] := by
      rw [filter_eq_nil_iff]
      intro s hs
      simp [concat_eq_nil.mp ha s hs]
    rw [ha, concat_cons_nil, concat_singleton, concat, filter_append, hfilter]
    rfl
  · by_cases hb : concat b = []
    · have hfilter : (b.filter fun v => !v.isEmpty) = [] := by
        rw [filter_eq_nil_iff]
        intro s hs
        simp [concat_eq_nil.mp hb s hs]
      rw [hb, concat_right_nil, concat, filter_append, hfilter, append_nil]
      rfl
    · have hne : ∀ l : List Str, concat l ≠ [] → (l.filter fun v => !v.isEmpty) ≠ [] := by
        intro l hl hfilter
        rw [concat, hfilter] at hl
        exact hl rfl
      rw [concat_pair ha hb, concat, filter_append,
        intercalate_append (hne a ha) (hne b hb)]
      rfl

theorem concat_append_congr (h : concat a = concat b) (rest : List Str) :
    concat (a ++ rest) = concat (b ++ rest) := by
  rw [concat_append, concat_append b, h]

/-! ## Segments -/

variable {canon : Str → Str}

theorem filter_segments (h : ∀ s ∈ l, Segment canon s) :
    (l.filter fun v => !v.isEmpty) = l := by
  rw [filter_eq_self]
  intro s hs
  simpa using (h s hs).nonempty

theorem segments_concat (h : ∀ s ∈ l, Segment canon s) :
    segments canon (concat l) = l := by
  have hmap : l.map canon = l := by
    rw [map_congr_left fun s hs => (h s hs).canonical]
    exact map_id' l
  rw [concat, filter_segments h]
  cases hl : l with
  | nil => rfl
  | cons s rest =>
    rw [← hl, segments, splitOn_intercalate '.' (fun s hs => (h s hs).dotless) (by simp [hl]),
      filter_segments h, hmap]

theorem concat_inj (ha : ∀ s ∈ a, Segment canon s)
    (hb : ∀ s ∈ b, Segment canon s) (h : concat a = concat b) : a = b := by
  rw [← segments_concat ha, h, segments_concat hb]

theorem clean_concat (h : ∀ s ∈ l, Segment canon s) :
    clean canon (concat l) = concat l := by
  rw [clean, segments_concat h]

theorem isPath_concat (h : ∀ s ∈ l, Segment canon s) :
    IsPath canon (concat l) := by
  rw [IsPath, segments_concat h]
  exact h

theorem mem_gsplit {path : Str} {x : Str × Str} :
    x ∈ gsplit canon path ↔ ∃ a b, segments canon path = a ++ b ∧ x = (concat a, concat b) := by
  rw [gsplit, mem_map]
  constructor
  · intro h
    obtain ⟨limit, -, rfl⟩ := h
    exact ⟨_, _, (take_append_drop limit _).symm, rfl⟩
  · intro h
    obtain ⟨a, b, hab, rfl⟩ := h
    refine ⟨a.length, ?_, ?_⟩
    · rw [mem_reverse, mem_range, hab, length_append]
      omega
    · simp [hab]

/-! ## Paths in normal form -/

theorem splitOn_intercalate_flatMap (hl : l ≠ []) :
    (['.'].intercalate l).splitOn '.' = l.flatMap fun s => s.splitOn '.' := by
  induction l with
  | nil => exact absurd rfl hl
  | cons s l ih =>
    cases l with
    | nil => simp
    | cons s' l =>
      rw [intercalate_cons_cons, append_assoc, singleton_append,
        splitOn_append_cons_self, ih (by simp)]
      rfl

theorem length_splitOn_pos (s : Str) : 0 < (s.splitOn '.').length :=
  length_pos_of_ne_nil (splitOn_ne_nil '.' s)

theorem dotless_of_length {s : Str} (h : (s.splitOn '.').length = 1) : '.' ∉ s := by
  intro hmem
  obtain ⟨a, b, rfl⟩ := append_of_mem hmem
  rw [splitOn_append_cons_self, length_append] at h
  have := length_splitOn_pos a
  have := length_splitOn_pos b
  omega

theorem length_parts (h : (l.flatMap fun s => s.splitOn '.').length ≤ l.length) :
    ∀ s ∈ l, (s.splitOn '.').length = 1 := by
  have hle : ∀ l : List Str, l.length ≤ (l.flatMap fun s => s.splitOn '.').length := by
    intro l
    induction l with
    | nil => exact Nat.le_refl 0
    | cons s l ih =>
      rw [flatMap_cons, length_append, length_cons]
      have := length_splitOn_pos s
      omega
  induction l with
  | nil => exact fun s hs => absurd hs not_mem_nil
  | cons s l ih =>
    rw [flatMap_cons, length_append, length_cons] at h
    have hs := length_splitOn_pos s
    have hl := hle l
    intro s' hs'
    rcases mem_cons.mp hs' with rfl | hs'
    · omega
    · exact ih (by omega) s' hs'

theorem dotless_of_mem_splitOn {s p : Str} (h : p ∈ s.splitOn '.') : '.' ∉ p := by
  induction s generalizing p with
  | nil =>
    rw [splitOn_nil, mem_singleton] at h
    rw [h]
    exact not_mem_nil
  | cons c s ih =>
    rw [splitOn_cons_eq_if_modifyHead] at h
    split at h
    · rcases mem_cons.mp h with rfl | h
      · exact not_mem_nil
      · exact ih h
    · next hc =>
      cases hsplit : s.splitOn '.' with
      | nil => exact absurd hsplit (splitOn_ne_nil '.' s)
      | cons q qs =>
        rw [hsplit, modifyHead_cons] at h
        rcases mem_cons.mp h with rfl | h
        · have hq : '.' ∉ q := ih (by rw [hsplit]; exact mem_cons_self)
          simp only [mem_cons, not_or]
          exact ⟨fun heq => hc (by rw [← heq]; rfl), hq⟩
        · exact ih (by rw [hsplit]; exact mem_cons_of_mem q h)

/-- The segments of a path that is its own normal form are written as they are read. -/
theorem isPath_of_clean (hcanon : Numerals canon) {path : Str} (h : clean canon path = path) :
    IsPath canon path := by
  let qs := (path.splitOn '.').filter fun elt => !elt.isEmpty
  have hqs : ∀ q ∈ qs, q ≠ [] ∧ '.' ∉ q := by
    intro q hq
    obtain ⟨hmem, hne⟩ := mem_filter.mp hq
    exact ⟨by simpa using hne, dotless_of_mem_splitOn hmem⟩
  have hparts : ∀ q ∈ qs, [] ∉ (canon q).splitOn '.' := fun q hq =>
    hcanon.parts q (hqs q hq).1 (hqs q hq).2
  have hne : ∀ q ∈ qs, canon q ≠ [] := by
    intro q hq heq
    apply hparts q hq
    rw [heq, splitOn_nil]
    exact mem_cons_self
  have hfilter : ((qs.map canon).filter fun v => !v.isEmpty) = qs.map canon := by
    rw [filter_eq_self]
    intro s hs
    obtain ⟨q, hq, rfl⟩ := mem_map.mp hs
    simpa using hne q hq
  have hpath : ['.'].intercalate (qs.map canon) = path := by
    rw [← hfilter]
    exact h
  by_cases hnil : qs = []
  · intro s hs
    rw [segments, show (path.splitOn '.').filter (fun elt => !elt.isEmpty) = [] from hnil] at hs
    exact absurd hs not_mem_nil
  have hsplit : path.splitOn '.' = (qs.map canon).flatMap fun s => s.splitOn '.' := by
    rw [← splitOn_intercalate_flatMap (by simpa using hnil), hpath]
  have hall : qs = path.splitOn '.' := by
    show (path.splitOn '.').filter _ = _
    rw [filter_eq_self]
    intro p hp
    rw [hsplit] at hp
    obtain ⟨s, hs, hp⟩ := mem_flatMap.mp hp
    obtain ⟨q, hq, rfl⟩ := mem_map.mp hs
    have : p ≠ [] := fun heq => hparts q hq (heq ▸ hp)
    simpa using this
  have hone := length_parts (l := qs.map canon)
    (Nat.le_of_eq (by rw [← hsplit, ← hall, length_map]))
  have hsame : qs = qs.map canon := by
    conv_lhs => rw [hall, hsplit]
    have hsingle : ∀ s ∈ qs.map canon, s.splitOn '.' = [s] := fun s hs =>
      splitOn_eq_singleton (dotless_of_length (hone s hs))
    rw [flatMap_congr hsingle]
    simp
  intro s hs
  have hs' : s ∈ qs := hsame ▸ hs
  obtain ⟨i, hi, rfl⟩ := mem_iff_getElem.mp hs'
  refine ⟨(hqs _ hs').1, (hqs _ hs').2, ?_⟩
  have := getElem_of_eq hsame hi
  rw [getElem_map] at this
  exact this.symm

end Mihini.Path
