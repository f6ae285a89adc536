import Mathlib.Data.List.Basic
import Mathlib.Data.List.Infix

/-!
# Cutting a stream by words

A stream is cut where a word ends, or where what was read since the last cut can no longer become a
word.  No word begins with another one, so that there is one way to cut.
-/

namespace Mihini.Lib.Cut

open List

variable {ω α : Type}

inductive Segment (ω α : Type) where
  | word (w : ω)
  | text (s : List α)
  deriving DecidableEq

variable (words : List ω) (spell : ω → List α)

def Segment.spelled : Segment ω α → List α
  | .word w => spell w
  | .text s => s

def Begun (p : List α) : Prop := ∃ w ∈ words, p <+: spell w ∧ p ≠ spell w

structure Shortest (s : List α) : Prop where
  none : ∀ w ∈ words, ¬ s <+: spell w
  begun : ∀ p, p <+: s → p ≠ s → Begun words spell p

def Fine : Segment ω α → Prop
  | .word w => w ∈ words
  | .text s => Shortest words spell s

/-- A stream as it is to be cut, with what is left at its end. -/
structure Exact (segments : List (Segment ω α)) (left stream : List α) : Prop where
  joined : segments.flatMap (Segment.spelled spell) ++ left = stream
  fine : ∀ x ∈ segments, Fine words spell x
  begun : Begun words spell left

structure Code : Prop where
  inhabited : words ≠ []
  nonempty : ∀ w ∈ words, spell w ≠ []
  free : ∀ w ∈ words, ∀ w' ∈ words, spell w <+: spell w' → w = w'

section

variable [DecidableEq α]

/-- The segments of a stream of which `p` was read before, and what is left. -/
def cut : List α → List α → List (Segment ω α) × List α
  | p, [] => ([], p)
  | p, b :: rest =>
    match words.find? fun w => spell w = p ++ [b] with
    | some w =>
      let (segments, left) := cut [] rest
      (.word w :: segments, left)
    | none =>
      if words.any fun w => (p ++ [b]).isPrefixOf (spell w) then cut (p ++ [b]) rest
      else
        let (segments, left) := cut [] rest
        (.text (p ++ [b]) :: segments, left)

end

variable {words spell}

theorem Begun.of_prefix {p q : List α} (h : Begun words spell q) (hpq : p <+: q) :
    Begun words spell p := by
  obtain ⟨w, hw, hpre, hne⟩ := h
  refine ⟨w, hw, hpq.trans hpre, ?_⟩
  rintro rfl
  exact hne (hpre.eq_of_length_le hpq.length_le)

theorem shortest_of_begun {p : List α} {b : α} (hp : Begun words spell p)
    (hnone : ∀ w ∈ words, ¬ p ++ [b] <+: spell w) : Shortest words spell (p ++ [b]) := by
  refine ⟨hnone, fun q hq hne => hp.of_prefix ?_⟩
  rcases prefix_concat_iff.mp hq with heq | hpre
  · exact absurd heq hne
  · exact hpre

/-- What `cut` does with a datum: a word ends, a word goes on, or there is none. -/
theorem cut_cases [DecidableEq α] (p : List α) (b : α) :
    (∃ w ∈ words, spell w = p ++ [b] ∧ ∀ rest, cut words spell p (b :: rest) =
        (.word w :: (cut words spell [] rest).1, (cut words spell [] rest).2)) ∨
      (Begun words spell (p ++ [b]) ∧
        ∀ rest, cut words spell p (b :: rest) = cut words spell (p ++ [b]) rest) ∨
      ((∀ w ∈ words, ¬ p ++ [b] <+: spell w) ∧ ∀ rest, cut words spell p (b :: rest) =
        (.text (p ++ [b]) :: (cut words spell [] rest).1, (cut words spell [] rest).2)) := by
  cases hfind : words.find? fun w => spell w = p ++ [b] with
  | some w =>
    have hspell : spell w = p ++ [b] :=
      of_decide_eq_true (List.find?_some (p := fun w => spell w = p ++ [b]) hfind)
    refine Or.inl ⟨w, mem_of_find?_eq_some hfind, hspell, fun rest => ?_⟩
    rw [cut, hfind]
  | none =>
    have hnone : ∀ w ∈ words, spell w ≠ p ++ [b] := fun w hw heq =>
      absurd (decide_eq_true heq) (List.find?_eq_none.mp hfind w hw)
    cases hany : words.any fun w => (p ++ [b]).isPrefixOf (spell w) with
    | true =>
      obtain ⟨w, hw, hpre⟩ := any_eq_true.mp hany
      refine Or.inr (Or.inl ⟨⟨w, hw, isPrefixOf_iff_prefix.mp hpre, (hnone w hw).symm⟩,
        fun rest => ?_⟩)
      rw [cut, hfind]
      simp only [hany, if_true]
    | false =>
      refine Or.inr (Or.inr ⟨fun w hw hpre => ?_, fun rest => ?_⟩)
      · have hfalse := any_eq_false.mp hany w hw
        exact hfalse ( isPrefixOf_iff_prefix.mpr hpre)
      · rw [cut, hfind]
        simp only [hany, Bool.false_eq_true, if_false]

namespace Code

variable (hcode : Code words spell) {p q : List α} {w : ω}
include hcode

theorem begun_nil : Begun words spell [] := by
  cases hwords : words with
  | nil => exact absurd hwords hcode.inhabited
  | cons w rest =>
    have hw : w ∈ words := by
      rw [hwords]
      exact mem_cons_self
    exact ⟨w, mem_cons_self, nil_prefix, fun h => hcode.nonempty w hw h.symm⟩

theorem not_begun (hw : w ∈ words) (h : spell w <+: p) : ¬ Begun words spell p := by
  rintro ⟨w', hw', hpre, hne⟩
  obtain rfl := hcode.free w hw w' hw' (h.trans hpre)
  exact hne (hpre.eq_of_length_le h.length_le)

theorem not_shortest (hw : w ∈ words) {s : List α} (h : spell w <+: s) : ¬ Shortest words spell s := by
  intro hs
  by_cases heq : spell w = s
  · exact hs.none w hw (heq ▸ prefix_rfl)
  · exact hcode.not_begun hw prefix_rfl (hs.begun _ h heq)

theorem not_begun_spelled {x : Segment ω α} (hx : Fine words spell x) (h : x.spelled spell <+: p) :
    ¬ Begun words spell p := by
  cases x with
  | word w => exact hcode.not_begun hx h
  | text s =>
    rintro ⟨w, hw, hpre, -⟩
    exact hx.none w hw (h.trans hpre)

theorem spelled_inj {x y : Segment ω α} (hx : Fine words spell x) (hy : Fine words spell y)
    (h : x.spelled spell <+: y.spelled spell) : x = y := by
  cases x with
  | word w =>
    cases y with
    | word w' => rw [hcode.free w hx w' hy h]
    | text s => exact absurd hy (hcode.not_shortest hx h)
  | text s =>
    cases y with
    | word w' => exact absurd h (hx.none w' hy)
    | text t =>
      by_cases heq : s = t
      · rw [heq]
      · obtain ⟨w, hw, hpre, -⟩ := hy.begun s h heq
        exact absurd hpre (hx.none w hw)

/-- There is one way to cut a stream. -/
theorem exact_unique {segments segments' : List (Segment ω α)} {left left' stream : List α}
    (h : Exact words spell segments left stream) (h' : Exact words spell segments' left' stream) :
    segments = segments' ∧ left = left' := by
  induction segments generalizing segments' stream with
  | nil =>
    cases segments' with
    | nil => exact ⟨rfl, h.joined.trans h'.joined.symm⟩
    | cons y ys =>
      refine absurd h.begun (hcode.not_begun_spelled (h'.fine y mem_cons_self) ?_)
      have hjoined := h'.joined.trans h.joined.symm
      rw [flatMap_cons, append_assoc] at hjoined
      exact ⟨_, hjoined⟩
  | cons x xs ih =>
    cases segments' with
    | nil =>
      refine absurd h'.begun (hcode.not_begun_spelled (h.fine x mem_cons_self) ?_)
      have hjoined := h.joined.trans h'.joined.symm
      rw [flatMap_cons, append_assoc] at hjoined
      exact ⟨_, hjoined⟩
    | cons y ys =>
      have hjoined := h.joined
      have hjoined' := h'.joined
      rw [flatMap_cons, append_assoc] at hjoined hjoined'
      have hx := h.fine x mem_cons_self
      have hy := h'.fine y mem_cons_self
      have hxy : x = y := by
        rcases prefix_or_prefix_of_prefix ⟨_, hjoined⟩ ⟨_, hjoined'⟩ with hpre | hpre
        · exact hcode.spelled_inj hx hy hpre
        · exact (hcode.spelled_inj hy hx hpre).symm
      subst hxy
      obtain ⟨rfl, hleft⟩ := @ih ys _
        ⟨rfl, fun z hz => h.fine z (mem_cons_of_mem _ hz), h.begun⟩
        ⟨append_cancel_left (hjoined'.trans hjoined.symm),
          fun z hz => h'.fine z (mem_cons_of_mem _ hz), h'.begun⟩
      exact ⟨rfl, hleft⟩

theorem cut_exact [DecidableEq α] (hp : Begun words spell p) (stream : List α) :
    Exact words spell (cut words spell p stream).1 (cut words spell p stream).2 (p ++ stream) := by
  induction stream generalizing p with
  | nil =>
    refine ⟨?_, nofun, hp⟩
    rw [append_nil]
    rfl
  | cons b rest ih =>
    have hassoc : p ++ b :: rest = (p ++ [b]) ++ rest := by rw [append_assoc, singleton_append]
    have hseg : ∀ x, Segment.spelled spell x = p ++ [b] → Fine words spell x →
        Exact words spell (x :: (cut words spell [] rest).1) (cut words spell [] rest).2
          (p ++ b :: rest) := by
      intro x hx hfine
      have hrest := ih hcode.begun_nil
      refine ⟨?_, ?_, hrest.begun⟩
      · rw [flatMap_cons, append_assoc, hrest.joined, hx, hassoc, nil_append]
      · intro y hy
        rcases mem_cons.mp hy with rfl | hmem
        · exact hfine
        · exact hrest.fine y hmem
    rcases cut_cases p b with ⟨w, hw, hspell, hcut⟩ | ⟨hq, hcut⟩ | ⟨hnone, hcut⟩
    · rw [hcut]
      exact hseg (.word w) hspell hw
    · rw [hcut, hassoc]
      exact ih hq
    · rw [hcut]
      exact hseg (.text (p ++ [b])) rfl (shortest_of_begun hp hnone)

end Code

end Mihini.Lib.Cut
