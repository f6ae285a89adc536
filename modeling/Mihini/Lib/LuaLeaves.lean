import Mihini.Lib.LuaPaths

/-!
# Values at the leaves of a tree

The values of a tree as a function of their paths, what is at each path of a tree that has them, and
how they change when values are put at some paths and others are cleared.
-/

namespace Mihini.Lib

open List

variable {κ α : Type}

def PrefixFree (F : List κ → Option α) : Prop :=
  ∀ p q, F p ≠ none → F q ≠ none → p <+: q → p = q

structure Shape (F : List κ → Option α) (node : List κ → Option (Option α)) : Prop where
  value : ∀ p v, node p = some (some v) ↔ F p = some v
  table : ∀ p, node p = some none ↔ F p = none ∧ (p = [] ∨ ∃ q, p <+: q ∧ F q ≠ none)

theorem Shape.unique {F : List κ → Option α} {node node' : List κ → Option (Option α)}
    (h : Shape F node) (h' : Shape F node') (p : List κ) : node p = node' p := by
  cases hp : node p with
  | none =>
    cases hp' : node' p with
    | none => rfl
    | some kind =>
      cases kind with
      | none =>
        rw [(h.table p).mpr ((h'.table p).mp hp')] at hp
        nomatch hp
      | some v =>
        rw [(h.value p v).mpr ((h'.value p v).mp hp')] at hp
        nomatch hp
  | some kind =>
    cases kind with
    | none => exact ((h'.table p).mpr ((h.table p).mp hp)).symm
    | some v => exact ((h'.value p v).mpr ((h.value p v).mp hp)).symm

variable [DecidableEq κ]

def overlay (L : List (List κ × Option α)) (F : List κ → Option α) (q : List κ) : Option α :=
  match L.find? fun x => x.1 = q && x.2.isSome with
  | some x => x.2
  | none =>
    if L.any fun x => decide (x.1 <+: q) || (x.2.isSome && decide (q <+: x.1)) then none else F q

structure Coherent (L : List (List κ × Option α)) : Prop where
  apart : ∀ x ∈ L, ∀ y ∈ L, x.2 ≠ none → y.2 ≠ none → x.1 <+: y.1 → x.1 = y.1
  single : ∀ x ∈ L, ∀ y ∈ L, x.1 = y.1 → x.2 = y.2

variable {L : List (List κ × Option α)} {F : List κ → Option α} {p q : List κ} {v : α}

theorem overlay_cases (L : List (List κ × Option α)) (F : List κ → Option α) (q : List κ) :
    (∃ v, (q, some v) ∈ L ∧ overlay L F q = some v) ∨
    (∀ v, (q, some v) ∉ L) ∧
      ((∃ x ∈ L, (x.1 <+: q ∨ x.2 ≠ none ∧ q <+: x.1)) ∧ overlay L F q = none ∨
        (∀ x ∈ L, ¬ x.1 <+: q ∧ (x.2 ≠ none → ¬ q <+: x.1)) ∧ overlay L F q = F q) := by
  unfold overlay
  cases hfind : L.find? fun x => x.1 = q && x.2.isSome with
  | some x =>
    have hx := List.find?_some hfind
    simp only [Bool.and_eq_true, decide_eq_true_eq] at hx
    obtain ⟨v, hv⟩ := Option.isSome_iff_exists.mp hx.2
    refine .inl ⟨v, ?_, hv⟩
    have hmem := mem_of_find?_eq_some hfind
    rw [← hx.1, ← hv]
    exact hmem
  | none =>
    refine .inr ⟨?_, ?_⟩
    · intro v hmem
      have := List.find?_eq_none.mp hfind _ hmem
      simp at this
    · by_cases hany : L.any fun x => decide (x.1 <+: q) || (x.2.isSome && decide (q <+: x.1))
      · refine .inl ⟨?_, if_pos hany⟩
        obtain ⟨x, hx, hcond⟩ := any_eq_true.mp hany
        refine ⟨x, hx, ?_⟩
        simpa [Option.isSome_iff_ne_none] using hcond
      · refine .inr ⟨?_, if_neg hany⟩
        intro x hx
        rw [any_eq_true, not_exists] at hany
        have := hany x
        simp only [hx, true_and, Bool.or_eq_true, decide_eq_true_eq, Bool.and_eq_true, not_or,
          not_and, Option.isSome_iff_ne_none] at this
        exact this

theorem overlay_written (h : Coherent L) (hmem : (q, some v) ∈ L) : overlay L F q = some v := by
  rcases overlay_cases L F q with ⟨w, hw, hover⟩ | ⟨hnew, -⟩
  · rw [hover]
    exact h.single _ hw _ hmem rfl
  · exact absurd hmem (hnew v)

theorem overlay_dropped {x : List κ × Option α} (hx : x ∈ L) (hq : x.1 <+: q ∨ x.2 ≠ none ∧ q <+: x.1)
    (hnew : ∀ v, (q, some v) ∉ L) : overlay L F q = none := by
  rcases overlay_cases L F q with ⟨w, hw, -⟩ | ⟨-, ⟨-, hover⟩ | ⟨hapart, -⟩⟩
  · exact absurd hw (hnew w)
  · exact hover
  · rcases hq with hq | ⟨hne, hq⟩
    · exact absurd hq (hapart x hx).1
    · exact absurd hq ((hapart x hx).2 hne)

theorem overlay_kept (hapart : ∀ x ∈ L, ¬ x.1 <+: q ∧ (x.2 ≠ none → ¬ q <+: x.1)) :
    overlay L F q = F q := by
  rcases overlay_cases L F q with ⟨w, hw, -⟩ | ⟨-, ⟨⟨x, hx, hq⟩, -⟩ | ⟨-, hover⟩⟩
  · exact absurd (prefix_refl q) (hapart _ hw).1
  · rcases hq with hq | ⟨hne, hq⟩
    · exact absurd hq (hapart x hx).1
    · exact absurd hq ((hapart x hx).2 hne)
  · exact hover

theorem overlay_nil : overlay [] F = F := by
  funext q
  exact overlay_kept fun x hx => absurd hx not_mem_nil

theorem PrefixFree.overlay (h : PrefixFree F) (hL : Coherent L) :
    PrefixFree (overlay L F) := by
  intro p q hp hq hpq
  rcases overlay_cases L F p with ⟨v, hv, -⟩ | ⟨-, ⟨-, hover⟩ | ⟨hp', hover⟩⟩
  · rcases overlay_cases L F q with ⟨w, hw, -⟩ | ⟨-, ⟨-, hover'⟩ | ⟨hq', hover'⟩⟩
    · exact hL.apart _ hv _ hw nofun nofun hpq
    · exact absurd hover' hq
    · exact absurd hpq (hq' _ hv).1
  · exact absurd hover hp
  · rcases overlay_cases L F q with ⟨w, hw, -⟩ | ⟨-, ⟨-, hover'⟩ | ⟨hq', hover'⟩⟩
    · exact absurd hpq ((hp' _ hw).2 nofun)
    · exact absurd hover' hq
    · rw [hover] at hp
      rw [hover'] at hq
      exact h p q hp hq hpq

omit [DecidableEq κ] in
theorem Coherent.init {L : List (List κ × Option α)} {x : List κ × Option α}
    (h : Coherent (L ++ [x])) : Coherent L where
  apart y hy z hz := h.apart y (mem_append_left _ hy) z (mem_append_left _ hz)
  single y hy z hz := h.single y (mem_append_left _ hy) z (mem_append_left _ hz)

theorem Shape.prefixFree {f : LuaFields κ α} (h : Shape F f.node) : PrefixFree F := by
  intro p q hp hq hpq
  by_contra hne
  obtain ⟨a, ha⟩ := Option.ne_none_iff_exists'.mp hp
  obtain ⟨b, hb⟩ := Option.ne_none_iff_exists'.mp hq
  have hnone := LuaFields.node_below_leaf ((h.value p a).mpr ha) hpq hne
  rw [(h.value q b).mpr hb] at hnone
  nomatch hnone

theorem Shape.root {f : LuaFields κ α} (h : Shape F f.node) :
    F [] = none := by
  by_contra hne
  obtain ⟨a, ha⟩ := Option.ne_none_iff_exists'.mp hne
  nomatch (h.value [] a).mpr ha

end Mihini.Lib
