import Mathlib.Data.List.Nodup

/-!
# Lists whose elements have different keys
-/

namespace Mihini.Lib

open List

variable {α β : Type} {key : α → β} {l : List α}

theorem mem_set_of_nodup {i : Nat} {a b x : α} (hnodup : (l.map key).Nodup) (ha : l[i]? = some a)
    (h : x ∈ l.set i b) : x = b ∨ x ∈ l ∧ key x ≠ key a := by
  induction l generalizing i with
  | nil => cases h
  | cons c l ih =>
    obtain ⟨hc, hnodup⟩ := nodup_cons.mp hnodup
    cases i with
    | zero =>
      obtain rfl := Option.some.inj ha
      rcases mem_cons.mp h with rfl | h
      · exact .inl rfl
      · refine .inr ⟨mem_cons_of_mem _ h, fun heq => hc ?_⟩
        rw [← heq]
        exact mem_map_of_mem h
    | succ i =>
      rcases mem_cons.mp h with rfl | h
      · refine .inr ⟨mem_cons_self, fun heq => hc ?_⟩
        rw [heq]
        exact mem_map_of_mem (mem_of_getElem? ha)
      · exact (ih hnodup ha h).imp_right fun ⟨hmem, hne⟩ => ⟨mem_cons_of_mem _ hmem, hne⟩

theorem mem_set_of_ne {i : Nat} {a b x : α} (ha : l[i]? = some a) (h : x ∈ l) (hne : x ≠ a) :
    x ∈ l.set i b := by
  obtain ⟨j, hj⟩ := mem_iff_getElem?.mp h
  have hij : i ≠ j := by
    rintro rfl
    exact hne (Option.some.inj (hj.symm.trans ha))
  exact mem_of_getElem? ((List.getElem?_set_ne hij).trans hj)

theorem map_key_set {i : Nat} {a b : α} (ha : l[i]? = some a) (hb : key b = key a) :
    (l.set i b).map key = l.map key := by
  induction l generalizing i with
  | nil => rfl
  | cons c l ih =>
    cases i with
    | zero =>
      obtain rfl := Option.some.inj ha
      simp [hb]
    | succ i => simp [ih ha]

theorem mem_eraseP_key [DecidableEq β] (hnodup : (l.map key).Nodup) {k : β} {x : α} :
    x ∈ l.eraseP (fun x => key x = k) ↔ x ∈ l ∧ key x ≠ k := by
  induction l with
  | nil => simp
  | cons y l ih =>
    obtain ⟨hy, hnodup⟩ := nodup_cons.mp hnodup
    by_cases hk : key y = k
    · rw [eraseP_cons_of_pos (by simpa using hk), mem_cons]
      constructor
      · intro hx
        refine ⟨.inr hx, fun heq => hy ?_⟩
        rw [hk, ← heq]
        exact mem_map_of_mem hx
      · rintro ⟨rfl | hx, hne⟩
        · exact absurd hk hne
        · exact hx
    · rw [eraseP_cons_of_neg (by simpa using hk), mem_cons, mem_cons, ih hnodup]
      constructor
      · rintro (rfl | ⟨hx, hne⟩)
        · exact ⟨.inl rfl, hk⟩
        · exact ⟨.inr hx, hne⟩
      · rintro ⟨rfl | hx, hne⟩
        · exact .inl rfl
        · exact .inr ⟨hx, hne⟩

theorem filter_key [DecidableEq β] (hnodup : (l.map key).Nodup) {x : α} (hx : x ∈ l) :
    l.filter (fun y => key y = key x) = [x] := by
  induction l with
  | nil => cases hx
  | cons y l ih =>
    obtain ⟨hy, hnodup⟩ := nodup_cons.mp hnodup
    rcases mem_cons.mp hx with rfl | hx
    · rw [filter_cons_of_pos (by simp), filter_eq_nil_iff.mpr]
      intro z hz heq
      refine hy ?_
      rw [← of_decide_eq_true heq]
      exact mem_map_of_mem hz
    · have hne : key y ≠ key x := fun heq => hy (heq ▸ mem_map_of_mem hx)
      rw [filter_cons_of_neg (by simpa using hne)]
      exact ih hnodup hx

theorem find?_key [DecidableEq β] (hnodup : (l.map key).Nodup) {x : α} (hx : x ∈ l) :
    l.find? (fun y => key y = key x) = some x := by
  rw [← List.head?_filter, filter_key hnodup hx]
  rfl

end Mihini.Lib
