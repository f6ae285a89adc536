import Mathlib.Data.List.AList

/-!
# Lua tables

Finite maps whose entries can be traversed and whose emptiness can be tested.
-/

namespace Mihini.Lib

open List

abbrev LuaTable (α β : Type) := AList fun _ : α => β

namespace LuaTable

variable {α β : Type}

def isEmpty (t : LuaTable α β) : Bool := t.entries.isEmpty

def filter (t : LuaTable α β) (p : α → β → Bool) : LuaTable α β :=
  ⟨t.entries.filter fun e => p e.1 e.2, t.nodupKeys.sublist filter_sublist⟩

variable [DecidableEq α]

variable {t : LuaTable α β}

theorem lookup_of_isEmpty (h : t.isEmpty = true) (a : α) :
    t.lookup a = none := by
  rw [Option.eq_none_iff_forall_not_mem]
  intro b hb
  rw [AList.mem_lookup_iff, isEmpty_iff.mp h] at hb
  cases hb

theorem lookup_filter (t : LuaTable α β) (p : α → β → Bool) (a : α) :
    (t.filter p).lookup a = (t.lookup a).filter (p a) := by
  apply Option.ext
  intro b
  rw [← Option.mem_def, AList.mem_lookup_iff, Option.filter_eq_some_iff, ← Option.mem_def,
    AList.mem_lookup_iff]
  exact mem_filter

variable {a : α}

theorem mem_entries_iff {b : β} :
    (⟨a, b⟩ : Sigma fun _ : α => β) ∈ t.entries ↔ t.lookup a = some b :=
  AList.mem_lookup_iff.symm

theorem lookup_insert_of_lookup {b : β} (h : t.lookup a = some b) (k : α) :
    (t.insert a b).lookup k = t.lookup k := by
  by_cases hk : k = a
  · rw [hk, AList.lookup_insert, h]
  · exact AList.lookup_insert_ne hk

def assign (t : LuaTable α β) (l : List (α × β)) : LuaTable α β :=
  l.foldl (fun t x => t.insert x.1 x.2) t

theorem mem_of_lookup_assign {l : List (α × β)} {b : β}
    (h : (t.assign l).lookup a = some b) : (a, b) ∈ l ∨ t.lookup a = some b := by
  induction l generalizing t with
  | nil => exact .inr h
  | cons x l ih =>
    rcases ih h with hmem | hlookup
    · exact .inl (mem_cons_of_mem x hmem)
    · by_cases heq : a = x.1
      · rw [heq, AList.lookup_insert] at hlookup
        rw [heq, ← Option.some.inj hlookup]
        exact .inl mem_cons_self
      · rw [AList.lookup_insert_ne heq] at hlookup
        exact .inr hlookup

theorem isSome_lookup_assign {l : List (α × β)}
    (h : a ∈ l.map Prod.fst ∨ (t.lookup a).isSome) : ((t.assign l).lookup a).isSome := by
  induction l generalizing t with
  | nil => exact h.resolve_left not_mem_nil
  | cons x l ih =>
    apply ih
    rcases h with hmem | hsome
    · rcases mem_cons.mp hmem with heq | hmem
      · rw [heq, AList.lookup_insert]
        exact .inr rfl
      · exact .inl hmem
    · by_cases heq : a = x.1
      · rw [heq, AList.lookup_insert]
        exact .inr rfl
      · rw [AList.lookup_insert_ne heq]
        exact .inr hsome

instance [DecidableEq β] : DecidableEq (LuaTable α β) := fun t t' =>
  decidable_of_iff (t.entries = t'.entries) AList.ext_iff.symm

/-! ## Arrays -/

/-- The values `#t` may have. -/
def IsBorder (t : LuaTable Nat β) (n : Nat) : Prop :=
  (n = 0 ∨ (t.lookup n).isSome) ∧ t.lookup (n + 1) = none

def border (t : LuaTable Nat β) : Nat :=
  ((List.range (t.keys.length + 1)).find? fun n => (t.lookup (n + 1)).isNone).getD 0

theorem isBorder_border (t : LuaTable Nat β) : t.IsBorder t.border := by
  unfold border
  cases hfind : (List.range (t.keys.length + 1)).find? fun n => (t.lookup (n + 1)).isNone with
  | none =>
    -- more keys than there are
    exfalso
    have hall : ∀ n ∈ List.range (t.keys.length + 1), n + 1 ∈ t.keys := by
      intro n hn
      have hsome := List.find?_eq_none.mp hfind n hn
      rw [Option.isNone_iff_eq_none, AList.lookup_eq_none, not_not] at hsome
      exact hsome
    have hnodup : ((List.range (t.keys.length + 1)).map (· + 1)).Nodup :=
      nodup_range.map fun a b h => Nat.succ.inj h
    have hle := (subperm_of_subset hnodup fun k hk => by
      obtain ⟨n, hn, rfl⟩ := mem_map.mp hk
      exact hall n hn).length_le
    rw [length_map, length_range] at hle
    omega
  | some n =>
    have hnone : (t.lookup (n + 1)).isNone = true :=
      List.find?_some (p := fun n => (t.lookup (n + 1)).isNone) hfind
    refine ⟨?_, Option.isNone_iff_eq_none.mp hnone⟩
    by_cases hn : n = 0
    · exact .inl hn
    right
    by_contra habsent
    obtain ⟨m, rfl⟩ := Nat.exists_eq_succ_of_ne_zero hn
    obtain ⟨i, hi, hget, hbefore⟩ := List.find?_eq_some_iff_getElem.mp hfind |>.2
    rw [getElem_range] at hget
    have := hbefore m (by omega)
    rw [getElem_range] at this
    exact habsent (by simpa using this)

theorem IsBorder.eq_of_filled {t : LuaTable Nat β} {n m : Nat} (h : t.IsBorder m)
    (hn : ∀ i, (t.lookup i).isSome ↔ 1 ≤ i ∧ i ≤ n) : m = n := by
  have hle : m ≤ n := by
    rcases h.1 with rfl | hsome
    · exact Nat.zero_le n
    · exact ((hn m).mp hsome).2
  have hlt : ¬ m + 1 ≤ n := by
    intro hlt
    have hsome := (hn (m + 1)).mpr ⟨by omega, hlt⟩
    rw [h.2] at hsome
    nomatch hsome
  omega

end LuaTable

end Mihini.Lib
