import Mathlib.Data.List.GetD
import Mihini.Lib.LuaTable

/-!
# Iteration over several tables

`multipairs` of `src/luafwk/utils/table.lua`. Its iterator returns the key that it found one call
before; the first one is looked for in the first table only.
-/

namespace Mihini.Utils

open Mihini.Lib List

variable {κ ν : Type} [DecidableEq κ]

/-- `next(t, k)`, in the order of the entries. -/
def next (t : LuaTable κ ν) : Option κ → Option κ
  | none => t.keys.head?
  | some k => (t.keys.dropWhile (· ≠ k)).tail.head?

/-- `i` is `none` for `false`. -/
structure State (κ ν : Type) where
  tables : List (LuaTable κ ν)
  i : Option Nat
  k : Option κ

/-- The call fails without a first table: `next(nil)` is an error. -/
def multipairs : List (LuaTable κ ν) → Option (State κ ν)
  | [] => none
  | t1 :: more => some ⟨t1 :: more, some 1, next t1 none⟩

/-- The loop over the tables after the one at `i`. -/
def skip : List (LuaTable κ ν) → (i : Nat) → Option Nat × Option κ
  | [], _ => (none, none)
  | t :: more, i =>
    match next t none with
    | none => skip more (i + 1)
    | some k => (some (i + 1), some k)

def State.call (s : State κ ν) : (Option κ × Option ν) × State κ ν :=
  match s.i with
  | none => ((none, none), s)
  | some i =>
    let current := s.tables.getD (i - 1) ∅
    let (i', k') := match next current s.k with
      | some k => (some i, some k)
      | none => skip (s.tables.drop i) i
    ((s.k, s.k.bind current.lookup), { s with i := i', k := k' })

/-- A `for` loop, which ends with the first key `nil`; after `n` calls it is given up. -/
def forLoop : (n : Nat) → State κ ν → Option (List (κ × Option ν))
  | 0, _ => none
  | n + 1, s =>
    match s.call with
    | ((none, _), _) => some []
    | ((some k, v), s') => (forLoop n s').map ((k, v) :: ·)

def contents (tables : List (LuaTable κ ν)) : List ((_ : κ) × ν) :=
  tables.flatMap AList.entries

def Complete (tables : List (LuaTable κ ν)) : Prop :=
  ∃ s n, multipairs tables = some s ∧
    forLoop n s = some ((contents tables).map fun e => (e.1, some e.2))

/-! ## The iterator -/

theorem next_none (t : LuaTable κ ν) : next t none = t.entries.head?.map Sigma.fst := by
  rw [next, AList.keys, keys, head?_map]

theorem next_some {t : LuaTable κ ν} {e : (_ : κ) × ν} {l r : List ((_ : κ) × ν)}
    (h : t.entries = l ++ e :: r) : next t (some e.1) = r.head?.map Sigma.fst := by
  have hnodup : (l.keys ++ e.1 :: r.keys).Nodup := by
    have hkeys := t.nodupKeys
    rwa [NodupKeys, h, keys, map_append] at hkeys
  have hl : ∀ k ∈ l.keys, (decide (k ≠ e.1)) = true := by
    intro k hk
    have hne := (nodup_append.mp hnodup).2.2 k hk e.1 mem_cons_self
    simpa using hne
  rw [next, AList.keys, h, keys, map_append]
  show ((l.keys ++ e.1 :: r.keys).dropWhile _).tail.head? = _
  rw [dropWhile_append_of_pos hl, dropWhile_cons_of_neg (by simp), tail_cons, keys, head?_map]

theorem lookup_of_entries {t : LuaTable κ ν} {e : (_ : κ) × ν} {l r : List ((_ : κ) × ν)}
    (h : t.entries = l ++ e :: r) : t.lookup e.1 = some e.2 :=
  AList.mem_lookup_iff.mpr (by rw [h]; exact mem_append_right _ mem_cons_self)

/-- What is left: the entry whose key is kept and those behind it, then the other tables. -/
inductive Left : State κ ν → List ((_ : κ) × ν) → Prop where
  | done (tables : List (LuaTable κ ν)) (k : Option κ) : Left ⟨tables, none, k⟩ []
  | at (before after : List (LuaTable κ ν)) (t : LuaTable κ ν) (e : (_ : κ) × ν)
    (l r : List ((_ : κ) × ν)) (h : t.entries = l ++ e :: r) :
    Left ⟨before ++ t :: after, some (before.length + 1), some e.1⟩ (e :: r ++ contents after)

theorem left_skip (before after : List (LuaTable κ ν)) :
    Left ⟨before ++ after, (skip after before.length).1, (skip after before.length).2⟩
      (contents after) := by
  induction after generalizing before with
  | nil => exact .done _ _
  | cons t after ih =>
    rw [skip, next_none]
    cases hentries : t.entries with
    | nil =>
      have hleft := ih (before ++ [t])
      rw [append_assoc, singleton_append, length_append, length_singleton] at hleft
      rw [contents, flatMap_cons, hentries]
      exact hleft
    | cons e r =>
      rw [contents, flatMap_cons, hentries]
      exact .at before after t e [] r hentries

theorem call_left {s : State κ ν} {e : (_ : κ) × ν} {rest : List ((_ : κ) × ν)}
    (h : Left s (e :: rest)) :
    ∃ s', s.call = ((some e.1, some e.2), s') ∧ Left s' rest := by
  generalize hes : e :: rest = es at h
  cases h with
  | done => cases hes
  | «at» before after t e' l r hentries =>
    rw [cons_append] at hes
    obtain ⟨rfl, rfl⟩ := cons.inj hes
    have hcurrent : (before ++ t :: after).getD (before.length + 1 - 1) ∅ = t := by
      rw [Nat.add_sub_cancel, getD_append_right _ _ _ _ (Nat.le_refl _), Nat.sub_self, getD_cons_zero]
    have hafter : (before ++ t :: after).drop (before.length + 1) = after := by
      rw [drop_append, Nat.add_sub_cancel_left, drop_eq_nil_of_le (Nat.le_succ _)]
      rfl
    simp only [State.call, hcurrent, hafter, next_some hentries, Option.bind_some,
      lookup_of_entries hentries]
    refine ⟨_, rfl, ?_⟩
    cases r with
    | nil =>
      have hleft := left_skip (before ++ [t]) after
      rw [append_assoc, singleton_append, length_append, length_singleton] at hleft
      exact hleft
    | cons e' r =>
      exact .at before after t e' (l ++ [e]) r (by rw [hentries, append_assoc, singleton_append])

theorem forLoop_left {s : State κ ν} {rest : List ((_ : κ) × ν)} (h : Left s rest) :
    forLoop (rest.length + 1) s = some (rest.map fun e => (e.1, some e.2)) := by
  induction rest generalizing s with
  | nil =>
    cases h
    rfl
  | cons e rest ih =>
    obtain ⟨s', hcall, hleft⟩ := call_left h
    rw [forLoop, hcall]
    show (forLoop (rest.length + 1) s').map _ = _
    rw [ih hleft]
    rfl

/-- The iteration is complete if there is a first table, and it is not empty unless all are. -/
theorem multipairs_complete_iff (tables : List (LuaTable κ ν)) :
    Complete tables ↔ ∃ t1 more, tables = t1 :: more ∧ (t1.entries = [] → contents more = []) := by
  cases tables with
  | nil =>
    constructor
    · rintro ⟨s, n, hs, -⟩
      cases hs
    · rintro ⟨t1, more, h, -⟩
      cases h
  | cons t1 more =>
    cases hentries : t1.entries with
    | nil =>
      have hcontents : contents (t1 :: more) = contents more := by
        rw [contents, flatMap_cons, hentries, nil_append, contents]
      have hloop (n : Nat) : forLoop (n + 1) ⟨t1 :: more, some 1, next t1 none⟩ = some [] := by
        rw [next_none, hentries]
        rfl
      constructor
      · rintro ⟨s, n, hs, h⟩
        cases hs
        refine ⟨t1, more, rfl, fun _ => ?_⟩
        cases n with
        | zero => cases h
        | succ n =>
          rw [hloop, hcontents] at h
          exact map_eq_nil_iff.mp (Option.some.inj h).symm
      · rintro ⟨t, l, h, hempty⟩
        obtain ⟨rfl, rfl⟩ := cons.inj h
        refine ⟨_, 1, rfl, ?_⟩
        rw [hloop, hcontents, hempty hentries]
        rfl
    | cons e r =>
      constructor
      · intro _
        exact ⟨t1, more, rfl, fun h => by rw [hentries] at h; cases h⟩
      · intro _
        refine ⟨_, _, rfl, forLoop_left ?_⟩
        rw [next_none, hentries, contents, flatMap_cons, hentries]
        exact .at [] more t1 e [] r hentries

/-- An empty table before one with an entry: nothing is iterated. -/
theorem empty_first_hides : ¬ ∀ tables : List (LuaTable Bool Nat), Complete tables := by
  intro h
  obtain ⟨s, n, hs, hloop⟩ := h [∅, AList.singleton true 1]
  cases hs
  cases n with
  | zero => cases hloop
  | succ n => cases hloop

end Mihini.Utils
