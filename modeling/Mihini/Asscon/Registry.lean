import Mihini.Lib.LuaTable
import Mihini.Lib.Run
import Mihini.Treemgr.Path

/-!
# The registry of assets

The table `assets` of `src/agent/agent/asscon/init.lua`, which has both the connection of a name and
the names of a connection.  A connection is the number of its parser.
-/

namespace Mihini.Asscon

open Mihini.Lib AList
open Mihini.Path (Str)

structure Registry where
  ids : LuaTable Str Nat
  /-- `assets[instance]` -/
  names : LuaTable Nat (List Str)
  connections : Nat

def Registry.init : Registry := ⟨∅, ∅, 0⟩

def badParameter : Int := -12

def unregisterConnection (r : Registry) (id : Nat) : Registry :=
  match r.names.lookup id with
  | none => r
  | some names =>
    { r with
      ids := names.foldl (fun ids name => ids.erase name) r.ids
      names := r.names.erase id }

/-- `unregisterasset`, for a name: what it takes for the names are the fields of the parser, and no
one of them is a key of the table. -/
def unregisterName (r : Registry) (name : Str) : Registry :=
  { r with ids := r.ids.erase name }

def Available (r : Registry) (name : Str) : Prop :=
  '.' ∉ name ∧ name ≠ [] ∧ r.ids.lookup name = none

instance (r : Registry) (name : Str) : Decidable (Available r name) :=
  inferInstanceAs (Decidable (_ ∧ _))

/-- `EMPRegisterAsset`, and its status.  The insertion into the names of a connection that is closed
raises an error, when the name is bound already. -/
def register (r : Registry) (assetid : Nat) (name : Str) : Registry × Int :=
  if Available r name then
    let ids := r.ids.insert name assetid
    match r.names.lookup assetid with
    | none => ({ r with ids := ids }, badParameter)
    | some names =>
      ({ r with ids := ids, names := r.names.insert assetid (names ++ [name]) }, 0)
  else (r, badParameter)

def unregister (r : Registry) (name : Str) : Registry × Int :=
  if r.ids.lookup name = none then (r, badParameter) else (unregisterName r name, 0)

inductive Event where
  | connect
  | register (id : Nat) (name : Str)
  | unregister (id : Nat) (name : Str)
  | disconnect (id : Nat)

def step (r : Registry) : Event → Registry
  | .connect => { r with names := r.names.insert r.connections [], connections := r.connections + 1 }
  | .register id name => (register r id name).1
  | .unregister _ name => (unregister r name).1
  | .disconnect id => unregisterConnection r id

def Enabled (r : Registry) : Event → Prop
  | .connect => True
  | .register id _ | .unregister id _ => id < r.connections
  | .disconnect id => r.names.lookup id ≠ none

def Event.by : Event → Option Nat
  | .unregister id _ | .disconnect id => some id
  | _ => none

/-! ## Consistency -/

structure Consistent (r : Registry) : Prop where
  bound : ∀ name id, r.ids.lookup name = some id ↔ ∃ names, r.names.lookup id = some names ∧
    name ∈ names
  known : ∀ id, r.names.lookup id ≠ none → id < r.connections

def Sound (r : Registry) : Event → Prop
  | .register id name => Available r name → r.names.lookup id ≠ none
  | .unregister _ name => r.ids.lookup name = none
  | _ => True

theorem consistent_init : Consistent .init where
  bound name id := by simp [Registry.init]
  known id := by simp [Registry.init]

theorem lookup_unregistered (names : List Str) (ids : LuaTable Str Nat) (name : Str) :
    (names.foldl (fun ids name => ids.erase name) ids).lookup name =
      if name ∈ names then none else ids.lookup name := by
  induction names generalizing ids with
  | nil => rfl
  | cons n names ih =>
    rw [List.foldl_cons, ih]
    by_cases hmem : name ∈ names
    · rw [if_pos hmem, if_pos (List.mem_cons_of_mem n hmem)]
    rw [if_neg hmem]
    by_cases heq : name = n
    · rw [heq, lookup_erase, if_pos List.mem_cons_self]
    rw [lookup_erase_ne heq, if_neg]
    intro hcons
    rcases List.mem_cons.mp hcons with h | h
    · exact heq h
    · exact hmem h

namespace Consistent

variable {r : Registry}

theorem connect (h : Consistent r) : Consistent (step r .connect) where
  bound name id := by
    show r.ids.lookup name = some id ↔ ∃ names, (r.names.insert r.connections []).lookup id =
      some names ∧ name ∈ names
    rw [h.bound]
    by_cases heq : id = r.connections
    · subst heq
      rw [lookup_insert]
      constructor
      · rintro ⟨names, hnames, -⟩
        have hlt := h.known r.connections (by rw [hnames]; exact Option.some_ne_none names)
        exact absurd hlt (Nat.lt_irrefl _)
      · rintro ⟨names, hnames, hmem⟩
        rw [← Option.some.inj hnames] at hmem
        exact absurd hmem List.not_mem_nil
    · rw [lookup_insert_ne heq]
  known id hid := by
    show id < r.connections + 1
    by_cases heq : id = r.connections
    · rw [heq]
      exact Nat.lt_succ_self _
    · refine Nat.lt_succ_of_lt (h.known id ?_)
      intro hnone
      exact hid ((lookup_insert_ne heq).trans hnone)

theorem register (h : Consistent r) {id : Nat} {name : Str}
    (hsound : Sound r (.register id name)) : Consistent (step r (.register id name)) := by
  show Consistent (Asscon.register r id name).1
  rw [Asscon.register]
  by_cases havailable : Available r name
  · rw [if_pos havailable]
    have hopen := hsound havailable
    obtain ⟨names, hnames⟩ := Option.ne_none_iff_exists'.mp hopen
    dsimp only
    rw [hnames]
    refine ⟨?_, ?_⟩
    · intro n c
      show (r.ids.insert name id).lookup n = some c ↔ ∃ names', (r.names.insert id
        (names ++ [name])).lookup c = some names' ∧ n ∈ names'
      by_cases hc : c = id
      · subst hc
        rw [lookup_insert]
        by_cases hn : n = name
        · subst hn
          rw [lookup_insert]
          simp
        · rw [lookup_insert_ne hn, h.bound, hnames]
          simp [hn]
      · rw [lookup_insert_ne hc, ← h.bound]
        by_cases hn : n = name
        · subst hn
          rw [lookup_insert, havailable.2.2]
          simp [Ne.symm hc]
        · rw [lookup_insert_ne hn]
    · intro c hlisted
      apply h.known c
      by_cases hc : c = id
      · rw [hc]
        exact hopen
      · rw [← lookup_insert_ne hc]
        exact hlisted
  · rw [if_neg havailable]
    exact h

theorem disconnect (h : Consistent r) (id : Nat) : Consistent (unregisterConnection r id) := by
  rw [unregisterConnection]
  split
  · exact h
  · next names hnames =>
    refine ⟨?_, ?_⟩
    · intro n c
      show (names.foldl _ r.ids).lookup n = some c ↔
        ∃ names', (r.names.erase id).lookup c = some names' ∧ n ∈ names'
      rw [lookup_unregistered]
      by_cases hc : c = id
      · subst hc
        rw [lookup_erase]
        split
        · simp
        · next hn =>
          rw [h.bound, hnames]
          simp [hn]
      · rw [lookup_erase_ne hc, ← h.bound]
        split
        · next hn =>
          have hid := (h.bound n id).mpr ⟨names, hnames, hn⟩
          rw [hid]
          simp [Ne.symm hc]
        · rfl
    · intro c hlisted
      apply h.known c
      intro hnone
      apply hlisted
      show (r.names.erase id).lookup c = none
      by_cases hc : c = id
      · rw [hc, lookup_erase]
      · rw [lookup_erase_ne hc]
        exact hnone

theorem step (h : Consistent r) {e : Event} (hsound : Sound r e) : Consistent (step r e) := by
  cases e with
  | connect => exact h.connect
  | register id name => exact h.register hsound
  | unregister id name =>
    have hsame : Asscon.step r (.unregister id name) = r := by
      show (Asscon.unregister r name).1 = r
      rw [Asscon.unregister, if_pos (show r.ids.lookup name = none from hsound)]
    rw [hsame]
    exact h
  | disconnect id => exact h.disconnect id

/-- What is bound to another connection stays so. -/
theorem others (h : Consistent r) {e : Event} (hsound : Sound r e) {name : Str} {id : Nat}
    (hbound : r.ids.lookup name = some id) (hby : e.by ≠ some id) :
    (Asscon.step r e).ids.lookup name = some id := by
  cases e with
  | connect => exact hbound
  | register c n =>
    show (Asscon.register r c n).1.ids.lookup name = some id
    rw [Asscon.register]
    split
    · next havailable =>
      have hne : name ≠ n := by
        intro heq
        rw [heq, havailable.2.2] at hbound
        cases hbound
      dsimp only
      split
      · exact (lookup_insert_ne hne).trans hbound
      · exact (lookup_insert_ne hne).trans hbound
    · exact hbound
  | unregister c n =>
    show (Asscon.unregister r n).1.ids.lookup name = some id
    rw [Asscon.unregister, if_pos (show r.ids.lookup n = none from hsound)]
    exact hbound
  | disconnect c =>
    show (unregisterConnection r c).ids.lookup name = some id
    rw [unregisterConnection]
    split
    · exact hbound
    · next names hnames =>
      show (names.foldl _ r.ids).lookup name = some id
      rw [lookup_unregistered, if_neg]
      · exact hbound
      · intro hmem
        have hc := (h.bound name c).mpr ⟨names, hnames, hmem⟩
        rw [hbound] at hc
        exact hby hc.symm

end Consistent

/-- In every run without the events that break it, the table is a two-way map, and no event takes a
name away from another connection. -/
theorem registry_consistent {r : Registry}
    (h : Runs step (fun r e => Enabled r e ∧ Sound r e) .init r) :
    (∀ name id, r.ids.lookup name = some id ↔ ∃ names, r.names.lookup id = some names ∧
      name ∈ names) ∧
    ∀ e, Enabled r e → Sound r e → ∀ name id, r.ids.lookup name = some id → e.by ≠ some id →
      (step r e).ids.lookup name = some id := by
  have hconsistent : Consistent r :=
    h.invariant (fun r e hboth hr => hr.step hboth.2) consistent_init
  exact ⟨hconsistent.bound, fun e _ hsound name id => hconsistent.others hsound⟩

/-- Two connections, one of them with a name. -/
theorem registry_consistent_two :
    let r := [Event.connect, .connect, .register 0 "a".toList].foldl step .init
    (∀ name id, r.ids.lookup name = some id ↔ ∃ names, r.names.lookup id = some names ∧
      name ∈ names) ∧
    ∀ e, Enabled r e → Sound r e → ∀ name id, r.ids.lookup name = some id → e.by ≠ some id →
      (step r e).ids.lookup name = some id := by
  apply registry_consistent
  apply Along.runs
  exact ⟨⟨trivial, trivial⟩, ⟨trivial, trivial⟩, ⟨by show 0 < 2; decide, fun _ => by decide⟩, trivial⟩

/-- A name is unregistered and taken by another connection; when the first one is closed, the name
is gone. -/
theorem disconnect_removes_other :
    ¬ ∀ r, Runs step Enabled .init r →
      (∀ name id, r.ids.lookup name = some id ↔ ∃ names, r.names.lookup id = some names ∧
        name ∈ names) ∧
      ∀ e, Enabled r e → ∀ name id, r.ids.lookup name = some id → e.by ≠ some id →
        (step r e).ids.lookup name = some id := by
  intro hall
  let es : List Event := [.connect, .connect, .register 0 "a".toList, .unregister 0 "a".toList,
    .register 1 "a".toList]
  have hruns : Runs step Enabled .init (es.foldl step .init) :=
    Along.runs ⟨trivial, trivial, by show 0 < 2; decide, by show 0 < 2; decide,
      by show 1 < 2; decide, trivial⟩
  have hkept := (hall _ hruns).2 (.disconnect 0) (by show lookup _ _ ≠ none; decide)
    "a".toList 1 (by decide) (by decide)
  exact absurd hkept (by decide)

end Mihini.Asscon
