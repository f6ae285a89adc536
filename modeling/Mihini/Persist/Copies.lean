import Mihini.Persist.File

/-!
# A table and its copy

The content of a table and a copy of it have the same entries, up to the addresses of the tables
and functions they lead to.
-/

open Mihini.Lib Mihini.LuaToBin Function

namespace Mihini.Persist

variable {φ : Type}

section Values

variable {lo hi : Nat} {h h' h₂ : Heap φ} {v v' : Value}

theorem copy_eq (hiso : IsomorphicIn lo hi h h' v v') (hv : ∀ a, v ≠ .object a) : v' = v := by
  obtain ⟨ρ, -, -, himg, -⟩ := hiso
  cases v with
  | object a => exact absurd rfl (hv a)
  | _ => exact himg

theorem copy_object {a : Nat} (hiso : IsomorphicIn lo hi h h' (.object a) v') :
    ∃ a', v' = .object a' ∧ lo ≤ a' ∧ a' < hi := by
  obtain ⟨ρ, hrange, -, ⟨a', ha, rfl⟩, -⟩ := hiso
  obtain ⟨h1, h2⟩ := hrange a a' ha
  exact ⟨a', rfl, h1, h2⟩

theorem copy_nil_iff (hiso : IsomorphicIn lo hi h h' v v') : v' = .nil ↔ v = .nil := by
  by_cases hv : ∃ a, v = .object a
  · obtain ⟨a, rfl⟩ := hv
    obtain ⟨a', rfl, -⟩ := copy_object hiso
    simp
  · rw [copy_eq hiso fun a ha => hv ⟨a, ha⟩]

theorem copy_isKey (hiso : IsomorphicIn lo hi h h' v v') : v'.isKey = v.isKey := by
  obtain ⟨ρ, -, -, himg, -⟩ := hiso
  exact image_isKey himg

/-- Only the objects that a value leads to matter. -/
theorem copy_congr (hiso : IsomorphicIn lo hi h h' v v')
    (hagree : ∀ a, Reaches h v (.object a) → h₂ a = h a) : IsomorphicIn lo hi h₂ h' v v' := by
  classical
  obtain ⟨ρ, hrange, hinj, himg, hobj⟩ := hiso
  let σ : Nat → Option Nat := fun a => if Reaches h v (.object a) then ρ a else none
  have hσ : ∀ a a', σ a = some a' → Reaches h v (.object a) ∧ ρ a = some a' := by
    intro a a' ha
    simp only [σ] at ha
    split at ha
    · rename_i hreach
      exact ⟨hreach, ha⟩
    · cases ha
  have hkept : ∀ {w w'}, Reaches h v w → Image ρ w w' → Image σ w w' := by
    intro w w' hw himg'
    cases w with
    | object a =>
      obtain ⟨a', ha, rfl⟩ := himg'
      refine ⟨a', ?_, rfl⟩
      simp only [σ]
      rw [if_pos hw]
      exact ha
    | _ => exact himg'
  refine ⟨σ, ?_, ?_, hkept .refl himg, ?_⟩
  · intro a a' ha
    exact hrange a a' (hσ a a' ha).2
  · intro a b a' ha hb
    exact hinj a b a' (hσ a a' ha).2 (hσ b a' hb).2
  · intro a a' ha
    obtain ⟨hreach, hρ⟩ := hσ a a' ha
    have himg' := hobj a a' hρ
    rw [hagree a hreach]
    cases ho : h a with
    | function f =>
      rw [ho] at himg'
      cases ho' : h' a' with
      | function f' =>
        rw [ho'] at himg'
        exact himg'
      | table t' =>
        rw [ho'] at himg'
        exact himg'
    | table t =>
      rw [ho] at himg'
      cases ho' : h' a' with
      | function f' =>
        rw [ho'] at himg'
        exact himg'
      | table t' =>
        rw [ho'] at himg'
        have hchild : ∀ k x, ⟨k, x⟩ ∈ t.map.entries →
            Reaches h v k ∧ Reaches h v x := by
          intro k x hkx
          have hlook := LuaTable.mem_entries_iff.mp hkx
          exact ⟨hreach.tail ⟨a, t, rfl, ho, k, x, hlook, Or.inl rfl⟩,
            hreach.tail ⟨a, t, rfl, ho, k, x, hlook, Or.inr rfl⟩⟩
        constructor
        · intro k x hkx
          obtain ⟨hk, hx⟩ := hchild k x hkx
          obtain ⟨k', x', himgk, himgx, hlook⟩ := himg'.kept k x hkx
          exact ⟨k', x', hkept hk himgk, hkept hx himgx, hlook⟩
        · intro k' x' hlook
          obtain ⟨k, x, hkx, himgk, himgx⟩ := himg'.only k' x' hlook
          obtain ⟨hk, hx⟩ := hchild k x hkx
          exact ⟨k, x, hkx, hkept hk himgk, hkept hx himgx⟩

/-- A copy is isomorphic to itself. -/
theorem copy_refl (hiso : IsomorphicIn lo hi h h' v v') : IsomorphicIn lo hi h' h' v' v' := by
  classical
  obtain ⟨ρ, hrange, hinj, himg, hobj⟩ := hiso
  let σ : Nat → Option Nat := fun a' => if ∃ a, ρ a = some a' then some a' else none
  have hσ : ∀ b b', σ b = some b' → b' = b ∧ ∃ a, ρ a = some b := by
    intro b b' hb
    simp only [σ] at hb
    split at hb
    · rename_i hex
      cases hb
      exact ⟨rfl, hex⟩
    · cases hb
  have hself : ∀ {w w'}, Image ρ w w' → Image σ w' w' := by
    intro w w' himg'
    cases w with
    | object a =>
      obtain ⟨a', ha, rfl⟩ := himg'
      refine ⟨a', ?_, rfl⟩
      simp only [σ]
      rw [if_pos ⟨a, ha⟩]
    | _ =>
      rw [show w' = _ from himg']
      rfl
  refine ⟨σ, ?_, ?_, hself himg, ?_⟩
  · intro b b' hb
    obtain ⟨rfl, a, ha⟩ := hσ b b' hb
    exact hrange a _ ha
  · intro b₁ b₂ b' h1 h2
    rw [← (hσ b₁ b' h1).1, ← (hσ b₂ b' h2).1]
  · intro b b' hb
    obtain ⟨rfl, a, ha⟩ := hσ b b' hb
    have himg' := hobj a _ ha
    cases ho' : h' b' with
    | function f' => rfl
    | table t' =>
      rw [ho'] at himg'
      cases ho : h a with
      | function f =>
        rw [ho] at himg'
        exact himg'.elim
      | table t =>
        rw [ho] at himg'
        constructor
        · intro k' x' hkx
          have hlook := LuaTable.mem_entries_iff.mp hkx
          obtain ⟨k, x, -, himgk, himgx⟩ := himg'.only k' x' hlook
          exact ⟨k', x', hself himgk, hself himgx, hlook⟩
        · intro k' x' hlook
          obtain ⟨k, x, -, himgk, himgx⟩ := himg'.only k' x' hlook
          exact ⟨k', x', LuaTable.mem_entries_iff.mpr hlook, hself himgk, hself himgx⟩

end Values

/-! ## Maps -/

def put (m : Value → Option Value) (k v : Value) : Value → Option Value :=
  update m k (if v = .nil then none else some v)

theorem lookup_rawset {t t' : Table} {k v : Value} (h : t.rawset k v = .ok t') :
    t'.map.lookup = put t.map.lookup k v := by
  funext x
  unfold Table.rawset at h
  split at h
  · split at h
    · rename_i hnil
      cases h
      subst hnil
      rw [put, if_pos rfl]
      by_cases hx : x = k
      · rw [hx, update_self]
        exact AList.lookup_erase _ _
      · rw [update_of_ne hx]
        exact AList.lookup_erase_ne hx
    · rename_i hnil
      cases h
      rw [put, if_neg hnil]
      by_cases hx : x = k
      · rw [hx, update_self]
        exact AList.lookup_insert _
      · rw [update_of_ne hx]
        exact AList.lookup_insert_ne hx
  · split at h
    · cases h
    · cases h

theorem rawset_ok {t : Table} {k : Value} (hk : k.isKey = true) (v : Value) :
    ∃ t', t.rawset k v = .ok t' := by
  unfold Table.rawset
  rw [dif_pos hk]
  split
  · exact ⟨_, rfl⟩
  · exact ⟨_, rfl⟩

/-- A map and its copy, in which `κ` gives the copies of the keys. -/
structure Copy (h h' : Heap φ) (bound : Nat) (m m' : Value → Option Value) (κ : Value → Value) :
    Prop where
  key : ∀ k v, m k = some v → IsomorphicIn 0 bound h h' k (κ k)
  inj : ∀ k k₂ v v₂, m k = some v → m k₂ = some v₂ → κ k = κ k₂ → k = k₂
  value : ∀ k v, m k = some v → ∃ v', m' (κ k) = some v' ∧ IsomorphicIn 0 bound h h' v v'
  only : ∀ k' v', m' k' = some v' → ∃ k v, m k = some v ∧ κ k = k'

def SameMap (h h' : Heap φ) (m m' : Value → Option Value) : Prop :=
  ∃ κ : Value → Value,
    (∀ k v, m k = some v → Isomorphic h h' k (κ k) ∧
      ∃ v', m' (κ k) = some v' ∧ Isomorphic h h' v v') ∧
    (∀ k k₂ v v₂, m k = some v → m k₂ = some v₂ → κ k = κ k₂ → k = k₂) ∧
    ∀ k' v', m' k' = some v' → ∃ k v, m k = some v ∧ κ k = k'

section Maps

variable {h h' h₀ h₂ : Heap φ} {n b : Nat} {m m' : Value → Option Value} {κ : Value → Value}

theorem Copy.sameMap (hc : Copy h h' n m m' κ) : SameMap h h' m m' := by
  refine ⟨κ, ?_, hc.inj, hc.only⟩
  intro k v hk
  obtain ⟨v', hv', hiso⟩ := hc.value k v hk
  exact ⟨(hc.key k v hk).isomorphic, v', hv', hiso.isomorphic⟩

theorem copy_empty (h h' : Heap φ) (n : Nat) : Copy h h' n (fun _ => none) (fun _ => none) id where
  key := by intro k v hk; cases hk
  inj := by intro k k₂ v v₂ hk; cases hk
  value := by intro k v hk; cases hk
  only := by intro k' v' hk; cases hk

theorem Copy.later (hc : Copy h h₀ n m m' κ) (hn : n ≤ b) (hold : ∀ a, a < n → h' a = h₀ a) :
    Copy h h' b m m' κ where
  key := fun k v hk => (hc.key k v hk).later (Nat.le_refl _) hn hold
  inj := hc.inj
  value := by
    intro k v hk
    obtain ⟨v', hv', hiso⟩ := hc.value k v hk
    exact ⟨v', hv', hiso.later (Nat.le_refl _) hn hold⟩
  only := hc.only

theorem Copy.congr (hc : Copy h h' n m m' κ)
    (hagree : ∀ k v, m k = some v → ∀ a,
      Reaches h k (.object a) ∨ Reaches h v (.object a) → h₂ a = h a) :
    Copy h₂ h' n m m' κ where
  key := fun k v hk => copy_congr (hc.key k v hk) fun a ha => hagree k v hk a (Or.inl ha)
  inj := hc.inj
  value := by
    intro k v hk
    obtain ⟨v', hv', hiso⟩ := hc.value k v hk
    exact ⟨v', hv', copy_congr hiso fun a ha => hagree k v hk a (Or.inr ha)⟩
  only := hc.only

theorem Copy.refl (hc : Copy h h' n m m' κ) : Copy h' h' n m' m' id where
  key := by
    intro k' v' hk'
    obtain ⟨k, v, hk, rfl⟩ := hc.only k' v' hk'
    exact copy_refl (hc.key k v hk)
  inj := fun k k₂ _ _ _ _ heq => heq
  value := by
    intro k' v' hk'
    obtain ⟨k, v, hk, rfl⟩ := hc.only k' v' hk'
    obtain ⟨v₂, hv₂, hiso⟩ := hc.value k v hk
    rw [hk'] at hv₂
    cases hv₂
    exact ⟨v', hk', copy_refl hiso⟩
  only := fun k' v' hk' => ⟨k', v', hk', rfl⟩

/-- An entry is assigned on both sides.  A key that is a table or a function is new, and so is
its copy. -/
theorem Copy.put (hc : Copy h h₀ n m m' κ) (hn : n ≤ b) (hold : ∀ a, a < n → h' a = h₀ a)
    {k v k' v' : Value} (hk : IsomorphicIn n b h h' k k') (hv : IsomorphicIn 0 b h h' v v')
    (hobj : (∃ a, k = .object a) → m k = none) :
    ∃ κ', Copy h h' b (put m k v) (put m' k' v') κ' := by
  have hlater := hc.later hn hold
  -- the copy of another key is another one
  have hother : ∀ k₂ v₂, m k₂ = some v₂ → k₂ ≠ k → κ k₂ ≠ k' := by
    intro k₂ v₂ hk₂ hne heq
    by_cases hko : ∃ a, k = .object a
    · obtain ⟨a, rfl⟩ := hko
      obtain ⟨a', rfl, hle, -⟩ := copy_object hk
      by_cases hk₂o : ∃ a₂, k₂ = .object a₂
      · obtain ⟨a₂, rfl⟩ := hk₂o
        obtain ⟨a₂', heq₂, -, hlt⟩ := copy_object (hc.key _ _ hk₂)
        rw [heq] at heq₂
        cases heq₂
        omega
      · have := copy_eq (hc.key _ _ hk₂) fun a₂ ha₂ => hk₂o ⟨a₂, ha₂⟩
        rw [heq] at this
        exact hk₂o ⟨a', this.symm⟩
    · have hk' := copy_eq hk fun a ha => hko ⟨a, ha⟩
      by_cases hk₂o : ∃ a₂, k₂ = .object a₂
      · obtain ⟨a₂, rfl⟩ := hk₂o
        obtain ⟨a₂', heq₂, -⟩ := copy_object (hc.key _ _ hk₂)
        rw [heq, hk'] at heq₂
        exact hko ⟨a₂', heq₂⟩
      · have := copy_eq (hc.key _ _ hk₂) fun a₂ ha₂ => hk₂o ⟨a₂, ha₂⟩
        rw [heq, hk'] at this
        exact hne this.symm
  -- the copy of an overridden key is the same one
  have hsame : ∀ v₂, m k = some v₂ → κ k = k' := by
    intro v₂ hk₂
    have hko : ∀ a, k ≠ .object a := by
      intro a ha
      rw [hobj ⟨a, ha⟩] at hk₂
      cases hk₂
    rw [copy_eq hk hko, copy_eq (hc.key _ _ hk₂) hko]
  refine ⟨update κ k k', ?_, ?_, ?_, ?_⟩
  · intro k₂ v₂ hk₂
    by_cases heq : k₂ = k
    · rw [heq, update_self]
      exact hk.later (Nat.zero_le _) (Nat.le_refl _) fun _ _ => rfl
    · rw [update_of_ne heq]
      rw [Persist.put, update_of_ne heq] at hk₂
      exact hlater.key k₂ v₂ hk₂
  · intro k₁ k₂ v₁ v₂ hk₁ hk₂ heq
    by_cases h₁ : k₁ = k
    · by_cases h₂ : k₂ = k
      · rw [h₁, h₂]
      · rw [Persist.put, update_of_ne h₂] at hk₂
        rw [h₁, update_self, update_of_ne h₂] at heq
        exact absurd heq.symm (hother k₂ v₂ hk₂ h₂)
    · rw [Persist.put, update_of_ne h₁] at hk₁
      rw [update_of_ne h₁] at heq
      by_cases h₂ : k₂ = k
      · rw [h₂, update_self] at heq
        exact absurd heq (hother k₁ v₁ hk₁ h₁)
      · rw [Persist.put, update_of_ne h₂] at hk₂
        rw [update_of_ne h₂] at heq
        exact hc.inj k₁ k₂ v₁ v₂ hk₁ hk₂ heq
  · intro k₂ v₂ hk₂
    by_cases heq : k₂ = k
    · rw [heq] at hk₂ ⊢
      rw [update_self]
      rw [Persist.put, update_self] at hk₂ ⊢
      split at hk₂
      · cases hk₂
      · rename_i hnil
        cases hk₂
        rw [if_neg fun hv' => hnil ((copy_nil_iff hv).mp hv')]
        exact ⟨v', rfl, hv⟩
    · rw [Persist.put, update_of_ne heq] at hk₂
      rw [update_of_ne heq, Persist.put,
        update_of_ne (hother k₂ v₂ hk₂ heq)]
      exact hlater.value k₂ v₂ hk₂
  · intro x' y' hx'
    by_cases heq : x' = k'
    · rw [heq] at hx' ⊢
      rw [Persist.put, update_self] at hx'
      split at hx'
      · cases hx'
      · rename_i hnil
        refine ⟨k, v, ?_, update_self _ _ _⟩
        rw [Persist.put, update_self, if_neg fun hv' => hnil ((copy_nil_iff hv).mpr hv')]
    · rw [Persist.put, update_of_ne heq] at hx'
      obtain ⟨x, y, hx, rfl⟩ := hc.only x' y' hx'
      have hne : x ≠ k := by
        rintro rfl
        exact heq (hsame y hx)
      refine ⟨x, y, ?_, update_of_ne hne _ _⟩
      rw [Persist.put, update_of_ne hne]
      exact hx

end Maps

end Mihini.Persist
