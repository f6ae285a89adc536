import Mihini.Persist.Reload

/-!
# Assignments that are cut

When the power is lost in an assignment, some of its operations are done, and a part of what is
in the buffer of the file is on the medium.
-/

open Mihini.Lib Mihini.LuaToBin

namespace Mihini.Persist

variable {φ : Type} {c : Chunks φ}

/-- The file that remains of an assignment after its first `done` operations, when the first
`bytes` bytes of the buffer have reached the medium. -/
def Store.cut (c : Chunks φ) (s : Store φ) (k v : Value) (pairs : Pairs) (done bytes : Nat) :
    Bytes :=
  let d := match newindex c s.heap pairs s.content k v with
    | .ok (_, ops) => s.disk.run (ops.take done)
    | .error _ => s.disk
  d.flushed ++ d.pending.take bytes

/-- The file as it was, the file with the whole assignment, or the file as it was and a key
without its value, when that says the same as one of the two. -/
inductive Whole (c : Chunks φ) (s : Store φ) (k v : Value) (pairs : Pairs) : Bytes → Prop where
  | before : Whole c s k v pairs s.disk.file
  | after : Whole c s k v pairs (s.assign c k v pairs).disk.file
  | key {sk : Bytes} (hrec : s.recompacts k v = false)
      (hv : v = .nil ∨ s.content.cache.map.lookup k = none)
      (hsk : serialize c s.heap k = .ok sk) : Whole c s k v pairs (s.disk.file ++ sk)

/-! ## A key without its value -/

theorem copy_nil (h h' : Heap φ) (n : Nat) : IsomorphicIn 0 n h h' .nil .nil := by
  refine ⟨fun _ => none, ?_, ?_, rfl, ?_⟩
  · intro a a' ha
    cases ha
  · intro a b a' ha
    cases ha
  · intro a a' ha
    cases ha

/-- A key at the end of the file deletes the entry. -/
theorem Holds.load_key {frame sk : Bytes} {h : Heap φ} {m : Value → Option Value} {k : Value}
    (hh : Holds c h frame m) (hload : ∀ f s, c.dump f = some s → c.load s = .ok f)
    (hsk : serialize c h k = .ok sk) (hnk : Narrow h k) (hkey : k.isKey = true)
    (hobj : (∃ a, k = .object a) → m k = none) (hlen : (frame ++ sk).length < 2 ^ 31) :
    ∃ content mem, Persist.load c (frame ++ sk) .empty = .ok (content, mem) ∧
      SameMap h mem.heap (put m k .nil) content.cache.map.lookup := by
  obtain ⟨d, s, κ, hl, hcopy⟩ := hh
  obtain ⟨k', d₁, hk, hindex, hfresh, hold, hiso⟩ :=
    read_appended frame hload hsk hnk d.toMemory (show 7996 ≤ luaiMaxCStack - 3 by decide)
  rw [← hl.2] at hk
  have hkey' : k'.isKey = true := by
    rw [copy_isKey hiso]
    exact hkey
  have hnil : k' ≠ .nil := by
    intro heq
    rw [heq] at hkey'
    cases hkey'
  obtain ⟨s', hset⟩ := Content.set_ok hkey' s .nil
  obtain ⟨κ', hcopy'⟩ := hcopy.put hfresh hold hiso (copy_nil h d₁.heap _) hobj
  refine ⟨s', d₁.toMemory, hl.load_key hlen hk hindex hnil hset, ?_⟩
  rw [Content.set_lookup hset]
  exact hcopy'.sameMap

theorem put_nil_of_none {m : Value → Option Value} {k : Value} (hk : m k = none) :
    put m k .nil = m := by
  funext x
  unfold put
  by_cases hx : x = k
  · rw [hx, Function.update_self, if_pos rfl, hk]
  · rw [Function.update_of_ne hx]

/-! ## Cuts of an assignment -/

/-- When the cut leaves the file as it was, or with the whole assignment, the table that is
loaded is the one before the assignment or the one after it. -/
theorem load_cut (c : Chunks φ) (hload : ∀ f s, c.dump f = some s → c.load s = .ok f)
    (h : Heap φ) {s : Store φ}
    (hruns : Runs (step c) (fun s e => Enabled c s e ∧ Safe c s e) (init h) s)
    {k v : Value} {pairs : Pairs} (he : Enabled c s (.assign k v pairs))
    (hsafe : Safe c s (.assign k v pairs)) (done bytes : Nat)
    (hwhole : Whole c s k v pairs (s.cut c k v pairs done bytes)) :
    ∃ content mem, load c (s.cut c k v pairs done bytes) .empty = .ok (content, mem) ∧
      (SameMap s.heap mem.heap s.index content.cache.map.lookup ∨
        SameMap s.heap mem.heap (s.assign c k v pairs).index content.cache.map.lookup) := by
  have hs := synced_of_runs hload hruns
  have hs' := hs.assign hload he hsafe
  have hheap : (s.assign c k v pairs).heap = s.heap := by
    obtain ⟨s₁, -, ⟨-, ops, -, -, hassign⟩ | ⟨-, sk, sv, -, -, -, hassign⟩⟩ :=
      assign_cases he hsafe.1
    · rw [hassign]
    · rw [hassign]
  generalize s.cut c k v pairs done bytes = m at hwhole ⊢
  cases hwhole with
  | before =>
    obtain ⟨content, mem, heq, hsame⟩ := hs.holds.load hs.short
    refine ⟨content, mem, heq, Or.inl ?_⟩
    rw [hs.index]
    exact hsame
  | after =>
    obtain ⟨content, mem, heq, hsame⟩ := hs'.holds.load hs'.short
    refine ⟨content, mem, heq, Or.inr ?_⟩
    rw [hs'.index, ← hheap]
    exact hsame
  | @key sk hrec hv hsk =>
    have hnone := hsafe.new_key hrec
    obtain ⟨hown, hnk, -, -, -, hlen⟩ := hsafe
    obtain ⟨s₁, hset, ⟨hwaste, -⟩ | ⟨-, sk', sv, hsk', -, -, hassign⟩⟩ := assign_cases he hown
    · rw [recompacts_eq hset, hwaste] at hrec
      cases hrec
    · rw [hsk] at hsk'
      cases hsk'
      have hshort : (s.disk.file ++ sk).length < 2 ^ 31 := by
        rw [hassign] at hlen
        have hfile : (s.disk.file ++ (sk ++ sv) ++ []).length < 2 ^ 31 := hlen
        simp only [List.length_append] at hfile ⊢
        omega
      obtain ⟨content, mem, heq, hsame⟩ :=
        hs.holds.load_key hload hsk hnk he.2.1 hnone hshort
      refine ⟨content, mem, heq, ?_⟩
      rcases hv with hv | hv
      · right
        have hmap : (s.assign c k v pairs).content.cache.map.lookup =
            put s.content.cache.map.lookup k .nil := by
          rw [hassign, ← hv]
          exact Content.set_lookup hset
        rw [hs'.index, hmap]
        exact hsame
      · left
        rw [hs.index]
        rw [put_nil_of_none hv] at hsame
        exact hsame

theorem load_cut_key : ∃ content mem,
    load plain ((init noTables).cut plain nameX (.int 1) listed 1 4) .empty =
      .ok (content, mem) ∧
    (SameMap (init noTables).heap mem.heap (init noTables).index content.cache.map.lookup ∨
      SameMap (init noTables).heap mem.heap
        ((init noTables).assign plain nameX (.int 1) listed).index content.cache.map.lookup) := by
  have hcut : (init noTables).cut plain nameX (.int 1) listed 1 4 =
      (init noTables).disk.file ++ [4, 0, 1, 120] := by decide
  apply load_cut plain (by intro f s hs; cases hs; rfl) noTables (Runs.refl _) enabled_one safe_one
  rw [hcut]
  exact .key (by decide) (Or.inr rfl) (by decide)

/-- In `t.x = 1; t.x = 2`, the second assignment is cut between the key and the value, and the
entry is lost. -/
theorem cut_value_lost :
    ¬ ∀ s k v pairs done bytes, Runs (step plain) (Enabled plain) (init noTables) s →
      Enabled plain s (.assign k v pairs) →
      ∃ content mem, load plain (s.cut plain k v pairs done bytes) .empty =
          .ok (content, mem) ∧
        (SameMap s.heap mem.heap s.index content.cache.map.lookup ∨
          SameMap s.heap mem.heap (s.assign plain k v pairs).index
            content.cache.map.lookup) := by
  intro hall
  have hsecond : Enabled plain ((init noTables).assign plain nameX (.int 1) listed)
      (.assign nameX (.int 2) listed) := by
    refine ⟨rfl, rfl, serializable_nameX, ⟨[7, 0, 0, 0, 2], by decide⟩, ?_⟩
    intro k v hkv
    have hmem := LuaTable.mem_entries_iff.mpr hkv
    rw [show ((init noTables).assign plain nameX (.int 1) listed).content.cache.map.entries =
      [⟨nameX, .int 1⟩] from rfl, List.mem_singleton] at hmem
    cases hmem
    exact ⟨serializable_nameX, [7, 0, 0, 0, 1], by decide⟩
  obtain ⟨content, mem, hload, hsame⟩ := hall _ nameX (.int 2) listed 1 4
    ((Runs.refl _).tail enabled_one) hsecond
  cases hload
  rcases hsame with ⟨κ, hkept, -⟩ | ⟨κ, hkept, -⟩
  · obtain ⟨-, v', hv', -⟩ := hkept nameX (.int 1) rfl
    cases hv'
  · obtain ⟨-, v', hv', -⟩ := hkept nameX (.int 2) rfl
    cases hv'

end Mihini.Persist
