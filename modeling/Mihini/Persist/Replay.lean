import Mihini.LuaToBin.Prefix
import Mihini.Persist.Copies
import Mihini.Lib.Run

/-!
# What is loaded is what was assigned

The file is a list of records, each a key and a value; what is loaded from it is a copy of the
content.  An assignment appends a record, and a recompaction writes one record for each entry.
-/

open Mihini.Lib Mihini.LuaToBin

namespace Mihini.Persist

variable {φ : Type} {c : Chunks φ} {frame : Bytes}

/-! ## The loop of `table.new` -/

def LoadStep (c : Chunks φ) (frame : Bytes) (p q : Decoder φ × Content) : Prop :=
  ∃ k v d₁ d₂, deserializeValue c frame (luaiMaxCStack - 3) p.1 = .ok (k, d₁) ∧
    deserializeValue c frame (luaiMaxCStack - 4) (.start d₁.toMemory d₁.index) = .ok (v, d₂) ∧
    k ≠ .nil ∧ p.2.set k v = .ok q.2 ∧ q.1 = .start d₂.toMemory d₂.index

def LoadSteps (c : Chunks φ) (frame : Bytes) :
    Decoder φ × Content → Decoder φ × Content → Prop :=
  Relation.ReflTransGen (LoadStep c frame)

variable {p q : Decoder φ × Content}

theorem LoadSteps.longer (h : LoadSteps c frame p q) (ext : Bytes) :
    LoadSteps c (frame ++ ext) p q := by
  refine Relation.ReflTransGen.mono ?_ _ _ h
  rintro p q ⟨k, v, d₁, d₂, hk, hv, hnil, hset, hq⟩
  exact ⟨k, v, d₁, d₂, (deserializeValue_longer c ext _ hk).1,
    (deserializeValue_longer c ext _ hv).1, hnil, hset, hq⟩

theorem deserialize_end (hlen : frame.length < 2 ^ 31) (mem : Memory φ) :
    deserialize c frame (some 2) (frame.length + 1) mem = .ok (frame.length + 1, [], mem) := by
  unfold deserialize
  rw [if_neg (by omega)]
  have hloop : deserializeLoop c frame (luaiMaxCStack - 3) (some 2)
      (.start mem (frame.length + 1 - 1)) = .ok ([], .start mem frame.length) := by
    show deserializeLoop c frame (7996 + 1) (some 2) _ = _
    rw [deserializeLoop, if_neg]
    · rfl
    · rintro ⟨hlt, -⟩
      exact Nat.lt_irrefl _ hlt
  rw [hloop]
  rfl

variable {mem : Memory φ} {i : Nat}

theorem deserialize_record (hlen : frame.length < 2 ^ 31)
    {k v : Value} {d₁ d₂ : Decoder φ}
    (hk : deserializeValue c frame (luaiMaxCStack - 3) (.start mem i) = .ok (k, d₁))
    (hv : deserializeValue c frame (luaiMaxCStack - 4) (.start d₁.toMemory d₁.index) =
      .ok (v, d₂)) :
    deserialize c frame (some 2) (i + 1) mem = .ok (d₂.index + 1, [k, v], d₂.toMemory) := by
  have hi : i < frame.length := lt_of_deserializeValue hk
  have hi₁ : (Decoder.start d₁.toMemory d₁.index).index < frame.length :=
    lt_of_deserializeValue hv
  unfold deserialize
  rw [if_neg (by omega)]
  have hloop : deserializeLoop c frame (luaiMaxCStack - 3) (some 2) (.start mem (i + 1 - 1)) =
      .ok ([k, v], .start d₂.toMemory d₂.index) := by
    show deserializeLoop c frame (7996 + 1) (some 2) (.start mem i) = _
    rw [deserializeLoop, if_pos ⟨hi, by simp⟩]
    rw [show luaiMaxCStack - 3 = 7996 + 1 from rfl] at hk
    rw [show luaiMaxCStack - 4 = 7995 + 1 from rfl] at hv
    rw [hk, ok_bind]
    show (deserializeLoop c frame (7995 + 1) (some 1) (.start d₁.toMemory d₁.index) >>=
      fun x => Except.ok (k :: x.1, x.2)) = _
    rw [deserializeLoop, if_pos ⟨hi₁, by simp⟩, hv, ok_bind]
    show ((deserializeLoop c frame (7994 + 1) (some 0) (.start d₂.toMemory d₂.index) >>=
      fun x => Except.ok (v :: x.1, x.2)) >>= fun x => Except.ok (k :: x.1, x.2)) = _
    rw [deserializeLoop, if_neg (by simp)]
    rfl
  rw [hloop]
  rfl

/-- The last record of the frame has a key only: its value is `nil`. -/
theorem deserialize_key (hlen : frame.length < 2 ^ 31) {k : Value}
    {d₁ : Decoder φ}
    (hk : deserializeValue c frame (luaiMaxCStack - 3) (.start mem i) = .ok (k, d₁))
    (hend : d₁.index = frame.length) :
    deserialize c frame (some 2) (i + 1) mem = .ok (frame.length + 1, [k], d₁.toMemory) := by
  have hi : i < frame.length := lt_of_deserializeValue hk
  unfold deserialize
  rw [if_neg (by omega)]
  have hloop : deserializeLoop c frame (luaiMaxCStack - 3) (some 2) (.start mem (i + 1 - 1)) =
      .ok ([k], .start d₁.toMemory d₁.index) := by
    show deserializeLoop c frame (7996 + 1) (some 2) (.start mem i) = _
    rw [deserializeLoop, if_pos ⟨hi, by simp⟩]
    rw [show luaiMaxCStack - 3 = 7996 + 1 from rfl] at hk
    rw [hk, ok_bind]
    show (deserializeLoop c frame (7995 + 1) (some 1) (.start d₁.toMemory d₁.index) >>=
      fun x => Except.ok (k :: x.1, x.2)) = _
    rw [deserializeLoop, if_neg]
    · rfl
    · rintro ⟨hlt, -⟩
      rw [show (Decoder.start d₁.toMemory d₁.index).index = d₁.index from rfl, hend] at hlt
      exact Nat.lt_irrefl _ hlt
  rw [hloop]
  show Except.ok (d₁.index + 1, _, _) = _
  rw [hend]
  rfl

theorem loadLoop_record (hlen : frame.length < 2 ^ 31)
    (hp : p.1 = .start mem i) (hstep : LoadStep c frame p q) (fuel : Nat) :
    loadLoop c frame (fuel + 1) (i + 1) p.2 mem =
        loadLoop c frame fuel (q.1.index + 1) q.2 q.1.toMemory ∧ i < q.1.index := by
  obtain ⟨k, v, d₁, d₂, hk, hv, hnil, hset, hq⟩ := hstep
  rw [hp] at hk
  have hi := (deserializeValue_longer c [] _ hk).2
  have hi₁ := (deserializeValue_longer c [] _ hv).2
  constructor
  · rw [loadLoop, deserialize_record hlen hk hv, ok_bind]
    show (if k = Value.nil then Except.ok (p.2, d₂.toMemory)
      else do
        let s ← p.2.set k v
        loadLoop c frame fuel (d₂.index + 1) s d₂.toMemory) = _
    rw [if_neg hnil, hset, ok_bind, hq]
    rfl
  · rw [hq]
    show i < d₂.index
    have h1 : i < d₁.index := hi
    have h2 : d₁.index < d₂.index := hi₁
    omega

theorem loadLoop_end (hlen : frame.length < 2 ^ 31) (s : Content) (mem : Memory φ) (fuel : Nat) :
    loadLoop c frame fuel (frame.length + 1) s mem = .ok (s, mem) := by
  cases fuel with
  | zero => rfl
  | succ fuel =>
    rw [loadLoop, deserialize_end hlen, ok_bind]
    rfl

theorem loadLoop_steps (hlen : frame.length < 2 ^ 31)
    (h : LoadSteps c frame p q) (hp : p.1 = .start mem i) {fuel : Nat}
    (hfuel : frame.length < i + fuel) :
    ∃ fuel', loadLoop c frame fuel (i + 1) p.2 mem =
        loadLoop c frame fuel' (q.1.index + 1) q.2 q.1.toMemory ∧
      frame.length < q.1.index + fuel' := by
  induction h using Relation.ReflTransGen.head_induction_on generalizing i mem fuel with
  | refl =>
    refine ⟨fuel, ?_, ?_⟩
    · rw [hp]
      rfl
    · rw [hp]
      exact hfuel
  | @head p₁ p₂ hstep hrest ih =>
    have hstart : ∃ m j, p₂.1 = .start m j := by
      obtain ⟨k, v, d₁, d₂, -, -, -, -, hq⟩ := hstep
      exact ⟨_, _, hq⟩
    obtain ⟨m, j, hj⟩ := hstart
    obtain ⟨fuel, rfl⟩ : ∃ f, fuel = f + 1 := by
      refine ⟨fuel - 1, ?_⟩
      obtain ⟨k, v, d₁, d₂, hk, -⟩ := hstep
      have := lt_of_deserializeValue hk
      rw [hp] at this
      have hi : i < frame.length := this
      omega
    obtain ⟨hturn, hlt⟩ := loadLoop_record hlen hp hstep fuel
    rw [hj] at hturn hlt
    have hlt' : i < j := hlt
    obtain ⟨fuel', hloop, hfuel'⟩ := ih hj (show frame.length < j + fuel by omega)
    refine ⟨fuel', ?_, hfuel'⟩
    rw [hturn]
    exact hloop

def Loads (c : Chunks φ) (frame : Bytes) (d : Decoder φ) (s : Content) : Prop :=
  LoadSteps c frame (.start .empty 0, .empty) (d, s) ∧ d = .start d.toMemory frame.length

theorem Loads.load_eq {d : Decoder φ} {s : Content} (h : Loads c frame d s)
    (hlen : frame.length < 2 ^ 31) : load c frame .empty = .ok (s, d.toMemory) := by
  obtain ⟨hsteps, hd⟩ := h
  have hfuel : frame.length < 0 + (frame.length + 1) := by omega
  obtain ⟨fuel, hloop, -⟩ := loadLoop_steps hlen hsteps rfl hfuel
  unfold load
  rw [show 1 = 0 + 1 from rfl, hloop]
  dsimp only
  have hindex : d.index = frame.length := by rw [hd]; rfl
  rw [hindex]
  exact loadLoop_end hlen _ _ _

/-- After the records, the file has a key without a value. -/
theorem Loads.load_key {d d₁ : Decoder φ} {s s' : Content} (h : Loads c frame d s) {bytes : Bytes}
    (hlen : (frame ++ bytes).length < 2 ^ 31) {k : Value}
    (hk : deserializeValue c (frame ++ bytes) (luaiMaxCStack - 3) d = .ok (k, d₁))
    (hend : d₁.index = (frame ++ bytes).length) (hnil : k ≠ .nil)
    (hset : s.set k .nil = .ok s') :
    load c (frame ++ bytes) .empty = .ok (s', d₁.toMemory) := by
  obtain ⟨hsteps, hd⟩ := h
  have hfuel : (frame ++ bytes).length < 0 + ((frame ++ bytes).length + 1) := by omega
  obtain ⟨fuel, hloop, hfuel⟩ := loadLoop_steps hlen (hsteps.longer bytes) rfl hfuel
  unfold load
  rw [show 1 = 0 + 1 from rfl, hloop]
  dsimp only at hfuel ⊢
  have hi := lt_of_deserializeValue hk
  obtain ⟨fuel, rfl⟩ : ∃ f, fuel = f + 1 := ⟨fuel - 1, by omega⟩
  have hindex : d.index = frame.length := by rw [hd]; rfl
  rw [hd] at hk
  rw [hindex, loadLoop, deserialize_key hlen hk hend, ok_bind]
  show (if k = Value.nil then Except.ok (s, d₁.toMemory)
    else do
      let s ← s.set k .nil
      loadLoop c (frame ++ bytes) fuel ((frame ++ bytes).length + 1) s d₁.toMemory) = _
  rw [if_neg hnil, hset, ok_bind]
  exact loadLoop_end hlen _ _ _

end Mihini.Persist
