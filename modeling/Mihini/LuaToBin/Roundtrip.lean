import Mihini.LuaToBin.Codec
import Mathlib.Logic.Relation

/-!
# What is deserialized is isomorphic to what was serialized

The two sides number the strings, tables and functions in the order in which they meet them.
A renaming of addresses relates the values of the one side to those of the other, and grows
with each table and function that is read.
-/

open Mihini.Lib Lib.Bytes Function List

namespace Mihini.LuaToBin

variable {φ : Type}

/-! ## Isomorphic values -/

def Image (ρ : Nat → Option Nat) : Value → Value → Prop
  | .object a, w => ∃ a', ρ a = some a' ∧ w = .object a'
  | v, w => w = v

structure EntriesImage (ρ : Nat → Option Nat) (es : List (Sigma fun _ : Value => Value))
    (t : Table) : Prop where
  kept : ∀ k v, ⟨k, v⟩ ∈ es →
    ∃ k' v', Image ρ k k' ∧ Image ρ v v' ∧ t.map.lookup k' = some v'
  only : ∀ k' v', t.map.lookup k' = some v' →
    ∃ k v, ⟨k, v⟩ ∈ es ∧ Image ρ k k' ∧ Image ρ v v'

def ObjImage (ρ : Nat → Option Nat) : Obj φ → Obj φ → Prop
  | .table t, .table t' => EntriesImage ρ t.map.entries t'
  | .function f, .function f' => f' = f
  | _, _ => False

/-- The parts of two heaps that two values lead to differ in the addresses only. -/
def Isomorphic (h h' : Heap φ) (v v' : Value) : Prop :=
  ∃ ρ : Nat → Option Nat, (∀ a b a', ρ a = some a' → ρ b = some a' → a = b) ∧
    Image ρ v v' ∧ ∀ a a', ρ a = some a' → ObjImage ρ (h a) (h' a')

def Child (h : Heap φ) (v w : Value) : Prop :=
  ∃ a t, v = .object a ∧ h a = .table t ∧
    ∃ k x, t.map.lookup k = some x ∧ (w = k ∨ w = x)

def Reaches (h : Heap φ) : Value → Value → Prop := Relation.ReflTransGen (Child h)

def Value.isNumbered : Value → Bool
  | .string _ => true
  | .object _ => true
  | _ => false

/-- The integers are of type `int32_t`, and the numbers of the values of type `uint16_t`. -/
structure Narrow (h : Heap φ) (root : Value) : Prop where
  int : ∀ n, Reaches h root (.int n) → -2 ^ 31 ≤ n ∧ n < 2 ^ 31
  count : ∀ l : List Value, l.Nodup →
    (∀ w ∈ l, Reaches h root w ∧ w.isNumbered = true) → l.length < 2 ^ 16

section Images

variable {ρ ρ' : Nat → Option Nat} {v w w' : Value}

theorem Image.mono (hmono : ∀ a a', ρ a = some a' → ρ' a = some a') (h : Image ρ v w) :
    Image ρ' v w := by
  cases v with
  | object a =>
    obtain ⟨a', ha, rfl⟩ := h
    exact ⟨a', hmono a a' ha, rfl⟩
  | _ => exact h

theorem Image.injective (hinj : ∀ a b a', ρ a = some a' → ρ b = some a' → a = b) {v' : Value}
    (h : Image ρ v w) (h' : Image ρ v' w) : v = v' := by
  have hother : ∀ {x y : Value}, (∀ a, x ≠ .object a) → Image ρ x y → y = x := by
    intro x y hx hxy
    cases x with
    | object a => exact absurd rfl (hx a)
    | _ => exact hxy
  by_cases hv : ∃ a, v = .object a
  · obtain ⟨a, rfl⟩ := hv
    obtain ⟨a', ha, rfl⟩ := h
    by_cases hv' : ∃ b, v' = .object b
    · obtain ⟨b, rfl⟩ := hv'
      obtain ⟨b', hb, heq⟩ := h'
      cases heq
      rw [hinj a b a' ha hb]
    · have := hother (fun b hb => hv' ⟨b, hb⟩) h'
      exact absurd ⟨a', this.symm⟩ hv'
  · have hw := hother (fun a ha => hv ⟨a, ha⟩) h
    by_cases hv' : ∃ b, v' = .object b
    · obtain ⟨b, rfl⟩ := hv'
      obtain ⟨b', -, heq⟩ := h'
      exact absurd ⟨b', hw.symm.trans heq⟩ hv
    · exact hw.symm.trans (hother (fun b hb => hv' ⟨b, hb⟩) h')

theorem image_isKey (h : Image ρ v w) : w.isKey = v.isKey := by
  cases v with
  | object a =>
    obtain ⟨a', -, rfl⟩ := h
    rfl
  | _ => rw [show w = _ from h]

theorem image_ne_nil (h : Image ρ v w) (hv : v ≠ .nil) : w ≠ .nil := by
  cases v with
  | object a =>
    obtain ⟨a', -, rfl⟩ := h
    simp
  | _ => rwa [show w = _ from h]

theorem EntriesImage.mono (hmono : ∀ a a', ρ a = some a' → ρ' a = some a')
    {es : List (Sigma fun _ : Value => Value)} {t : Table} (h : EntriesImage ρ es t) :
    EntriesImage ρ' es t := by
  constructor
  · intro k v hkv
    obtain ⟨k', v', hk, hv, hlook⟩ := h.kept k v hkv
    exact ⟨k', v', hk.mono hmono, hv.mono hmono, hlook⟩
  · intro k' v' hlook
    obtain ⟨k, v, hkv, hk, hv⟩ := h.only k' v' hlook
    exact ⟨k, v, hkv, hk.mono hmono, hv.mono hmono⟩

theorem ObjImage.mono (hmono : ∀ a a', ρ a = some a' → ρ' a = some a') {o o' : Obj φ}
    (h : ObjImage ρ o o') : ObjImage ρ' o o' := by
  cases o with
  | table t =>
    cases o' with
    | table t' => exact EntriesImage.mono hmono h
    | function f' => exact h
  | function f =>
    cases o' with
    | table t' => exact h
    | function f' => exact h

/-- An entry is added to a table: its key is new, as the renaming is injective. -/
theorem EntriesImage.rawset (hinj : ∀ a b a', ρ a = some a' → ρ b = some a' → a = b)
    {es : List (Sigma fun _ : Value => Value)} {t : Table} (h : EntriesImage ρ es t)
    {k v k' v' : Value} (hk : Image ρ k k') (hv : Image ρ v v') (hkey : k.isKey = true)
    (hne : v ≠ .nil) (hnew : ∀ x, ⟨k, x⟩ ∉ es) :
    ∃ t', t.rawset k' v' = .ok t' ∧ EntriesImage ρ (es ++ [⟨k, v⟩]) t' := by
  have hkey' : k'.isKey = true := by
    rw [image_isKey hk]
    exact hkey
  have hne' : v' ≠ .nil := image_ne_nil hv hne
  unfold Table.rawset
  rw [dif_pos hkey', dif_neg hne']
  refine ⟨_, rfl, ?_, ?_⟩
  · intro x y hxy
    rcases mem_append.mp hxy with hmem | hxy
    · obtain ⟨x', y', hx, hy, hlook⟩ := h.kept x y hmem
      have hdiff : x' ≠ k' := by
        rintro rfl
        have := hx.injective hinj hk
        rw [this] at hmem
        exact hnew y hmem
      refine ⟨x', y', hx, hy, ?_⟩
      dsimp only
      rw [AList.lookup_insert_ne hdiff]
      exact hlook
    · rw [mem_singleton] at hxy
      cases hxy
      refine ⟨k', v', hk, hv, ?_⟩
      exact AList.lookup_insert _
  · intro x' y' hlook
    dsimp only at hlook
    by_cases hx : x' = k'
    · rw [hx, AList.lookup_insert] at hlook
      cases hlook
      rw [hx]
      exact ⟨k, v, mem_append_right _ (mem_singleton_self _), hk, hv⟩
    · rw [AList.lookup_insert_ne hx] at hlook
      obtain ⟨x, y, hxy, himg⟩ := h.only x' y' hlook
      exact ⟨x, y, mem_append_left _ hxy, himg⟩

end Images

/-! ## Reading -/

def At (frame : Bytes) (index : Nat) (rest : Bytes) : Prop :=
  ∃ pre, frame = pre ++ rest ∧ pre.length = index

section Read

variable {frame x rest : Bytes} {d : Decoder φ} {index : Nat}

theorem At.skip (h : At frame index (x ++ rest)) : At frame (index + x.length) rest := by
  obtain ⟨pre, rfl, rfl⟩ := h
  refine ⟨pre ++ x, ?_, ?_⟩
  · rw [append_assoc]
  · rw [length_append]

theorem readObject_eq (h : At frame d.index (x ++ rest)) {call : Nat} (hcall : x.length = call) :
    d.readObject frame call = .ok (x, { d with index := d.index + call }) := by
  obtain ⟨pre, rfl, hpre⟩ := h
  have hlen : ¬ (pre ++ (x ++ rest)).length < d.index + call := by
    simp only [length_append]
    omega
  unfold Decoder.readObject
  rw [if_neg hlen, ← hpre, drop_left, ← hcall, take_left]

theorem readByte_eq {b : UInt8} (h : At frame d.index (b :: rest)) :
    d.readObject frame 1 = .ok ([b], { d with index := d.index + 1 }) :=
  readObject_eq (x := [b]) h rfl

theorem beValue_size {n : Nat} (h : n < 2 ^ 16) : (beValue (beBytes 2 n)).toNat = n := by
  rw [beValue_beBytes]
  have : (n : Int) % 256 ^ 2 = n := Int.emod_eq_of_lt (by omega) (by omega)
  rw [this, Int.toNat_natCast]

theorem readSize_eq {n : Nat} (hn : n < 2 ^ 16) (h : At frame d.index (beBytes 2 n ++ rest)) :
    d.readSize frame = .ok (n, { d with index := d.index + 2 }) := by
  unfold Decoder.readSize
  rw [readObject_eq h (beBytes_length 2 n)]
  show Except.ok _ = _
  rw [beValue_size hn]

end Read

/-! ## The two caches -/

structure Sim (h : Heap φ) (root : Value) (e : Encoder) (d : Decoder φ)
    (ρ : Nat → Option Nat) : Prop where
  seen : ∃ l : List Value, l.Nodup ∧ l.length = e.key ∧
    (∀ w ∈ l, Reaches h root w ∧ w.isNumbered = true) ∧ ∀ w, (e.refs w).isSome = true ↔ w ∈ l
  key : d.key = e.key
  refs : ∀ w n, e.refs w = some n → 0 < n ∧ n ≤ e.key ∧ ∃ w', d.cache n = some w' ∧ Image ρ w w'
  dom : ∀ a, (ρ a).isSome = true ↔ (e.refs (.object a)).isSome = true
  inj : ∀ a b a', ρ a = some a' → ρ b = some a' → a = b
  fresh : ∀ a a', ρ a = some a' → a' < d.fresh

structure Step (h : Heap φ) (root : Value) (open_ : Option Nat) (e' : Encoder)
    (d d' : Decoder φ) (ρ ρ' : Nat → Option Nat) (n : Nat) : Prop where
  sim : Sim h root e' d' ρ'
  mono : ∀ a a', ρ a = some a' → ρ' a = some a'
  index : d'.index = d.index + n
  fresh : d.fresh ≤ d'.fresh
  old : ∀ a', a' < d.fresh → open_ ≠ some a' → d'.heap a' = d.heap a'
  new : ∀ a a', ρ' a = some a' → ρ a = none → ObjImage ρ' (h a) (d'.heap a')
  above : ∀ a a', ρ' a = some a' → ρ a = none → d.fresh ≤ a'

section Caches

variable {h : Heap φ} {root w : Value} {e e₁ e₂ : Encoder} {d d₁ d₂ : Decoder φ}
  {ρ ρ₁ ρ₂ : Nat → Option Nat} {m n : Nat} {x : Option Nat}

theorem Sim.congr (hs : Sim h root e d ρ) (hkey : d₁.key = d.key) (hcache : d₁.cache = d.cache)
    (hfresh : d₁.fresh = d.fresh) : Sim h root e d₁ ρ := by
  refine ⟨hs.seen, ?_, ?_, hs.dom, hs.inj, ?_⟩
  · rw [hkey]
    exact hs.key
  · rw [hcache]
    exact hs.refs
  · rw [hfresh]
    exact hs.fresh

theorem Sim.room (hs : Sim h root e d ρ) (hn : Narrow h root) (hw : Reaches h root w)
    (hnum : w.isNumbered = true) (hnew : e.refs w = none) : e.key + 1 < 2 ^ 16 := by
  obtain ⟨l, hnodup, hlen, hmem, hseen⟩ := hs.seen
  have hnot : w ∉ l := by
    intro hwl
    have := (hseen w).mpr hwl
    rw [hnew] at this
    cases this
  have := hn.count (w :: l) (nodup_cons.mpr ⟨hnot, hnodup⟩) (by
    intro y hy
    rcases mem_cons.mp hy with rfl | hy
    · exact ⟨hw, hnum⟩
    · exact hmem y hy)
  rw [length_cons, hlen] at this
  exact this

/-- The encoder and the decoder number what they meet for the first time. -/
theorem Sim.add (hs : Sim h root e d ρ) (hn : Narrow h root) (hw : Reaches h root w)
    (hnum : w.isNumbered = true) (hnew : e.refs w = none) {w' : Value}
    (hmono : ∀ a a', ρ a = some a' → ρ₁ a = some a') (himg : Image ρ₁ w w')
    (hdom : ∀ a, (ρ₁ a).isSome = true ↔ (ρ a).isSome = true ∨ w = .object a)
    (hinj : ∀ a b a', ρ₁ a = some a' → ρ₁ b = some a' → a = b)
    (hkey : d₁.key = d.key) (hcache : d₁.cache = d.cache)
    (hfresh : ∀ a a', ρ₁ a = some a' → a' < d₁.fresh) :
    Sim h root ⟨update e.refs w (some ((e.key + 1) % 2 ^ 16)), (e.key + 1) % 2 ^ 16⟩
      (d₁.addToCache w') ρ₁ := by
  have hroom := hs.room hn hw hnum hnew
  have hmod : (e.key + 1) % 2 ^ 16 = e.key + 1 := Nat.mod_eq_of_lt hroom
  have hkey' : (d₁.key + 1) % 2 ^ 16 = e.key + 1 := by rw [hkey, hs.key, hmod]
  obtain ⟨l, hnodup, hlen, hmem, hseen⟩ := hs.seen
  rw [hmod]
  have hnot : w ∉ l := by
    intro hwl
    have := (hseen w).mpr hwl
    rw [hnew] at this
    cases this
  constructor
  · refine ⟨w :: l, nodup_cons.mpr ⟨hnot, hnodup⟩, ?_, ?_, ?_⟩
    · rw [length_cons, hlen]
    · intro y hy
      rcases mem_cons.mp hy with rfl | hy
      · exact ⟨hw, hnum⟩
      · exact hmem y hy
    · intro y
      dsimp only
      by_cases hy : y = w
      · subst hy
        rw [update_self]
        simp
      · rw [update_of_ne hy, hseen, mem_cons]
        simp [hy]
  · exact hkey'
  · intro y n hy
    dsimp only at hy
    show 0 < n ∧ n ≤ e.key + 1 ∧ ∃ y', update d₁.cache ((d₁.key + 1) % 2 ^ 16)
      (some w') n = some y' ∧ Image ρ₁ y y'
    rw [hkey']
    by_cases hyw : y = w
    · subst hyw
      rw [update_self] at hy
      cases hy
      refine ⟨Nat.succ_pos _, Nat.le_refl _, w', ?_, himg⟩
      rw [update_self]
    · rw [update_of_ne hyw] at hy
      obtain ⟨hpos, hle, y', hc, himg'⟩ := hs.refs y n hy
      refine ⟨hpos, Nat.le_succ_of_le hle, y', ?_, himg'.mono hmono⟩
      rw [update_of_ne (by omega), hcache]
      exact hc
  · intro a
    dsimp only
    rw [hdom a, hs.dom a]
    by_cases ha : Value.object a = w
    · subst ha
      rw [update_self]
      simp
    rw [update_of_ne ha]
    constructor
    · rintro (h1 | h1)
      · exact h1
      · exact absurd h1.symm ha
    · exact Or.inl
  · exact hinj
  · exact hfresh

theorem Step.weaken (hs : Step h root none e₁ d d₁ ρ ρ₁ n) (x : Option Nat) :
    Step h root x e₁ d d₁ ρ ρ₁ n :=
  { hs with old := fun a' ha' _ => hs.old a' ha' (by simp) }

theorem Step.trans (h₁ : Step h root x e₁ d d₁ ρ ρ₁ m) (h₂ : Step h root x e₂ d₁ d₂ ρ₁ ρ₂ n)
    (hx : ∀ a a', ρ₁ a = some a' → ρ a = none → x ≠ some a') :
    Step h root x e₂ d d₂ ρ ρ₂ (m + n) := by
  constructor
  · exact h₂.sim
  · intro a a' ha
    exact h₂.mono a a' (h₁.mono a a' ha)
  · rw [h₂.index, h₁.index, Nat.add_assoc]
  · exact Nat.le_trans h₁.fresh h₂.fresh
  · intro a' ha' hne
    rw [h₂.old a' (Nat.lt_of_lt_of_le ha' h₁.fresh) hne, h₁.old a' ha' hne]
  · intro a a' ha hnone
    cases ha₁ : ρ₁ a with
    | none => exact h₂.new a a' ha ha₁
    | some b =>
      have hb := h₂.mono a b ha₁
      rw [ha] at hb
      cases hb
      rw [h₂.old a' (h₁.sim.fresh a a' ha₁) (hx a a' ha₁ hnone)]
      exact (h₁.new a a' ha₁ hnone).mono h₂.mono
  · intro a a' ha hnone
    cases ha₁ : ρ₁ a with
    | none => exact Nat.le_trans h₁.fresh (h₂.above a a' ha ha₁)
    | some b =>
      have hb := h₂.mono a b ha₁
      rw [ha] at hb
      cases hb
      exact h₁.above a a' ha₁ hnone

end Caches

/-! ## The types -/

section Types

variable {c : Chunks φ} {frame rest : Bytes} {d : Decoder φ} {room : Nat}

theorem deserialize_nil (hat : At frame d.index (binNil :: rest)) :
    deserializeValue c frame (room + 2) d = .ok (.nil, { d with index := d.index + 1 }) := by
  rw [deserializeValue, readByte_eq hat]
  rfl

theorem deserialize_bool (b : Bool)
    (hat : At frame d.index ([binBoolean, if b then 1 else 0] ++ rest)) :
    deserializeValue c frame (room + 2) d = .ok (.bool b, { d with index := d.index + 2 }) := by
  have hat₂ : At frame (d.index + 1) ([if b then 1 else 0] ++ rest) :=
    At.skip (x := [binBoolean]) hat
  rw [deserializeValue, readByte_eq hat]
  have hread := readByte_eq (d := { d with index := d.index + 1 }) hat₂
  show (({ d with index := d.index + 1 } : Decoder φ).readObject frame 1 >>= fun x =>
    Except.ok (Value.bool (x.1.headD 0 != 0), x.2)) = _
  rw [hread]
  cases b with
  | false => rfl
  | true => rfl

theorem deserialize_double (bits : UInt64)
    (hat : At frame d.index (binDouble :: (beBytes 8 bits.toNat ++ rest))) :
    deserializeValue c frame (room + 2) d =
      .ok (.double bits, { d with index := d.index + 9 }) := by
  have hat₂ : At frame (d.index + 1) (beBytes 8 bits.toNat ++ rest) :=
    At.skip (x := [binDouble]) hat
  rw [deserializeValue, readByte_eq hat]
  have hread := readObject_eq (d := { d with index := d.index + 1 }) hat₂ (beBytes_length _ _)
  show (({ d with index := d.index + 1 } : Decoder φ).readObject frame 8 >>= fun x =>
    Except.ok (Value.double (UInt64.ofNat (beValue x.1).toNat), x.2)) = _
  rw [hread]
  have hlt := bits.toNat_lt
  have hval : UInt64.ofNat (beValue (beBytes 8 bits.toNat)).toNat = bits := by
    rw [beValue_beBytes, Int.emod_eq_of_lt (by omega) (by omega), Int.toNat_natCast,
      UInt64.ofNat_toNat]
  show Except.ok (Value.double _, _) = _
  rw [hval]

theorem deserialize_int {n : Int} (hlo : -2 ^ 31 ≤ n) (hhi : n < 2 ^ 31)
    (hat : At frame d.index (binInteger :: (beBytes 4 n ++ rest))) :
    deserializeValue c frame (room + 2) d =
      .ok (.int n, { d with index := d.index + 5 }) := by
  have hat₂ : At frame (d.index + 1) (beBytes 4 n ++ rest) := At.skip (x := [binInteger]) hat
  rw [deserializeValue, readByte_eq hat]
  have hread := readObject_eq (d := { d with index := d.index + 1 }) hat₂ (beBytes_length _ _)
  show (({ d with index := d.index + 1 } : Decoder φ).readObject frame 4 >>= fun x =>
    Except.ok (Value.int (toSigned (2 ^ 31) (beValue x.1)), x.2)) = _
  rw [hread]
  have hval : toSigned (2 ^ 31) (beValue (beBytes 4 n)) = n := by
    rw [beValue_beBytes]
    exact toSigned_emod hlo hhi
  show Except.ok (Value.int _, _) = _
  rw [hval]

theorem deserialize_ref {number : Nat} (hn : number < 2 ^ 16)
    (hat : At frame d.index (refBytes number ++ rest)) :
    deserializeValue c frame (room + 2) d =
      .ok ((d.cache number).getD .nil, { d with index := d.index + 3 }) := by
  have hat₂ : At frame (d.index + 1) (beBytes 2 number ++ rest) := At.skip (x := [binRef]) hat
  rw [deserializeValue, readByte_eq hat]
  have hread := readSize_eq (d := { d with index := d.index + 1 }) hn hat₂
  show (({ d with index := d.index + 1 } : Decoder φ).readSize frame >>= fun x =>
    Except.ok ((x.2.cache x.1).getD .nil, x.2)) = _
  rw [hread]
  rfl

/-- The tag of a sized value, then its length and its data. -/
theorem readSized_eq {tag : UInt8} {s : Bytes} (hs : s.length < 2 ^ 16)
    (hat : At frame d.index (sized tag s.length s ++ rest)) :
    d.readObject frame 1 = .ok ([tag], { d with index := d.index + 1 }) ∧
      ∀ {α : Type} (k : Bytes → Decoder φ → Except String α), (do
        let (size, d) ← ({ d with index := d.index + 1 } : Decoder φ).readSize frame
        let (s, d) ← d.readObject frame size
        k s d) = k s { d with index := d.index + (3 + s.length) } := by
  have hat₁ : At frame d.index (tag :: (beBytes 2 s.length ++ (s ++ rest))) := by
    simpa [sized] using hat
  have hat₂ : At frame (d.index + 1) (beBytes 2 s.length ++ (s ++ rest)) :=
    At.skip (x := [tag]) hat₁
  have hat₃ : At frame (d.index + 1 + 2) (s ++ rest) := by
    have := hat₂.skip
    rwa [beBytes_length] at this
  refine ⟨readByte_eq hat₁, fun k => ?_⟩
  have hdata := readObject_eq (d := { d with index := d.index + 1 + 2 }) hat₃ rfl
  rw [readSize_eq (d := { d with index := d.index + 1 }) hs hat₂]
  show (do
    let (s, d) ← ({ d with index := d.index + 1 + 2 } : Decoder φ).readObject frame s.length
    k s d) = _
  rw [hdata, Nat.add_assoc d.index 1 2, Nat.add_assoc d.index 3]
  rfl

theorem deserialize_string {s : Bytes} (hs : s.length < 2 ^ 16)
    (hat : At frame d.index (sized binString s.length s ++ rest)) :
    deserializeValue c frame (room + 2) d =
      .ok (.string s, ({ d with index := d.index + (3 + s.length) }).addToCache (.string s)) := by
  obtain ⟨hbyte, hread⟩ := readSized_eq hs hat
  rw [deserializeValue, hbyte]
  exact hread fun s d => .ok (Value.string s, d.addToCache (.string s))

def loaded (c : Chunks φ) (s : Bytes) (d : Decoder φ) : Except String (Value × Decoder φ) :=
  match c.load s with
  | .ok f =>
    let (v, d) := d.alloc (.function f)
    .ok (v, d.addToCache v)
  | .error msg => .ok (.string msg, d.addToCache (.string msg))

theorem deserialize_function {s : Bytes} {f : φ} (hf : c.load s = .ok f) (hs : s.length < 2 ^ 16)
    (hat : At frame d.index (sized binFunction s.length s ++ rest)) :
    deserializeValue c frame (room + 2) d =
      .ok (.object d.fresh, (({ d with index := d.index + (3 + s.length) }).alloc
        (.function f)).2.addToCache (.object d.fresh)) := by
  obtain ⟨hbyte, hread⟩ := readSized_eq hs hat
  rw [deserializeValue, hbyte]
  refine (hread (loaded c)).trans ?_
  simp only [loaded, hf]
  rfl

def Decoder.opened (d : Decoder φ) : Decoder φ :=
  (({ d with index := d.index + 3 }).alloc (.table .empty)).2.addToCache (.object d.fresh)

theorem deserialize_table {size : Nat} {entries : Bytes} (hs : size < 2 ^ 16)
    (hat : At frame d.index (sized binTable size entries ++ rest)) {d' : Decoder φ}
    (hentries : readEntries (deserializeValue c frame (room + 1)) (deserializeValue c frame room)
      d.fresh size d.opened = .ok d') :
    deserializeValue c frame (room + 2) d = .ok (.object d.fresh, d') := by
  have hat₁ : At frame d.index (binTable :: (beBytes 2 size ++ (entries ++ rest))) := by
    simpa [sized] using hat
  have hat₂ : At frame (d.index + 1) (beBytes 2 size ++ (entries ++ rest)) :=
    At.skip (x := [binTable]) hat₁
  rw [deserializeValue, readByte_eq hat₁]
  have hread := readSize_eq (d := { d with index := d.index + 1 }) hs hat₂
  show (({ d with index := d.index + 1 } : Decoder φ).readSize frame >>= fun x =>
    readEntries (deserializeValue c frame (room + 1)) (deserializeValue c frame room) x.2.fresh
      x.1 ((x.2.alloc (.table .empty)).2.addToCache (.object x.2.fresh)) >>= fun d' =>
      Except.ok (Value.object x.2.fresh, d')) = _
  rw [hread]
  show (do
    let d' ← readEntries (deserializeValue c frame (room + 1)) (deserializeValue c frame room)
      d.fresh size d.opened
    Except.ok (Value.object d.fresh, d')) = _
  rw [hentries]
  rfl

end Types

/-! ## What was written is read -/

theorem bind_ok {α β : Type} {x : Except String α} {f : α → Except String β} {b : β}
    (h : x >>= f = .ok b) : ∃ a, x = .ok a ∧ f a = .ok b := by
  cases x with
  | error msg => cases h
  | ok a => exact ⟨a, rfl, h⟩

/-- The values that `levels` nested calls serialize are read back wherever they are met. -/
def Reads (c : Chunks φ) (h : Heap φ) (root : Value) (frame : Bytes) (levels : Nat) : Prop :=
  ∀ v e bytes e' d ρ room rest, Reaches h root v →
    serializeValue c h levels v e = .ok (bytes, e') → Sim h root e d ρ →
    At frame d.index (bytes ++ rest) → 2 * levels ≤ room →
    ∃ w d' ρ', deserializeValue c frame room d = .ok (w, d') ∧ Image ρ' v w ∧
      Step h root none e' d d' ρ ρ' bytes.length

section Values

variable {c : Chunks φ} {h : Heap φ} {root v : Value} {frame bytes rest : Bytes}
  {e e' : Encoder} {d : Decoder φ} {ρ : Nat → Option Nat} {levels room : Nat}

theorem Sim.leaf (hs : Sim h root e d ρ) (n : Nat) :
    Step h root none e d { d with index := d.index + n } ρ ρ n where
  sim := hs.congr rfl rfl rfl
  mono := fun _ _ ha => ha
  index := rfl
  fresh := Nat.le_refl _
  old := fun _ _ _ => rfl
  new := by
    intro a a' ha hnone
    rw [ha] at hnone
    cases hnone
  above := by
    intro a a' ha hnone
    rw [ha] at hnone
    cases hnone

variable {number : Nat}

theorem Sim.ref (hs : Sim h root e d ρ) (hn : Narrow h root)
    (href : e.refs v = some number) (hat : At frame d.index (refBytes number ++ rest)) :
    ∃ w, deserializeValue c frame (room + 2) d = .ok (w, { d with index := d.index + 3 }) ∧
      Image ρ v w := by
  obtain ⟨-, hle, w, hcache, himg⟩ := hs.refs v number href
  obtain ⟨l, hnodup, hlen, hmem, -⟩ := hs.seen
  have hlt : number < 2 ^ 16 := by
    have := hn.count l hnodup hmem
    omega
  refine ⟨w, ?_, himg⟩
  rw [deserialize_ref hlt hat, hcache]
  rfl

theorem Sim.string (hs : Sim h root e d ρ) (hn : Narrow h root) {s : Bytes}
    (hreach : Reaches h root (.string s)) (hnew : e.refs (.string s) = none) (n : Nat) :
    Step h root none (e.verifyCache (.string s)).2 d
      (({ d with index := d.index + n }).addToCache (.string s)) ρ ρ n := by
  have hsim : Sim h root
      ⟨update e.refs (.string s) (some ((e.key + 1) % 2 ^ 16)), (e.key + 1) % 2 ^ 16⟩
      (({ d with index := d.index + n } : Decoder φ).addToCache (.string s)) ρ :=
    hs.add hn hreach rfl hnew (fun _ _ ha => ha) rfl (by simp) hs.inj rfl rfl hs.fresh
  have henc : (e.verifyCache (.string s)).2 =
      ⟨update e.refs (.string s) (some ((e.key + 1) % 2 ^ 16)), (e.key + 1) % 2 ^ 16⟩ := by
    simp only [Encoder.verifyCache, hnew]
  rw [henc]
  refine ⟨hsim, fun _ _ ha => ha, rfl, Nat.le_refl _, fun _ _ _ => rfl, ?_, ?_⟩
  · intro a a' ha hnone
    rw [ha] at hnone
    cases hnone
  · intro a a' ha hnone
    rw [ha] at hnone
    cases hnone

theorem Sim.object (hs : Sim h root e d ρ) (hn : Narrow h root) {a : Nat}
    (hreach : Reaches h root (.object a)) (hnew : e.refs (.object a) = none) (o : Obj φ)
    (n : Nat) :
    Sim h root (e.verifyCache (.object a)).2
      ((({ d with index := d.index + n }).alloc o).2.addToCache (.object d.fresh))
      (update ρ a (some d.fresh)) := by
  have henc : (e.verifyCache (.object a)).2 =
      ⟨update e.refs (.object a) (some ((e.key + 1) % 2 ^ 16)), (e.key + 1) % 2 ^ 16⟩ := by
    simp only [Encoder.verifyCache, hnew]
  have hnone : ρ a = none := by
    by_contra hsome
    have := (hs.dom a).mp (Option.isSome_iff_ne_none.mpr hsome)
    rw [hnew] at this
    cases this
  rw [henc]
  refine hs.add hn hreach rfl hnew ?_ ?_ ?_ ?_ rfl rfl ?_
  · intro b b' hb
    have hba : b ≠ a := by
      rintro rfl
      rw [hnone] at hb
      cases hb
    rw [update_of_ne hba]
    exact hb
  · exact ⟨d.fresh, update_self _ _ _, rfl⟩
  · intro b
    by_cases hba : b = a
    · subst hba
      rw [update_self]
      simp
    rw [update_of_ne hba]
    constructor
    · exact Or.inl
    · rintro (h1 | h1)
      · exact h1
      · cases h1
        exact absurd rfl hba
  · intro b b' x hb hb'
    by_cases hba : b = a
    · by_cases hba' : b' = a
      · rw [hba, hba']
      · rw [hba, update_self] at hb
        rw [update_of_ne hba'] at hb'
        cases hb
        exact absurd (hs.fresh b' _ hb') (Nat.lt_irrefl _)
    · rw [update_of_ne hba] at hb
      by_cases hba' : b' = a
      · rw [hba', update_self] at hb'
        cases hb'
        exact absurd (hs.fresh b _ hb) (Nat.lt_irrefl _)
      · rw [update_of_ne hba'] at hb'
        exact hs.inj b b' x hb hb'
  · intro b b' hb
    show b' < d.fresh + 1
    by_cases hba : b = a
    · rw [hba, update_self] at hb
      cases hb
      exact Nat.lt_succ_self _
    · rw [update_of_ne hba] at hb
      exact Nat.lt_succ_of_lt (hs.fresh b b' hb)

/-- The entries of the table at an address are read, after others. -/
theorem readEntries_eq (hreads : Reads c h root frame levels) (hroom : 2 * levels ≤ room)
    {a a' : Nat} {es before : List (Sigma fun _ : Value => Value)} {bytes rest : Bytes}
    {e e' : Encoder} {d : Decoder φ} {ρ : Nat → Option Nat} {t : Table}
    (hes : ∀ k x, ⟨k, x⟩ ∈ es →
      Reaches h root k ∧ Reaches h root x ∧ k.isKey = true ∧ x ≠ .nil)
    (hkeys : (before ++ es).NodupKeys)
    (hwrite : writeEntries (serializeValue c h levels) es e = .ok (bytes, e'))
    (hs : Sim h root e d ρ) (hat : At frame d.index (bytes ++ rest)) (ha : ρ a = some a')
    (ht : d.heap a' = .table t) (himg : EntriesImage ρ before t) :
    ∃ d' ρ' t', readEntries (deserializeValue c frame (room + 1)) (deserializeValue c frame room)
        a' es.length d = .ok d' ∧ Step h root (some a') e' d d' ρ ρ' bytes.length ∧
      d'.heap a' = .table t' ∧ EntriesImage ρ' (before ++ es) t' := by
  induction es generalizing before bytes e d ρ t with
  | nil =>
    cases hwrite
    refine ⟨d, ρ, t, rfl, ?_, ht, ?_⟩
    · exact (hs.leaf 0).weaken _
    · rw [append_nil]
      exact himg
  | cons entry es ih =>
    obtain ⟨k, x⟩ := entry
    obtain ⟨hk, hx, hkey, hne⟩ := hes k x mem_cons_self
    rw [writeEntries] at hwrite
    obtain ⟨⟨bk, e₁⟩, hser₁, hwrite⟩ := bind_ok hwrite
    obtain ⟨⟨bx, e₂⟩, hser₂, hwrite⟩ := bind_ok hwrite
    obtain ⟨⟨bs, e₃⟩, hser₃, hwrite⟩ := bind_ok hwrite
    cases hwrite
    -- the key
    have hat₁ : At frame d.index (bk ++ (bx ++ bs ++ rest)) := by
      simpa [append_assoc] using hat
    obtain ⟨k', d₁, ρ₁, hread₁, himg₁, hstep₁⟩ :=
      hreads k e bk e₁ d ρ (room + 1) _ hk hser₁ hs hat₁ (Nat.le_succ_of_le hroom)
    -- the value
    have hat₂ : At frame d₁.index (bx ++ (bs ++ rest)) := by
      rw [hstep₁.index]
      simpa [append_assoc] using hat₁.skip
    obtain ⟨x', d₂, ρ₂, hread₂, himg₂, hstep₂⟩ :=
      hreads x e₁ bx e₂ d₁ ρ₁ room _ hx hser₂ hstep₁.sim hat₂ hroom
    have hstep₁₂ := hstep₁.trans hstep₂ (by simp)
    -- the table
    have hlt := hs.fresh a a' ha
    have ht₂ : d₂.heap a' = .table t := by
      rw [hstep₁₂.old a' hlt (by simp)]
      exact ht
    have hnew : ∀ y, ⟨k, y⟩ ∉ before := by
      intro y hy
      have hdis := disjoint_of_nodup_append
        (by simpa [List.NodupKeys, List.keys, map_append] using hkeys)
      have hk₁ : k ∈ before.map Sigma.fst := mem_map.mpr ⟨_, hy, rfl⟩
      have hk₂ : k ∈ (⟨k, x⟩ :: es : List (Sigma fun _ : Value => Value)).map Sigma.fst :=
        mem_map.mpr ⟨_, mem_cons_self, rfl⟩
      exact hdis hk₁ hk₂
    obtain ⟨t₃, hset, himg₃⟩ := (himg.mono hstep₁₂.mono).rawset hstep₁₂.sim.inj
      (himg₁.mono hstep₂.mono) himg₂ hkey hne hnew
    have hrawset : d₂.rawset a' k' x' =
        .ok { d₂ with heap := update d₂.heap a' (.table t₃) } := by
      unfold Decoder.rawset
      rw [ht₂]
      show (do
        let t ← t.rawset k' x'
        Except.ok { d₂ with heap := update d₂.heap a' (.table t) }) = _
      rw [hset]
      rfl
    have hstep₃ : Step h root (some a') e₂ d₂
        { d₂ with heap := update d₂.heap a' (.table t₃) } ρ₂ ρ₂ 0 := by
      refine ⟨hstep₂.sim.congr rfl rfl rfl, fun _ _ hb => hb, rfl, Nat.le_refl _, ?_, ?_, ?_⟩
      · intro b _ hb
        refine update_of_ne ?_ _ _
        rintro rfl
        exact hb rfl
      · intro b b' hb hnone
        rw [hb] at hnone
        cases hnone
      · intro b b' hb hnone
        rw [hb] at hnone
        cases hnone
    -- an address given since then is not that of the table
    have hother : ∀ b b', ρ₂ b = some b' → ρ b = none → some a' ≠ some b' := by
      intro b b' hb hnone heq
      cases heq
      have := hstep₁₂.sim.inj a b a' (hstep₁₂.mono a a' ha) hb
      subst this
      rw [ha] at hnone
      cases hnone
    have hstep₁₃ := (hstep₁₂.weaken (some a')).trans hstep₃ hother
    -- the other entries
    have hat₃ : At frame d₂.index (bs ++ rest) := by
      rw [hstep₂.index]
      exact hat₂.skip
    obtain ⟨d₄, ρ₄, t₄, hread₄, hstep₄, ht₄, himg₄⟩ :=
      ih (d := { d₂ with heap := update d₂.heap a' (.table t₃) }) (ρ := ρ₂) (t := t₃)
        (fun y z hyz => hes y z (mem_cons_of_mem _ hyz))
        (by rw [append_assoc]; exact hkeys) hser₃ hstep₃.sim hat₃ (hstep₁₂.mono a a' ha)
        (update_self _ _ _) himg₃
    refine ⟨d₄, ρ₄, t₄, ?_, ?_, ht₄, ?_⟩
    · rw [length_cons, readEntries, hread₁]
      show (deserializeValue c frame room d₁ >>= fun x =>
        x.2.rawset a' k' x.1 >>= readEntries _ _ a' es.length) = _
      rw [hread₂]
      show (do
        let d ← d₂.rawset a' k' x'
        readEntries _ _ a' es.length d) = _
      rw [hrawset]
      exact hread₄
    · have hstep := hstep₁₃.trans hstep₄ hother
      have hlen : (bk ++ bx ++ bs).length = bk.length + bx.length + 0 + bs.length := by
        simp only [length_append]
        omega
      rw [hlen]
      exact hstep
    · rw [append_assoc] at himg₄
      exact himg₄

theorem Sim.function (hs : Sim h root e d ρ) (hn : Narrow h root) {a : Nat} {f : φ}
    (hreach : Reaches h root (.object a)) (hnew : e.refs (.object a) = none)
    (hf : h a = .function f) (n : Nat) :
    Step h root none (e.verifyCache (.object a)).2 d
      ((({ d with index := d.index + n }).alloc (.function f)).2.addToCache (.object d.fresh))
      ρ (update ρ a (some d.fresh)) n := by
  have hsim := hs.object hn hreach hnew (.function f) n
  have hnone : ρ a = none := by
    by_contra hsome
    have := (hs.dom a).mp (Option.isSome_iff_ne_none.mpr hsome)
    rw [hnew] at this
    cases this
  refine ⟨hsim, ?_, rfl, Nat.le_succ _, ?_, ?_, ?_⟩
  · intro b b' hb
    have hba : b ≠ a := by
      rintro rfl
      rw [hnone] at hb
      cases hb
    rw [update_of_ne hba]
    exact hb
  · intro b' hb' _
    exact update_of_ne (Nat.ne_of_lt hb') _ _
  · intro b b' hb hb'
    by_cases hba : b = a
    · subst hba
      rw [update_self] at hb
      cases hb
      show ObjImage _ (h b) (update d.heap d.fresh (.function f) d.fresh)
      rw [update_self, hf]
      rfl
    · rw [update_of_ne hba] at hb
      rw [hb] at hb'
      cases hb'
  · intro b b' hb hb'
    by_cases hba : b = a
    · subst hba
      rw [update_self] at hb
      cases hb
      exact Nat.le_refl _
    · rw [update_of_ne hba] at hb
      rw [hb] at hb'
      cases hb'

/-- A table met for the first time: it is opened, and closed when its entries are read. -/
theorem Sim.table (hs : Sim h root e d ρ) {a : Nat} {t : Table}
    (hnew : e.refs (.object a) = none) (ht : h a = .table t) {d' : Decoder φ} {ρ' : Nat → Option Nat} {t' : Table} {n : Nat}
    (hstep : Step h root (some d.fresh) e' d.opened d' (update ρ a (some d.fresh)) ρ' n)
    (ht' : d'.heap d.fresh = .table t') (himg : EntriesImage ρ' t.map.entries t') :
    Step h root none e' d d' ρ ρ' (3 + n) := by
  have hnone : ρ a = none := by
    by_contra hsome
    have := (hs.dom a).mp (Option.isSome_iff_ne_none.mpr hsome)
    rw [hnew] at this
    cases this
  constructor
  · exact hstep.sim
  · intro b b' hb
    have hba : b ≠ a := by
      rintro rfl
      rw [hnone] at hb
      cases hb
    apply hstep.mono
    rw [update_of_ne hba]
    exact hb
  · rw [hstep.index]
    show d.index + 3 + n = _
    omega
  · exact Nat.le_trans (Nat.le_succ _) hstep.fresh
  · intro b' hb' _
    have hne : some d.fresh ≠ some b' := by
      intro heq
      cases heq
      exact Nat.lt_irrefl _ hb'
    rw [hstep.old b' (Nat.lt_succ_of_lt hb') hne]
    exact update_of_ne (Nat.ne_of_lt hb') _ _
  · intro b b' hb hb'
    by_cases hba : b = a
    · subst hba
      have hself := hstep.mono b d.fresh (update_self _ _ _)
      rw [hb] at hself
      cases hself
      rw [ht, ht']
      exact himg
    · apply hstep.new b b' hb
      rw [update_of_ne hba]
      exact hb'
  · intro b b' hb hb'
    by_cases hba : b = a
    · subst hba
      have hself := hstep.mono b d.fresh (update_self _ _ _)
      rw [hb] at hself
      cases hself
      exact Nat.le_refl _
    · have := hstep.above b b' hb (by rw [update_of_ne hba]; exact hb')
      exact Nat.le_of_succ_le this

theorem verifyCache_some (href : e.refs v = some number) :
    e.verifyCache v = (number, e) := by
  simp only [Encoder.verifyCache, href]

theorem verifyCache_none (hnew : e.refs v = none) : (e.verifyCache v).1 = 0 := by
  simp only [Encoder.verifyCache, hnew]

theorem reads_ref (hs : Sim h root e d ρ) (hn : Narrow h root)
    (href : e.refs v = some number) (hat : At frame d.index (refBytes number ++ rest))
    (hroom : 2 ≤ room) :
    ∃ w d' ρ', deserializeValue c frame room d = .ok (w, d') ∧ Image ρ' v w ∧
      Step h root none e d d' ρ ρ' (refBytes number).length := by
  obtain ⟨room, rfl⟩ : ∃ r, room = r + 2 := ⟨room - 2, by omega⟩
  obtain ⟨w, hread, himg⟩ : ∃ w, deserializeValue c frame (room + 2) d =
      .ok (w, { d with index := d.index + 3 }) ∧ Image ρ v w := hs.ref hn href hat
  refine ⟨w, _, ρ, hread, himg, ?_⟩
  have hlen : (refBytes number).length = 3 := by
    simp [refBytes, beBytes_length]
  rw [hlen]
  exact hs.leaf 3

theorem reads_all (hload : ∀ f s, c.dump f = some s → c.load s = .ok f) (hn : Narrow h root)
    (levels : Nat) : Reads c h root frame levels := by
  induction levels with
  | zero =>
    intro v e bytes e' d ρ room rest _ hser
    cases hser
  | succ levels ih =>
    intro v e bytes e' d ρ room rest hreach hser hs hat hroom
    obtain ⟨room, rfl⟩ : ∃ r, room = r + 2 := ⟨room - 2, by omega⟩
    cases v with
    | nil =>
      cases hser
      exact ⟨.nil, _, ρ, deserialize_nil hat, rfl, hs.leaf 1⟩
    | bool b =>
      cases hser
      exact ⟨.bool b, _, ρ, deserialize_bool b hat, rfl, hs.leaf 2⟩
    | double bits =>
      cases hser
      have hlen : (binDouble :: beBytes 8 (bits.toNat : Int)).length = 9 := by
        rw [length_cons, beBytes_length]
      rw [hlen]
      exact ⟨.double bits, _, ρ, deserialize_double bits hat, rfl, hs.leaf 9⟩
    | int n =>
      cases hser
      obtain ⟨hlo, hhi⟩ := hn.int n hreach
      have hlen : (binInteger :: beBytes 4 n).length = 5 := by
        rw [length_cons, beBytes_length]
      rw [hlen]
      exact ⟨.int n, _, ρ, deserialize_int hlo hhi hat, rfl, hs.leaf 5⟩
    | other type a => cases hser
    | string s =>
      simp only [serializeValue] at hser
      cases href : e.refs (.string s) with
      | some number =>
        rw [verifyCache_some href] at hser
        have hpos := (hs.refs _ _ href).1
        rw [if_pos (by omega)] at hser
        cases hser
        exact reads_ref hs hn href hat (by omega)
      | none =>
        rw [if_neg (by rw [verifyCache_none href]; simp)] at hser
        split at hser
        · cases hser
        rename_i hshort
        cases hser
        refine ⟨.string s, _, ρ, deserialize_string (by omega) hat, rfl, ?_⟩
        have hlen : (sized binString s.length s).length = 3 + s.length := by
          simp only [sized, length_cons, length_append, beBytes_length]
          omega
        rw [hlen]
        exact hs.string hn hreach href (3 + s.length)
    | object a =>
      simp only [serializeValue] at hser
      cases href : e.refs (.object a) with
      | some number =>
        rw [verifyCache_some href] at hser
        have hpos := (hs.refs _ _ href).1
        rw [if_pos (by omega)] at hser
        cases hser
        exact reads_ref hs hn href hat (by omega)
      | none =>
        rw [if_neg (by rw [verifyCache_none href]; simp)] at hser
        cases hobj : h a with
        | function f =>
          rw [hobj] at hser
          cases hdump : c.dump f with
          | none =>
            simp only [hdump] at hser
            cases hser
          | some s =>
            simp only [hdump] at hser
            split at hser
            · cases hser
            rename_i hshort
            cases hser
            refine ⟨_, _, update ρ a (some d.fresh),
              deserialize_function (hload f s hdump) (by omega) hat,
              ⟨d.fresh, update_self _ _ _, rfl⟩, ?_⟩
            have hlen : (sized binFunction s.length s).length = 3 + s.length := by
              simp only [sized, length_cons, length_append, beBytes_length]
              omega
            rw [hlen]
            exact hs.function hn hreach href hobj (3 + s.length)
        | table t =>
          rw [hobj] at hser
          obtain ⟨⟨entries, e₁⟩, hentries, hser⟩ := bind_ok hser
          dsimp only at hser
          split at hser
          · cases hser
          rename_i hshort
          cases hser
          have hes : ∀ k x, ⟨k, x⟩ ∈ t.map.entries →
              Reaches h root k ∧ Reaches h root x ∧ k.isKey = true ∧ x ≠ .nil := by
            intro k x hkx
            have hlook := LuaTable.mem_entries_iff.mp hkx
            refine ⟨hreach.tail ⟨a, t, rfl, hobj, k, x, hlook, Or.inl rfl⟩,
              hreach.tail ⟨a, t, rfl, hobj, k, x, hlook, Or.inr rfl⟩, t.isKey k x hlook,
              t.ne_nil k x hlook⟩
          have hsim := hs.object hn hreach href (.table .empty) 3
          have hat' : At frame d.opened.index (entries ++ rest) := by
            have hat₁ : At frame d.index
                ((binTable :: beBytes 2 t.map.entries.length) ++ (entries ++ rest)) := by
              simpa [sized] using hat
            have := hat₁.skip
            rwa [length_cons, beBytes_length] at this
          have hempty : EntriesImage (update ρ a (some d.fresh)) [] .empty := by
            constructor
            · intro k x hkx
              cases hkx
            · intro k x hlook
              simp [Table.empty] at hlook
          obtain ⟨d', ρ', t', hread, hstep, ht', himg⟩ :=
            readEntries_eq ih (show 2 * levels ≤ room by omega) hes
              (by simpa using t.map.nodupKeys) hentries hsim hat' (update_self _ _ _)
              (show d.opened.heap d.fresh = .table .empty from update_self _ _ _)
              hempty
          refine ⟨.object d.fresh, d', ρ', deserialize_table (by omega) hat hread, ?_, ?_⟩
          · exact ⟨d.fresh, hstep.mono a _ (update_self _ _ _), rfl⟩
          · have hlen : (sized binTable t.map.entries.length entries).length =
                3 + entries.length := by
              simp only [sized, length_cons, length_append, beBytes_length]
              omega
            rw [hlen]
            exact hs.table href hobj hstep ht' himg

end Values

/-! ## Lists of values -/

/-- Isomorphic values, of which the second one leads to addresses in a range only. -/
def IsomorphicIn (lo hi : Nat) (h h' : Heap φ) (v v' : Value) : Prop :=
  ∃ ρ : Nat → Option Nat, (∀ a a', ρ a = some a' → lo ≤ a' ∧ a' < hi) ∧
    (∀ a b a', ρ a = some a' → ρ b = some a' → a = b) ∧
    Image ρ v v' ∧ ∀ a a', ρ a = some a' → ObjImage ρ (h a) (h' a')

section Lists

variable {c : Chunks φ} {h h' h'' : Heap φ} {v v' : Value} {frame bytes rest : Bytes}
  {d : Decoder φ} {levels room m n : Nat}

theorem IsomorphicIn.isomorphic (hiso : IsomorphicIn m n h h' v v') :
    Isomorphic h h' v v' := by
  obtain ⟨ρ, -, hinj, himg, hobj⟩ := hiso
  exact ⟨ρ, hinj, himg, hobj⟩

theorem IsomorphicIn.later {lo hi : Nat} (hiso : IsomorphicIn m n h h' v v') (hlo : lo ≤ m)
    (hhi : n ≤ hi) (hold : ∀ a, a < n → h'' a = h' a) : IsomorphicIn lo hi h h'' v v' := by
  obtain ⟨ρ, hbelow, hinj, himg, hobj⟩ := hiso
  refine ⟨ρ, ?_, hinj, himg, ?_⟩
  · intro a a' ha
    obtain ⟨h1, h2⟩ := hbelow a a' ha
    exact ⟨Nat.le_trans hlo h1, Nat.lt_of_lt_of_le h2 hhi⟩
  · intro a a' ha
    rw [hold a' (hbelow a a' ha).2]
    exact hobj a a' ha

theorem sim_init (root : Value) (hkey : d.key = 0) :
    Sim h root .init d fun _ => none := by
  refine ⟨⟨[], nodup_nil, rfl, ?_, ?_⟩, hkey, ?_, ?_, ?_, ?_⟩
  · intro w hw
    cases hw
  · intro w
    simp [Encoder.init]
  · intro w n hw
    cases hw
  · intro a
    simp [Encoder.init]
  · intro a b a' ha
    cases ha
  · intro a a' ha
    cases ha

variable {e : Encoder}

/-- One value, read with an empty cache. -/
theorem deserializeValue_eq (hload : ∀ f s, c.dump f = some s → c.load s = .ok f)
    (hn : Narrow h v) (hser : serializeValue c h levels v .init = .ok (bytes, e))
    (hkey : d.key = 0) (hat : At frame d.index (bytes ++ rest))
    (hroom : 2 * levels ≤ room) :
    ∃ w d', deserializeValue c frame room d = .ok (w, d') ∧
      d'.index = d.index + bytes.length ∧ d.fresh ≤ d'.fresh ∧
      (∀ a, a < d.fresh → d'.heap a = d.heap a) ∧
      IsomorphicIn d.fresh d'.fresh h d'.heap v w := by
  obtain ⟨w, d', ρ, hread, himg, hstep⟩ := reads_all hload hn levels v .init bytes e d
    (fun _ => none) room rest .refl hser (sim_init v hkey) hat hroom
  refine ⟨w, d', hread, hstep.index, hstep.fresh, fun a ha => hstep.old a ha (by simp), ?_⟩
  exact ⟨ρ, fun a a' ha => ⟨hstep.above a a' ha rfl, hstep.sim.fresh a a' ha⟩, hstep.sim.inj,
    himg, fun a a' ha => hstep.new a a' ha rfl⟩

theorem lt_of_deserializeValue {r : Value × Decoder φ}
    (hread : deserializeValue c frame room d = .ok r) : d.index < frame.length := by
  by_contra hge
  match room with
  | 0 => cases hread
  | 1 => cases hread
  | room + 2 =>
    have herr : d.readObject frame 1 = .error "cannot deserialize: end of string" := by
      unfold Decoder.readObject
      rw [if_pos (by omega)]
    rw [deserializeValue, herr] at hread
    cases hread

end Lists

def plain : Chunks Bytes := ⟨some, .ok⟩

end Mihini.LuaToBin
