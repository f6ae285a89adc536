import Mihini.LuaToBin.Roundtrip

/-!
# What follows a value does not matter

A value that is read from a frame is read the same from a longer one, and takes a byte at
least.
-/

open Mihini.Lib Lib.Bytes

namespace Mihini.LuaToBin

variable {φ : Type} {frame : Bytes} {d : Decoder φ}

theorem readObject_longer {call : Nat} {r : Bytes × Decoder φ} (ext : Bytes)
    (h : d.readObject frame call = .ok r) :
    d.readObject (frame ++ ext) call = .ok r ∧ r.2.index = d.index + call := by
  unfold Decoder.readObject at h ⊢
  split at h
  · cases h
  rename_i hle
  cases h
  have hlen : ¬ (frame ++ ext).length < d.index + call := by
    rw [List.length_append]
    omega
  have hdrop : ((frame ++ ext).drop d.index).take call = (frame.drop d.index).take call := by
    rw [List.drop_append_of_le_length (by omega),
      List.take_append_of_le_length (by rw [List.length_drop]; omega)]
  rw [if_neg hlen, hdrop]
  exact ⟨rfl, rfl⟩

theorem readSize_longer {r : Nat × Decoder φ} (ext : Bytes) (h : d.readSize frame = .ok r) :
    d.readSize (frame ++ ext) = .ok r ∧ r.2.index = d.index + 2 := by
  unfold Decoder.readSize at h ⊢
  obtain ⟨⟨b, d₁⟩, hread, h⟩ := bind_ok h
  obtain ⟨hread', hindex⟩ := readObject_longer ext hread
  cases h
  rw [hread']
  exact ⟨rfl, hindex⟩

variable {r : Value × Decoder φ}

theorem readThen_longer {call : Nat} (ext : Bytes) (f : Bytes → Value)
    (h : (d.readObject frame call >>= fun p => Except.ok (f p.1, p.2)) = .ok r) :
    (d.readObject (frame ++ ext) call >>= fun p => Except.ok (f p.1, p.2)) = .ok r ∧
      d.index ≤ r.2.index := by
  obtain ⟨⟨b, d₁⟩, hread, h⟩ := bind_ok h
  obtain ⟨hread', hindex⟩ := readObject_longer ext hread
  cases h
  rw [hread']
  have hle : d.index ≤ d₁.index := Nat.le.intro hindex.symm
  exact ⟨rfl, hle⟩

theorem rawset_index {a : Nat} {k v : Value} {d' : Decoder φ} (h : d.rawset a k v = .ok d') :
    d'.index = d.index := by
  unfold Decoder.rawset at h
  split at h
  · obtain ⟨t, -, h⟩ := bind_ok h
    cases h
    rfl
  · cases h
    rfl

def Longer (read read' : Decoder φ → Except String (Value × Decoder φ)) : Prop :=
  ∀ d r, read d = .ok r → read' d = .ok r ∧ d.index ≤ r.2.index

theorem readEntries_longer {key key' value value' : Decoder φ → Except String (Value × Decoder φ)}
    (hkey : Longer key key') (hvalue : Longer value value') {a size : Nat} {d' : Decoder φ}
    (h : readEntries key value a size d = .ok d') :
    readEntries key' value' a size d = .ok d' ∧ d.index ≤ d'.index := by
  induction size generalizing d with
  | zero =>
    cases h
    exact ⟨rfl, Nat.le_refl _⟩
  | succ size ih =>
    rw [readEntries] at h
    obtain ⟨⟨k, d₁⟩, hk, h⟩ := bind_ok h
    obtain ⟨⟨v, d₂⟩, hv, h⟩ := bind_ok h
    obtain ⟨d₃, hset, h⟩ := bind_ok h
    obtain ⟨hk', hle₁⟩ := hkey d _ hk
    obtain ⟨hv', hle₂⟩ := hvalue d₁ _ hv
    obtain ⟨hrest, hle₃⟩ := ih h
    have hindex := rawset_index hset
    constructor
    · rw [readEntries, hk']
      show (value' d₁ >>= fun x => x.2.rawset a k x.1 >>= readEntries key' value' a size) = _
      rw [hv']
      show (do
        let d ← d₂.rawset a k v
        readEntries key' value' a size d) = _
      rw [hset]
      exact hrest
    · dsimp only at hle₁ hle₂
      omega

theorem ok_bind {α β : Type} (a : α) (f : α → Except String β) : (Except.ok a >>= f) = f a := rfl

theorem deserializeValue_longer_step (c : Chunks φ) (ext : Bytes) {room : Nat}
    (hvalue : Longer (deserializeValue c frame room) (deserializeValue c (frame ++ ext) room))
    (hkey : Longer (deserializeValue c frame (room + 1))
      (deserializeValue c (frame ++ ext) (room + 1)))
    (h : deserializeValue c frame (room + 2) d = .ok r) :
    deserializeValue c (frame ++ ext) (room + 2) d = .ok r ∧ d.index < r.2.index := by
  rw [deserializeValue] at h
  obtain ⟨⟨b, d₁⟩, hread, h⟩ := bind_ok h
  obtain ⟨hread', hindex⟩ := readObject_longer ext hread
  rw [deserializeValue, hread', ok_bind]
  dsimp only at h hindex ⊢
  by_cases hnil : b.headD 0 = binNil
  · rw [if_pos hnil] at h ⊢
    cases h
    exact ⟨rfl, by dsimp only; omega⟩
  rw [if_neg hnil] at h ⊢
  by_cases hbool : b.headD 0 = binBoolean
  · rw [if_pos hbool] at h ⊢
    obtain ⟨h', hi⟩ :=
      readThen_longer ext (fun b => .bool (b.headD 0 != 0)) h
    exact ⟨h', by omega⟩
  rw [if_neg hbool] at h ⊢
  by_cases hdouble : b.headD 0 = binDouble
  · rw [if_pos hdouble] at h ⊢
    obtain ⟨h', hi⟩ :=
      readThen_longer ext (fun b => .double (UInt64.ofNat (beValue b).toNat)) h
    exact ⟨h', by omega⟩
  rw [if_neg hdouble] at h ⊢
  by_cases hint : b.headD 0 = binInteger
  · rw [if_pos hint] at h ⊢
    obtain ⟨h', hi⟩ :=
      readThen_longer ext (fun b => .int (toSigned (2 ^ 31) (beValue b))) h
    exact ⟨h', by omega⟩
  rw [if_neg hint] at h ⊢
  by_cases href : b.headD 0 = binRef
  · rw [if_pos href] at h ⊢
    obtain ⟨⟨number, d₂⟩, hr, h⟩ := bind_ok h
    obtain ⟨hr', hi⟩ := readSize_longer ext hr
    cases h
    rw [hr']
    exact ⟨rfl, by dsimp only at hi ⊢; omega⟩
  rw [if_neg href] at h ⊢
  by_cases hstring : b.headD 0 = binString
  · rw [if_pos hstring] at h ⊢
    obtain ⟨⟨size, d₂⟩, hr, h⟩ := bind_ok h
    obtain ⟨hr', hi⟩ := readSize_longer ext hr
    obtain ⟨⟨s, d₃⟩, hs, h⟩ := bind_ok h
    obtain ⟨hs', hj⟩ := readObject_longer ext hs
    cases h
    rw [hr', ok_bind]
    dsimp only at hs' hi hj ⊢
    rw [hs']
    exact ⟨rfl, by show d.index < d₃.index; omega⟩
  rw [if_neg hstring] at h ⊢
  by_cases hfunction : b.headD 0 = binFunction
  · rw [if_pos hfunction] at h ⊢
    obtain ⟨⟨size, d₂⟩, hr, h⟩ := bind_ok h
    obtain ⟨hr', hi⟩ := readSize_longer ext hr
    obtain ⟨⟨s, d₃⟩, hs, h⟩ := bind_ok h
    obtain ⟨hs', hj⟩ := readObject_longer ext hs
    rw [hr', ok_bind]
    dsimp only at hs' hi hj h ⊢
    rw [hs', ok_bind]
    dsimp only
    refine ⟨h, ?_⟩
    have hr₃ : r.2.index = d₃.index := by
      split at h
      · cases h
        rfl
      · cases h
        rfl
    omega
  rw [if_neg hfunction] at h ⊢
  by_cases htable : b.headD 0 = binTable
  · rw [if_pos htable] at h ⊢
    obtain ⟨⟨size, d₂⟩, hr, h⟩ := bind_ok h
    obtain ⟨hr', hi⟩ := readSize_longer ext hr
    dsimp only at h
    obtain ⟨d₃, hentries, h⟩ := bind_ok h
    obtain ⟨hentries', hj⟩ := readEntries_longer hkey hvalue hentries
    cases h
    rw [hr', ok_bind]
    dsimp only at hi ⊢
    rw [hentries', ok_bind]
    refine ⟨rfl, ?_⟩
    have hj' : d₂.index ≤ d₃.index := hj
    omega
  rw [if_neg htable] at h
  cases h

theorem deserializeValue_longer (c : Chunks φ) (ext : Bytes) (room : Nat)
    (h : deserializeValue c frame room d = .ok r) :
    deserializeValue c (frame ++ ext) room d = .ok r ∧ d.index < r.2.index := by
  have hboth : (∀ d r, deserializeValue c frame room d = .ok r →
        deserializeValue c (frame ++ ext) room d = .ok r ∧ d.index < r.2.index) ∧
      ∀ d r, deserializeValue c frame (room + 1) d = .ok r →
        deserializeValue c (frame ++ ext) (room + 1) d = .ok r ∧ d.index < r.2.index := by
    clear h
    induction room with
    | zero =>
      constructor
      · intro d r h
        cases h
      · intro d r h
        cases h
    | succ room ih =>
      have hweak : ∀ room, (∀ d r, deserializeValue c frame room d = .ok r →
          deserializeValue c (frame ++ ext) room d = .ok r ∧ d.index < r.2.index) →
          Longer (deserializeValue c frame room) (deserializeValue c (frame ++ ext) room) :=
        fun room hall d r h => ⟨(hall d r h).1, Nat.le_of_lt (hall d r h).2⟩
      refine ⟨ih.2, ?_⟩
      intro d r h
      exact deserializeValue_longer_step c ext (hweak _ ih.1) (hweak _ ih.2) h
  exact hboth.1 d r h

theorem deserializeLoop_longer (c : Chunks φ) (ext : Bytes) {room n : Nat} {d d' : Decoder φ}
    {vs : List Value} (hlen : vs.length = n)
    (h : deserializeLoop c frame room (some n) d = .ok (vs, d')) :
    deserializeLoop c (frame ++ ext) room (some n) d = .ok (vs, d') := by
  induction room generalizing n d vs with
  | zero =>
    rw [deserializeLoop] at h ⊢
    split at h
    · cases h
    · cases h
      rw [← hlen, List.length_nil, if_neg fun hmore => hmore.2 rfl]
  | succ room ih =>
    rw [deserializeLoop] at h ⊢
    split at h
    · next hmore =>
      obtain ⟨⟨v, d₁⟩, hv, h⟩ := bind_ok h
      obtain ⟨⟨us, d₂⟩, hus, h⟩ := bind_ok h
      cases h
      have hlt : d.index < (frame ++ ext).length := by
        rw [List.length_append]
        exact Nat.lt_add_right _ hmore.1
      have hrest := ih (n := n - 1) (by rw [← hlen]; rfl) hus
      rw [if_pos ⟨hlt, hmore.2⟩, (deserializeValue_longer c ext _ hv).1, ok_bind]
      exact congrArg (· >>= _) hrest
    · cases h
      rw [← hlen, List.length_nil, if_neg fun hmore => hmore.2 rfl]

/-- As many objects as are asked for do not depend on what follows them. -/
theorem deserialize_longer (c : Chunks φ) (ext : Bytes) {nobj offset next : Nat}
    {mem mem' : Memory φ} {vs : List Value} (hlen : (frame ++ ext).length < 2 ^ 31)
    (hall : vs.length = nobj)
    (h : deserialize c frame (some nobj) offset mem = .ok (next, vs, mem')) :
    deserialize c (frame ++ ext) (some nobj) offset mem = .ok (next, vs, mem') := by
  have hframe : frame.length < 2 ^ 31 := by
    rw [List.length_append] at hlen
    omega
  rw [deserialize, if_neg (Nat.not_le.mpr hframe)] at h
  rw [deserialize, if_neg (Nat.not_le.mpr hlen)]
  obtain ⟨⟨us, d⟩, hloop, h⟩ := bind_ok h
  cases h
  exact congrArg (· >>= _) (deserializeLoop_longer c ext hall hloop)

theorem deserialize_longer_bool :
    deserialize plain ([binBoolean, 1] ++ [binNil]) (some 1) 1 .empty =
      .ok (3, [.bool true], .empty) := by
  apply deserialize_longer plain [binNil]
  · decide
  · rfl
  · rfl

end Mihini.LuaToBin
