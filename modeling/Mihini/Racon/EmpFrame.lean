import Mihini.Lib.Bytes

/-!
# EMP messages on the wire

`src/luafwk/racon/empparser.lua`: the strings `sendcmd` and `execcmd` build, and the
receptions of `parse` that take such a string apart.
-/

namespace Mihini.Racon

open Lib.Bytes List

inductive Kind
  | command
  | response (status : UInt16)
  deriving DecidableEq, Repr

structure Message where
  cmd : UInt16
  kind : Kind
  rid : UInt8
  payload : List UInt8
  deriving DecidableEq, Repr

/-- The fields of the format `">HbbI"`. -/
structure Header where
  cmd : UInt16
  type : UInt8
  rid : UInt8
  size : Nat
  deriving DecidableEq, Repr

namespace Header

def pack (h : Header) : List UInt8 :=
  beBytes 2 h.cmd.toNat ++ (beBytes 1 h.type.toNat ++ (beBytes 1 h.rid.toNat ++ beBytes 4 h.size))

def unpack (l : List UInt8) : Header where
  cmd := UInt16.ofNat (beValue (l.take 2)).toNat
  type := UInt8.ofNat (beValue ((l.drop 2).take 1)).toNat
  rid := UInt8.ofNat (beValue ((l.drop 3).take 1)).toNat
  size := (beValue (l.drop 4)).toNat

theorem pack_length (h : Header) : h.pack.length = 8 := by
  simp only [pack, length_append, beBytes_length]

theorem take_beBytes (n : Nat) (x : Int) (l : List UInt8) : (beBytes n x ++ l).take n = beBytes n x :=
  take_left' (beBytes_length n x)

theorem drop_beBytes (n : Nat) (x : Int) (l : List UInt8) : (beBytes n x ++ l).drop n = l :=
  drop_left' (beBytes_length n x)

theorem value_toNat {n k : Nat} (hk : k < 256 ^ n) : (beValue (beBytes n k)).toNat = k := by
  have hk' : (k : Int) < 256 ^ n := by exact_mod_cast hk
  rw [beValue_beBytes, Int.emod_eq_of_lt (Int.natCast_nonneg k) hk', Int.toNat_natCast]

theorem unpack_pack {h : Header} (hsize : h.size < 256 ^ 4) : unpack h.pack = h := by
  have hdrop3 : h.pack.drop 3 = beBytes 1 h.rid.toNat ++ beBytes 4 h.size := by
    show h.pack.drop (2 + 1) = _
    rw [← drop_drop, pack, drop_beBytes, drop_beBytes]
  have hdrop4 : h.pack.drop 4 = beBytes 4 h.size := by
    show h.pack.drop (3 + 1) = _
    rw [← drop_drop, hdrop3, drop_beBytes]
  rw [unpack, hdrop3, hdrop4, pack, take_beBytes, drop_beBytes, take_beBytes, take_beBytes,
    value_toNat h.cmd.toNat_lt, value_toNat h.type.toNat_lt, value_toNat h.rid.toNat_lt,
    value_toNat hsize, UInt16.ofNat_toNat, UInt8.ofNat_toNat, UInt8.ofNat_toNat]

end Header

namespace Message

def header (m : Message) : Header :=
  match m.kind with
  | .command => ⟨m.cmd, 0, m.rid, m.payload.length⟩
  | .response _ => ⟨m.cmd, 1, m.rid, 2 + m.payload.length⟩

def status (m : Message) : List UInt8 :=
  match m.kind with
  | .command => []
  | .response status => beBytes 2 status.toNat

def pack (m : Message) : List UInt8 := m.header.pack ++ (m.status ++ m.payload)

def Fits (m : Message) : Prop := m.header.size < 256 ^ 4

instance (m : Message) : Decidable m.Fits := inferInstanceAs (Decidable (_ < _))

theorem pack_pos (m : Message) : 0 < m.pack.length := by
  rw [pack, length_append, Header.pack_length]
  omega

end Message

/-! ## The reading task -/

inductive Stage
  | header
  | status (h : Header)
  | payload (h : Header) (kind : Kind) (size : Nat)
  deriving DecidableEq, Repr

namespace Stage

def wants : Stage → Nat
  | .header => 8
  | .status _ => 2
  | .payload _ _ size => size

/-- From the status on: an empty payload is not received. -/
def body (h : Header) (kind : Kind) (size : Nat) : Stage × List Message :=
  if 0 < size then (.payload h kind size, []) else (.header, [⟨h.cmd, kind, h.rid, []⟩])

/-- What `parse` does with the bytes received: its next reception, and the message if this
one was the last of it. -/
def next : Stage → List UInt8 → Stage × List Message
  | .header, b =>
    let h := Header.unpack b
    if h.type % 2 = 1 then
      if h.size < 2 then body h (.response 0) h.size else (.status h, [])
    else body h .command h.size
  | .status h, b => body h (.response (UInt16.ofNat (beValue b).toNat)) (h.size - 2)
  | .payload h kind _, b => (.header, [⟨h.cmd, kind, h.rid, b⟩])

/-- The reception is part of the first of the messages, `done` being what was received of
that message before. -/
def Within : Stage → List Message → List UInt8 → Prop
  | .header, _, done => done = []
  | .status h, ms, done =>
    ∃ m rest status, ms = m :: rest ∧ m.kind = .response status ∧ h = m.header ∧
      done = m.header.pack
  | .payload h kind size, ms, done =>
    ∃ m rest, ms = m :: rest ∧ h = m.header ∧ kind = m.kind ∧ size = m.payload.length ∧
      0 < size ∧ done = m.header.pack ++ m.status

structure Follows (stage : Stage) (ms : List Message) (done b : List UInt8) : Prop where
  within : stage.Within ms done
  initial : done ++ b <+: ms.flatMap Message.pack

def Proceeds (out : Stage × List Message) (ms : List Message) (received : List UInt8) : Prop :=
  ∃ left done, ms = out.2 ++ left ∧ out.1.Within left done ∧
    received = out.2.flatMap Message.pack ++ done

theorem proceeds_body {m : Message} {rest : List Message} :
    Proceeds (body m.header m.kind m.payload.length) (m :: rest) (m.header.pack ++ m.status) := by
  have hfields : (⟨m.header.cmd, m.kind, m.header.rid, []⟩ : Message) =
      ⟨m.cmd, m.kind, m.rid, []⟩ := by
    rw [Message.header]
    cases m.kind <;> rfl
  rw [body]
  split
  · next hpos =>
    exact ⟨m :: rest, m.header.pack ++ m.status, rfl, ⟨m, rest, rfl, rfl, rfl, rfl, hpos, rfl⟩,
      rfl⟩
  · next hempty =>
    have hpayload : m.payload = [] := length_eq_zero_iff.mp (Nat.eq_zero_of_not_pos hempty)
    have hm : (⟨m.cmd, m.kind, m.rid, []⟩ : Message) = m := by rw [← hpayload]
    rw [hfields, hm]
    refine ⟨rest, [], rfl, rfl, ?_⟩
    show _ = m.pack ++ [] ++ []
    rw [append_nil, append_nil, Message.pack, hpayload, append_nil]

theorem eq_of_initial {a b c d l : List UInt8} (h : a ++ b <+: (a ++ (c ++ d)) ++ l)
    (hlength : b.length = c.length) : b = c := by
  rw [append_assoc, prefix_append_right_inj, append_assoc] at h
  have htake := prefix_iff_eq_take.mp h
  rw [htake, hlength, take_left']
  rfl

variable {ms : List Message} {stage : Stage}

theorem Follows.proceeds {done b : List UInt8}
    (h : stage.Follows ms done b) (hfits : ∀ m ∈ ms, m.Fits)
    (hlength : b.length = stage.wants) : Proceeds (stage.next b) ms (done ++ b) := by
  obtain ⟨hwithin, hinitial⟩ := h
  cases stage with
  | header =>
    have hdone : done = [] := hwithin
    rw [hdone, nil_append] at hinitial ⊢
    cases ms with
    | nil =>
      have hb : b = [] := prefix_nil.mp hinitial
      rw [hb] at hlength
      cases hlength
    | cons m rest =>
      have hb : b = m.header.pack :=
        eq_of_initial (a := []) hinitial (hlength.trans (Header.pack_length _).symm)
      have hheader : Header.unpack b = m.header := by
        rw [hb]
        exact Header.unpack_pack (hfits m (mem_cons_self ..))
      show Proceeds (if (Header.unpack b).type % 2 = 1 then _ else _) _ _
      rw [hheader]
      cases hkind : m.kind with
      | command =>
        have htype : m.header.type = 0 := by rw [Message.header, hkind]
        have hsize : m.header.size = m.payload.length := by rw [Message.header, hkind]
        have hstatus : m.status = [] := by rw [Message.status, hkind]
        have hbody : Proceeds (body m.header m.kind m.payload.length) (m :: rest) _ :=
          proceeds_body
        rw [hkind, hstatus, append_nil] at hbody
        rw [htype, if_neg (by decide), hsize, hb]
        exact hbody
      | response status =>
        have htype : m.header.type = 1 := by rw [Message.header, hkind]
        have hsize : m.header.size = 2 + m.payload.length := by rw [Message.header, hkind]
        rw [htype, if_pos (by decide), if_neg (by omega), hb]
        exact ⟨m :: rest, m.header.pack, rfl, ⟨m, rest, status, rfl, hkind, rfl, rfl⟩, rfl⟩
  | status h =>
    obtain ⟨m, rest, status, rfl, hkind, rfl, rfl⟩ := hwithin
    have hstatus : m.status = beBytes 2 status.toNat := by rw [Message.status, hkind]
    have hsize : m.header.size - 2 = m.payload.length := by
      rw [Message.header, hkind]
      exact Nat.add_sub_cancel_left 2 _
    have hb : b = m.status := by
      refine eq_of_initial hinitial ?_
      rw [hstatus, beBytes_length]
      exact hlength
    have hbody : Proceeds (body m.header m.kind m.payload.length) (m :: rest) _ :=
      proceeds_body
    show Proceeds (body m.header (.response (UInt16.ofNat (beValue b).toNat))
      (m.header.size - 2)) _ _
    rw [hsize, hb]
    rw [hkind] at hbody
    rw [hstatus] at hbody ⊢
    rw [Header.value_toNat status.toNat_lt, UInt16.ofNat_toNat]
    exact hbody
  | payload h kind size =>
    obtain ⟨m, rest, rfl, rfl, rfl, rfl, -, rfl⟩ := hwithin
    have hb : b = m.payload := by
      refine eq_of_initial (a := m.header.pack ++ m.status) (d := [])
        (l := rest.flatMap Message.pack) ?_ hlength
      rw [append_nil, append_assoc m.header.pack]
      exact hinitial
    have hm : (⟨m.header.cmd, m.kind, m.header.rid, b⟩ : Message) = m := by
      rw [hb, Message.header]
      cases m with
      | mk cmd kind rid payload => cases kind <;> rfl
    show Proceeds (.header, [⟨m.header.cmd, m.kind, m.header.rid, b⟩]) _ _
    rw [hm]
    refine ⟨rest, [], rfl, rfl, ?_⟩
    show _ = m.pack ++ [] ++ []
    rw [append_nil, append_nil, Message.pack, hb, append_assoc]

theorem Within.append {done : List UInt8}
    (h : stage.Within ms done) (more : List Message) : stage.Within (ms ++ more) done := by
  cases stage with
  | header => exact h
  | status h' =>
    obtain ⟨m, rest, status, rfl, hkind, hheader, hdone⟩ := h
    exact ⟨m, rest ++ more, status, rfl, hkind, hheader, hdone⟩
  | payload h' kind size =>
    obtain ⟨m, rest, rfl, hheader, hkind, hsize, hpos, hdone⟩ := h
    exact ⟨m, rest ++ more, rfl, hheader, hkind, hsize, hpos, hdone⟩

theorem Within.wants_pos {done : List UInt8}
    (h : stage.Within ms done) : 0 < stage.wants := by
  cases stage with
  | header => exact Nat.zero_lt_succ 7
  | status h' => exact Nat.zero_lt_succ 1
  | payload h' kind size =>
    obtain ⟨m, rest, -, -, -, -, hpos, -⟩ := h
    exact hpos

theorem Within.eq_nil {done b : List UInt8}
    (h : stage.Within ms done) (hlt : b.length < stage.wants)
    (hall : done ++ b = ms.flatMap Message.pack) : ms = [] := by
  cases ms with
  | nil => rfl
  | cons m rest =>
    have hlength := congrArg List.length hall
    rw [flatMap_cons, Message.pack] at hlength
    simp only [length_append, Header.pack_length] at hlength
    cases stage with
    | header =>
      have hdone : done = [] := h
      rw [hdone] at hlength
      simp only [length_nil, wants] at hlength hlt
      omega
    | status h' =>
      obtain ⟨m', rest', status, heq, hkind, rfl, rfl⟩ := h
      obtain ⟨rfl, rfl⟩ := List.cons.inj heq
      have hstatus : m.status.length = 2 := by
        rw [Message.status, hkind]
        exact beBytes_length 2 _
      rw [Header.pack_length] at hlength
      simp only [wants] at hlt
      omega
    | payload h' kind size =>
      obtain ⟨m', rest', heq, rfl, rfl, rfl, hpos, rfl⟩ := h
      obtain ⟨rfl, rfl⟩ := List.cons.inj heq
      rw [length_append, Header.pack_length] at hlength
      simp only [wants] at hlt
      omega

end Stage

end Mihini.Racon
