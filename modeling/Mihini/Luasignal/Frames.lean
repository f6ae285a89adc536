import Mathlib.Algebra.Group.Nat.Defs
import Mathlib.Algebra.GroupWithZero.Nat
import Mathlib.Data.List.Basic
import Mihini.Lib.Recv

/-!
# The frames of the signal library

`src/libs/luasignal/luasignal.c`: the frame of a signal, and `reader_routine`, over the pieces in which
`recv` gets the bytes of a connection that is closed at their end.
-/

namespace Mihini.Luasignal

open Mihini.Lib

abbrev Bytes := List UInt8

/-! ## Writing -/

/-- What `send_header` sends: `htons` of the low bits of `size`. -/
def header (size : Nat) : Bytes := [UInt8.ofNat (size / 256), UInt8.ofNat size]

/-- `send_binary_so`, and `send_text_so` for the bytes before the terminator. -/
def sendSo : Option Bytes → Bytes
  | none => []
  | some so => header so.length ++ so

def sizeOf : Option Bytes → Nat
  | none => 0
  | some so => so.length + 2

/-- `send_text_frame` and `send_binary_frame`, which differ in how the lengths of `so` are found. -/
def sendFrame (so0 so1 : Option Bytes) (so : List Bytes) : Bytes :=
  header (sizeOf so0 + sizeOf so1 + (so.map fun x => sizeOf (some x)).sum) ++
    (sendSo so0 ++ sendSo so1 ++ so.flatMap fun x => sendSo (some x))

structure Signal where
  emitter : Bytes
  event : Bytes
  args : List Bytes
  deriving DecidableEq

def Signal.frame (s : Signal) : Bytes := sendFrame (some s.emitter) (some s.event) s.args

/-- What `LUASIGNAL_SignalT` and `LUASIGNAL_SignalB` send; `none` would be a refusal. -/
def signal (s : Signal) : Option Bytes := some s.frame

/-! ## Reading -/

abbrev Pieces := List Bytes

def readHeader (ps : Pieces) : Option (Nat × Pieces) :=
  match recv 2 ps with
  | ([hi, lo], rest) => some (256 * hi.toNat + lo.toNat, rest)
  | _ => none

inductive So where
  | failed
  | overflow
  /-- The connection is closed after the header: the result is zero, and nothing is set. -/
  | nothing (rest : Pieces)
  | read (so : Bytes) (rest : Pieces)

/-- `read_so`, with `room` bytes from `*buf` to the end of the buffer. -/
def readSo (room : Nat) (ps : Pieces) : So :=
  match readHeader ps with
  | none => .failed
  | some (s, ps) =>
    let got := recv s ps
    if room < got.1.length then .overflow
    else if got.1.length = s then
      -- The terminator follows the string.
      if room < s + 1 then .overflow else .read got.1 got.2
    else if got.1 = [] then .nothing got.2
    else .failed

inductive Frame where
  | stop
  | overflow
  | unread
  | call (s : Signal) (rest : Pieces)

variable {ps rest : Pieces}

theorem readHeader_lt {n : Nat} (h : readHeader ps = some (n, rest)) :
    rest.flatten.length + 2 = ps.flatten.length := by
  have hlength := length_recv_add 2 ps
  unfold readHeader at h
  split at h
  · rename_i hi lo rest' heq
    rw [heq] at hlength
    obtain ⟨-, rfl⟩ := Prod.mk.inj (Option.some.inj h)
    exact (Nat.add_comm _ _).trans hlength
  · cases h

variable {room : Nat}

theorem readSo_read_lt {so : Bytes}
    (h : readSo room ps = .read so rest) : rest.flatten.length < ps.flatten.length := by
  unfold readSo at h
  cases hheader : readHeader ps with
  | none =>
    rw [hheader] at h
    cases h
  | some x =>
    have hlt := readHeader_lt hheader
    have hlength := length_recv_add x.1 x.2
    simp only [hheader] at h
    split_ifs at h
    obtain ⟨-, rfl⟩ := So.read.inj h
    omega

theorem readSo_nothing_lt (h : readSo room ps = .nothing rest) :
    rest.flatten.length < ps.flatten.length := by
  unfold readSo at h
  cases hheader : readHeader ps with
  | none =>
    rw [hheader] at h
    cases h
  | some x =>
    have hlt := readHeader_lt hheader
    have hlength := length_recv_add x.1 x.2
    simp only [hheader] at h
    split_ifs at h
    obtain rfl := So.nothing.inj h
    omega

def readArgs (s : Signal) (room : Nat) (bufsize : Int) (ps : Pieces) : Frame :=
  if bufsize = 0 then .call s ps
  else
    match h : readSo room ps with
    | .failed => .unread
    | .overflow => .overflow
    | .nothing rest => readArgs s room bufsize rest
    | .read so rest =>
      readArgs { s with args := s.args ++ [so] } (room - (so.length + 1)) (bufsize - so.length - 2)
        rest
  termination_by ps.flatten.length
  decreasing_by
    · exact readSo_nothing_lt h
    · exact readSo_read_lt h

/-- One turn of the loop of `reader_routine` after the header. -/
def readFrame (size : Nat) (ps : Pieces) : Frame :=
  match readSo size ps with
  | .failed => .stop
  | .overflow => .overflow
  | .nothing rest =>
    match readSo size rest with
    | .failed => .stop
    | .overflow => .overflow
    | .nothing _ | .read _ _ => .unread
  | .read emitter ps =>
    let room := size - (emitter.length + 1)
    let bufsize : Int := size - emitter.length - 2
    match readSo room ps with
    | .failed => .stop
    | .overflow => .overflow
    | .nothing rest =>
      match readArgs ⟨emitter, [], []⟩ room bufsize rest with
      | .overflow => .overflow
      | _ => .unread
    | .read event rest =>
      readArgs ⟨emitter, event, []⟩ (room - (event.length + 1)) (bufsize - event.length - 2) rest

variable {s : Signal}

theorem readArgs_zero {ps : Pieces} :
    readArgs s room 0 ps = .call s ps := by
  rw [readArgs, if_pos rfl]

variable {bufsize : Int}

theorem readArgs_of_ne {ps : Pieces}
    (hne : bufsize ≠ 0) : readArgs s room bufsize ps =
      match readSo room ps with
      | .failed => .unread
      | .overflow => .overflow
      | .nothing rest => readArgs s room bufsize rest
      | .read so rest =>
        readArgs { s with args := s.args ++ [so] } (room - (so.length + 1))
          (bufsize - so.length - 2) rest := by
  rw [readArgs, if_neg hne]
  split <;> simp_all

theorem readArgs_call_le {s s' : Signal}
    (h : readArgs s room bufsize ps = .call s' rest) :
    rest.flatten.length ≤ ps.flatten.length := by
  induction s, room, bufsize, ps using readArgs.induct with
  | case1 s room ps =>
    rw [readArgs_zero] at h
    obtain ⟨-, rfl⟩ := Frame.call.inj h
    exact Nat.le_refl _
  | case2 s room bufsize ps hne heq =>
    rw [readArgs_of_ne hne, heq] at h
    cases h
  | case3 s room bufsize ps hne heq =>
    rw [readArgs_of_ne hne, heq] at h
    cases h
  | case4 s room bufsize ps hne rest' heq ih =>
    rw [readArgs_of_ne hne, heq] at h
    exact Nat.le_of_lt (Nat.lt_of_le_of_lt (ih h) (readSo_nothing_lt heq))
  | case5 s room bufsize ps hne so rest' heq ih =>
    rw [readArgs_of_ne hne, heq] at h
    exact Nat.le_of_lt (Nat.lt_of_le_of_lt (ih h) (readSo_read_lt heq))

theorem readFrame_call_le {size : Nat}
    (h : readFrame size ps = .call s rest) : rest.flatten.length ≤ ps.flatten.length := by
  unfold readFrame at h
  cases hemitter : readSo size ps with
  | failed | overflow =>
    simp only [hemitter] at h
    cases h
  | nothing ps' =>
    simp only [hemitter] at h
    cases hevent : readSo size ps' <;> simp only [hevent] at h <;> cases h
  | read emitter ps' =>
    simp only [hemitter] at h
    have hlt := readSo_read_lt hemitter
    cases hevent : readSo (size - (emitter.length + 1)) ps' with
    | failed | overflow =>
      simp only [hevent] at h
      cases h
    | nothing rest' =>
      simp only [hevent] at h
      split at h <;> cases h
    | read event rest' =>
      simp only [hevent] at h
      have hlt' := readSo_read_lt hevent
      have hle := readArgs_call_le h
      omega

inductive Ending where
  | stopped
  | overflow
  | unread
  deriving DecidableEq

/-- `reader_routine`: the calls of the hook, and the end. -/
def reader (ps : Pieces) : List Signal × Ending :=
  match h : readHeader ps with
  | none => ([], .stopped)
  | some (size, ps') =>
    match h' : readFrame size ps' with
    | .stop => ([], .stopped)
    | .overflow => ([], .overflow)
    | .unread => ([], .unread)
    | .call s rest => (s :: (reader rest).1, (reader rest).2)
  termination_by ps.flatten.length
  decreasing_by
    all_goals
      have hlt := readHeader_lt h
      have hle := readFrame_call_le h'
      omega

/-! ## What a frame is made of -/

def Signal.strings (s : Signal) : List Bytes := s.emitter :: s.event :: s.args

def sizes (l : List Bytes) : Nat := (l.map fun x => x.length + 2).sum

def Signal.size (s : Signal) : Nat := sizes s.strings

def Signal.Fits (s : Signal) : Prop := s.size < 2 ^ 16

def chunksOf (l : List Bytes) : List Bytes := l.flatMap fun x => [header x.length, x]

def Signal.chunks (s : Signal) : List Bytes := header s.size :: chunksOf s.strings

theorem flatten_chunksOf (l : List Bytes) :
    (chunksOf l).flatten = l.flatMap fun x => sendSo (some x) := by
  induction l with
  | nil => rfl
  | cons x l ih =>
    show header x.length ++ (x ++ (chunksOf l).flatten) = (header x.length ++ x) ++ _
    rw [ih]
    exact (List.append_assoc _ _ _).symm

theorem Signal.frame_eq (s : Signal) : s.frame = s.chunks.flatten := by
  have hsize : sizeOf (some s.emitter) + sizeOf (some s.event) +
      (s.args.map fun x => sizeOf (some x)).sum = s.size :=
    Nat.add_assoc _ _ _
  rw [Signal.frame, sendFrame, hsize, Signal.chunks, List.flatten_cons, flatten_chunksOf]
  exact congrArg (header s.size ++ ·) (List.append_assoc _ _ _)

theorem flatMap_frame (signals : List Signal) :
    signals.flatMap Signal.frame = (signals.flatMap Signal.chunks).flatten := by
  induction signals with
  | nil => rfl
  | cons s signals ih => rw [List.flatMap_cons, List.flatMap_cons, List.flatten_append, s.frame_eq, ih]

theorem sizes_cons (x : Bytes) (l : List Bytes) : sizes (x :: l) = x.length + 2 + sizes l := rfl

theorem value_header {n : Nat} (h : n < 2 ^ 16) :
    256 * (UInt8.ofNat (n / 256)).toNat + (UInt8.ofNat n).toNat = n := by
  rw [UInt8.toNat_ofNat', UInt8.toNat_ofNat']
  omega

theorem header_value (hi lo : UInt8) :
    header (256 * hi.toNat + lo.toNat) = [hi, lo] ∧ 256 * hi.toNat + lo.toNat < 2 ^ 16 := by
  have hhi := hi.toNat_lt
  have hlo := lo.toNat_lt
  refine ⟨?_, by omega⟩
  rw [header]
  congr 1
  · refine UInt8.toNat_inj.mp ?_
    rw [UInt8.toNat_ofNat']
    omega
  · congr 1
    refine UInt8.toNat_inj.mp ?_
    rw [UInt8.toNat_ofNat']
    omega

/-! ## What is read -/

section

variable {ps rest : Pieces} {n room : Nat} {so : Bytes}

theorem readHeader_iff : readHeader ps = some (n, rest) ↔
    n < 2 ^ 16 ∧ (recv 2 ps).1 = header n ∧ (recv 2 ps).2 = rest := by
  constructor
  · intro h
    unfold readHeader at h
    split at h
    · rename_i hi lo rest' heq
      obtain ⟨rfl, rfl⟩ := Prod.mk.inj (Option.some.inj h)
      obtain ⟨hheader, hlt⟩ := header_value hi lo
      rw [heq]
      exact ⟨hlt, hheader.symm, rfl⟩
    · cases h
  · intro ⟨hlt, hheader, hrest⟩
    have hrecv : recv 2 ps = (header n, rest) := Prod.ext hheader hrest
    unfold readHeader
    rw [hrecv]
    exact congrArg (fun m => some (m, rest)) (value_header hlt)

theorem readHeader_of_nil (h : ps.flatten = []) : readHeader ps = none := by
  cases hheader : readHeader ps with
  | none => rfl
  | some x =>
    have hrecv := (readHeader_iff.mp hheader).2.1
    rw [recv_of_flatten_eq_nil h] at hrecv
    cases hrecv

/-- A string is read when it comes in two reads and fits with its terminator. -/
theorem readSo_read_iff : readSo room ps = .read so rest ↔
    so.length < 2 ^ 16 ∧ so.length + 1 ≤ room ∧ takes [header so.length, so] ps = some rest := by
  constructor
  · intro h
    unfold readSo at h
    cases hheader : readHeader ps with
    | none =>
      rw [hheader] at h
      cases h
    | some x =>
      obtain ⟨hlt, hrecv, hrest⟩ := readHeader_iff.mp hheader
      simp only [hheader] at h
      split_ifs at h with hroom hlength hfits
      obtain ⟨hso, hps⟩ := So.read.inj h
      rw [hso] at hlength
      refine ⟨hlength ▸ hlt, ?_, takes_cons.mpr ⟨?_, takes_cons.mpr ⟨?_, ?_⟩⟩⟩
      · rw [hlength]
        exact Nat.not_lt.mp hfits
      · rw [hlength]
        exact hrecv
      · show (recv so.length (recv 2 ps).2).1 = so
        rw [hrest, hlength]
        exact hso
      · show some (recv so.length (recv 2 ps).2).2 = some rest
        rw [hrest, hlength]
        exact congrArg some hps
  · intro ⟨hlt, hroom, htakes⟩
    obtain ⟨hheader, htakes⟩ := takes_cons.mp htakes
    obtain ⟨hso, hrest⟩ := takes_cons.mp htakes
    have hread : readHeader ps = some (so.length, (recv 2 ps).2) :=
      readHeader_iff.mpr ⟨hlt, hheader, rfl⟩
    unfold readSo
    simp only [hread]
    have hgot : (recv so.length (recv 2 ps).2).1 = so := hso
    rw [hgot, if_neg (by omega), if_pos rfl, if_neg (by omega)]
    exact congrArg (So.read so) (Option.some.inj hrest)

theorem readSo_of_nil (h : ps.flatten = []) : readSo room ps = .failed := by
  unfold readSo
  rw [readHeader_of_nil h]

theorem flatten_of_readSo_nothing (h : readSo room ps = .nothing rest) : rest.flatten = [] := by
  unfold readSo at h
  cases hheader : readHeader ps with
  | none =>
    rw [hheader] at h
    cases h
  | some x =>
    simp only [hheader] at h
    split_ifs at h with hroom hlength hfits hnil
    obtain rfl := So.nothing.inj h
    have hne : x.1 ≠ 0 := fun hzero => hlength (by rw [hnil, hzero]; rfl)
    have happend := recv_append_flatten x.1 x.2
    rw [flatten_eq_nil_of_recv hne hnil] at happend
    exact (List.append_eq_nil_iff.mp happend).2

end

theorem takes_chunksOf_cons {x : Bytes} {l : List Bytes} :
    takes (chunksOf (x :: l)) ps = some rest ↔
      ∃ ps', takes [header x.length, x] ps = some ps' ∧ takes (chunksOf l) ps' = some rest := by
  show takes ([header x.length, x] ++ chunksOf l) ps = some rest ↔ _
  rw [takes_append, Option.bind_eq_some_iff]

theorem readArgs_of_takes {l : List Bytes}
    (hroom : sizes l ≤ room) (hfits : sizes l < 2 ^ 16)
    (htakes : takes (chunksOf l) ps = some rest) :
    readArgs s room (sizes l) ps = .call { s with args := s.args ++ l } rest := by
  induction l generalizing s room ps with
  | nil =>
    obtain rfl := Option.some.inj htakes
    rw [List.append_nil]
    exact readArgs_zero
  | cons x l ih =>
    obtain ⟨ps', hx, hl⟩ := takes_chunksOf_cons.mp htakes
    rw [sizes_cons] at hroom hfits
    have hread : readSo room ps = .read x ps' :=
      readSo_read_iff.mpr ⟨by omega, by omega, hx⟩
    have hne : ((sizes (x :: l) : Nat) : Int) ≠ 0 := by
      rw [sizes_cons]
      omega
    have hleft : ((sizes (x :: l) : Nat) : Int) - x.length - 2 = (sizes l : Nat) := by
      rw [sizes_cons]
      omega
    rw [readArgs_of_ne hne, hread]
    dsimp only
    rw [hleft, ih (by omega) (by omega) hl, List.append_assoc]
    rfl

/-- The loop ends when strings of exactly the size that is left have been read. -/
theorem takes_of_readArgs {s s' : Signal}
    (h : readArgs s room bufsize ps = .call s' rest) :
    ∃ l, s' = { s with args := s.args ++ l } ∧ bufsize = (sizes l : Nat) ∧
      takes (chunksOf l) ps = some rest := by
  induction s, room, bufsize, ps using readArgs.induct with
  | case1 s room ps =>
    rw [readArgs_zero] at h
    obtain ⟨rfl, rfl⟩ := Frame.call.inj h
    exact ⟨[], by rw [List.append_nil], rfl, rfl⟩
  | case2 s room bufsize ps hne heq =>
    rw [readArgs_of_ne hne, heq] at h
    cases h
  | case3 s room bufsize ps hne heq =>
    rw [readArgs_of_ne hne, heq] at h
    cases h
  | case4 s room bufsize ps hne rest' heq ih =>
    rw [readArgs_of_ne hne, heq] at h
    dsimp only at h
    rw [readArgs_of_ne hne, readSo_of_nil (flatten_of_readSo_nothing heq)] at h
    cases h
  | case5 s room bufsize ps hne so rest' heq ih =>
    rw [readArgs_of_ne hne, heq] at h
    obtain ⟨l, hs, hsize, htakes⟩ := ih h
    obtain ⟨-, -, hso⟩ := readSo_read_iff.mp heq
    refine ⟨so :: l, ?_, ?_, takes_chunksOf_cons.mpr ⟨rest', hso, htakes⟩⟩
    · rw [hs, List.append_assoc]
      rfl
    · rw [sizes_cons]
      omega

/-- A frame leads to a call exactly when its strings come whole and fill it. -/
theorem readFrame_call_iff {size : Nat} (hsize : size < 2 ^ 16) :
    readFrame size ps = .call s rest ↔
      size = s.size ∧ takes (chunksOf s.strings) ps = some rest := by
  constructor
  · intro h
    unfold readFrame at h
    cases hemitter : readSo size ps with
    | failed | overflow =>
      simp only [hemitter] at h
      cases h
    | nothing ps' =>
      simp only [hemitter] at h
      cases hevent : readSo size ps' <;> simp only [hevent] at h <;> cases h
    | read emitter ps₁ =>
      simp only [hemitter] at h
      cases hevent : readSo (size - (emitter.length + 1)) ps₁ with
      | failed | overflow =>
        simp only [hevent] at h
        cases h
      | nothing rest' =>
        simp only [hevent] at h
        split at h <;> cases h
      | read event ps₂ =>
        simp only [hevent] at h
        obtain ⟨-, hroom, htakes⟩ := readSo_read_iff.mp hemitter
        obtain ⟨-, hroom', htakes'⟩ := readSo_read_iff.mp hevent
        obtain ⟨l, rfl, hleft, hl⟩ := takes_of_readArgs h
        refine ⟨?_, ?_⟩
        · show size = emitter.length + 2 + (event.length + 2 + sizes l)
          omega
        · exact takes_chunksOf_cons.mpr ⟨ps₁, htakes, takes_chunksOf_cons.mpr ⟨ps₂, htakes', hl⟩⟩
  · intro ⟨heq, htakes⟩
    obtain ⟨emitter, event, args⟩ := s
    have hsum : size = emitter.length + 2 + (event.length + 2 + sizes args) := heq
    obtain ⟨ps₁, hemitter, htakes⟩ := takes_chunksOf_cons.mp htakes
    obtain ⟨ps₂, hevent, hargs⟩ := takes_chunksOf_cons.mp htakes
    have hread : readSo size ps = .read emitter ps₁ :=
      readSo_read_iff.mpr ⟨by omega, by omega, hemitter⟩
    have hread' : readSo (size - (emitter.length + 1)) ps₁ = .read event ps₂ :=
      readSo_read_iff.mpr ⟨by omega, by omega, hevent⟩
    have hleft : (size : Int) - emitter.length - 2 - event.length - 2 = (sizes args : Nat) := by
      omega
    unfold readFrame
    simp only [hread, hread', hleft]
    exact readArgs_of_takes (by omega) (by omega) hargs

/-! ## Streams -/

/-- No whole string comes, but no more than `room` bytes of it. -/
def Cut (room : Nat) (ps : Pieces) : Prop :=
  ∀ n rest, n < 2 ^ 16 → takes [header n] ps = some rest →
    (recv n rest).1.length < n ∧ (recv n rest).1.length ≤ room

def NotBare (ps : Pieces) : Prop :=
  ∀ n rest, n < 2 ^ 16 → takes [header n] ps = some rest → (recv n rest).1 ≠ []

def EndsEarly (ps : Pieces) : Prop :=
  ∀ size rest, size < 2 ^ 16 → takes [header size] ps = some rest →
    Cut size rest ∨ ∃ emitter rest', emitter.length + 1 ≤ size ∧
      takes [header emitter.length, emitter] rest = some rest' ∧
      Cut (size - (emitter.length + 1)) rest' ∧ NotBare rest'

theorem readHeader_iff_takes {n : Nat} :
    readHeader ps = some (n, rest) ↔ n < 2 ^ 16 ∧ takes [header n] ps = some rest := by
  rw [readHeader_iff, takes_cons]
  constructor
  · intro ⟨hlt, hheader, hrest⟩
    exact ⟨hlt, hheader, congrArg some hrest⟩
  · intro ⟨hlt, hheader, hrest⟩
    exact ⟨hlt, hheader, Option.some.inj hrest⟩

theorem cut_iff {ps : Pieces} :
    Cut room ps ↔ readSo room ps = .failed ∨ ∃ rest, readSo room ps = .nothing rest := by
  unfold readSo
  cases hheader : readHeader ps with
  | none =>
    refine iff_of_true (fun n rest hlt htakes => ?_) (.inl rfl)
    rw [readHeader_iff_takes.mpr ⟨hlt, htakes⟩] at hheader
    cases hheader
  | some x =>
    obtain ⟨hlt, htakes⟩ := readHeader_iff_takes.mp hheader
    have hcut : Cut room ps ↔
        (recv x.1 x.2).1.length < x.1 ∧ (recv x.1 x.2).1.length ≤ room := by
      constructor
      · intro h
        exact h x.1 x.2 hlt htakes
      · intro h n rest hn hrest
        have heq := readHeader_iff_takes.mpr ⟨hn, hrest⟩
        rw [hheader] at heq
        obtain rfl := Option.some.inj heq
        exact h
    have hle := length_recv_le x.1 x.2
    dsimp only
    rw [hcut]
    split_ifs with hroom hlength hfits hnil
    · exact iff_of_false (by omega) (by simp)
    · exact iff_of_false (by omega) (by simp)
    · exact iff_of_false (by omega) (by simp)
    · exact iff_of_true (by omega) (.inr ⟨_, rfl⟩)
    · exact iff_of_true (by omega) (.inl rfl)

theorem readSo_failed_iff {ps : Pieces} :
    readSo room ps = .failed ↔ Cut room ps ∧ NotBare ps := by
  constructor
  · intro h
    refine ⟨cut_iff.mpr (.inl h), fun n rest hlt htakes hnil => ?_⟩
    unfold readSo at h
    rw [readHeader_iff_takes.mpr ⟨hlt, htakes⟩] at h
    simp only [hnil] at h
    split_ifs at h
  · intro ⟨hcut, hbare⟩
    obtain h | ⟨rest, h⟩ := cut_iff.mp hcut
    · exact h
    · unfold readSo at h
      cases hheader : readHeader ps with
      | none =>
        rw [hheader] at h
        cases h
      | some x =>
        obtain ⟨hlt, htakes⟩ := readHeader_iff_takes.mp hheader
        simp only [hheader] at h
        split_ifs at h with hroom hlength hfits hnil
        exact absurd hnil (hbare x.1 x.2 hlt htakes)

theorem reader_eq (ps : Pieces) : reader ps =
    match readHeader ps with
    | none => ([], .stopped)
    | some (size, ps') =>
      match readFrame size ps' with
      | .stop => ([], .stopped)
      | .overflow => ([], .overflow)
      | .unread => ([], .unread)
      | .call s rest => (s :: (reader rest).1, (reader rest).2) := by
  rw [reader]
  split
  · simp_all
  · split <;> simp_all

theorem readArgs_ne_stop (s : Signal) (room : Nat) (bufsize : Int) (ps : Pieces) :
    readArgs s room bufsize ps ≠ .stop := by
  induction s, room, bufsize, ps using readArgs.induct with
  | case1 s room ps =>
    rw [readArgs_zero]
    exact nofun
  | case2 s room bufsize ps hne heq =>
    rw [readArgs_of_ne hne, heq]
    exact nofun
  | case3 s room bufsize ps hne heq =>
    rw [readArgs_of_ne hne, heq]
    exact nofun
  | case4 s room bufsize ps hne rest' heq ih =>
    rw [readArgs_of_ne hne, heq]
    exact ih
  | case5 s room bufsize ps hne so rest' heq ih =>
    rw [readArgs_of_ne hne, heq]
    exact ih

/-- A frame stops the reader in its emitter or in its event. -/
theorem readFrame_stop_iff {size : Nat} {ps : Pieces} (hsize : size < 2 ^ 16) :
    readFrame size ps = .stop ↔
      Cut size ps ∨ ∃ emitter ps', emitter.length + 1 ≤ size ∧
        takes [header emitter.length, emitter] ps = some ps' ∧
        Cut (size - (emitter.length + 1)) ps' ∧ NotBare ps' := by
  have hcut : Cut size ps ↔ readSo size ps = .failed ∨ ∃ rest, readSo size ps = .nothing rest := cut_iff
  unfold readFrame
  cases hemitter : readSo size ps with
  | failed => exact iff_of_true rfl (.inl (hcut.mpr (.inl hemitter)))
  | overflow =>
    refine iff_of_false nofun ?_
    rintro (h | ⟨emitter, ps', hroom, htakes, -⟩)
    · rw [hemitter] at hcut
      obtain h | ⟨rest, h⟩ := hcut.mp h <;> cases h
    · have hread := readSo_read_iff.mpr ⟨by omega, hroom, htakes⟩
      rw [hemitter] at hread
      cases hread
  | nothing rest =>
    dsimp only
    rw [readSo_of_nil (flatten_of_readSo_nothing hemitter)]
    exact iff_of_true rfl (.inl (hcut.mpr (.inr ⟨rest, hemitter⟩)))
  | read emitter ps₁ =>
    dsimp only
    obtain ⟨-, hroom, htakes⟩ := readSo_read_iff.mp hemitter
    have hstop : (Cut size ps ∨ ∃ emitter ps', emitter.length + 1 ≤ size ∧
        takes [header emitter.length, emitter] ps = some ps' ∧
        Cut (size - (emitter.length + 1)) ps' ∧ NotBare ps') ↔
        readSo (size - (emitter.length + 1)) ps₁ = .failed := by
      constructor
      · rintro (h | ⟨emitter', ps', hroom', htakes', h⟩)
        · rw [hemitter] at hcut
          obtain h | ⟨rest, h⟩ := hcut.mp h <;> cases h
        · have hread := readSo_read_iff.mpr ⟨by omega, hroom', htakes'⟩
          obtain ⟨rfl, rfl⟩ := So.read.inj (hemitter.symm.trans hread)
          exact readSo_failed_iff.mpr h
      · intro h
        exact .inr ⟨emitter, ps₁, hroom, htakes, readSo_failed_iff.mp h⟩
    rw [hstop]
    cases hevent : readSo (size - (emitter.length + 1)) ps₁ with
    | failed => exact iff_of_true rfl rfl
    | overflow => exact iff_of_false nofun nofun
    | nothing rest =>
      refine iff_of_false ?_ nofun
      dsimp only
      split <;> exact nofun
    | read event rest => exact iff_of_false (readArgs_ne_stop _ _ _ _) nofun

theorem endsEarly_iff {ps : Pieces} : EndsEarly ps ↔
    ∀ size rest, readHeader ps = some (size, rest) → readFrame size rest = .stop := by
  constructor
  · intro h size rest hheader
    obtain ⟨hlt, htakes⟩ := readHeader_iff_takes.mp hheader
    exact (readFrame_stop_iff hlt).mpr (h size rest hlt htakes)
  · intro h size rest hlt htakes
    exact (readFrame_stop_iff hlt).mp (h size rest (readHeader_iff_takes.mpr ⟨hlt, htakes⟩))

theorem reader_of_endsEarly {ps : Pieces} (h : EndsEarly ps) : reader ps = ([], .stopped) := by
  rw [reader_eq]
  cases hheader : readHeader ps with
  | none => rfl
  | some x =>
    dsimp only
    rw [endsEarly_iff.mp h x.1 x.2 hheader]

theorem reader_of_takes (hfits : s.Fits)
    (htakes : takes s.chunks ps = some rest) :
    reader ps = (s :: (reader rest).1, (reader rest).2) := by
  obtain ⟨hheader, hstrings⟩ := takes_cons.mp htakes
  have hread : readHeader ps = some (s.size, (recv 2 ps).2) :=
    readHeader_iff.mpr ⟨hfits, hheader, rfl⟩
  have hframe : readFrame s.size (recv 2 ps).2 = .call s rest :=
    (readFrame_call_iff hfits).mpr ⟨rfl, hstrings⟩
  rw [reader_eq, hread]
  dsimp only
  rw [hframe]

variable {signals : List Signal}

theorem reader_of_takes_all
    (hfits : ∀ s ∈ signals, s.Fits) (htakes : takes (signals.flatMap Signal.chunks) ps = some rest) :
    reader ps = (signals ++ (reader rest).1, (reader rest).2) := by
  induction signals generalizing ps with
  | nil =>
    obtain rfl := Option.some.inj htakes
    rfl
  | cons s signals ih =>
    rw [List.flatMap_cons, takes_append] at htakes
    obtain ⟨ps', hs, hsignals⟩ := Option.bind_eq_some_iff.mp htakes
    rw [reader_of_takes (hfits s List.mem_cons_self) hs,
      ih (fun x hx => hfits x (List.mem_cons_of_mem _ hx)) hsignals]
    rfl

/-- When the reader stops as it should, its calls are those of frames that came whole, and what follows
ends early. -/
theorem takes_of_reader {ps : Pieces} (h : (reader ps).2 = .stopped) :
    ∃ rest, (∀ s ∈ (reader ps).1, s.Fits) ∧
      takes ((reader ps).1.flatMap Signal.chunks) ps = some rest ∧ EndsEarly rest := by
  induction ps using reader.induct with
  | case1 ps hheader =>
    have hreader : reader ps = ([], .stopped) := by rw [reader_eq, hheader]
    rw [hreader]
    refine ⟨ps, nofun, rfl, endsEarly_iff.mpr fun size rest h => ?_⟩
    rw [hheader] at h
    cases h
  | case2 ps size ps' hheader hframe =>
    have hreader : reader ps = ([], .stopped) := by
      rw [reader_eq, hheader]
      dsimp only
      rw [hframe]
    rw [hreader]
    refine ⟨ps, nofun, rfl, endsEarly_iff.mpr fun n rest h => ?_⟩
    rw [hheader] at h
    obtain ⟨rfl, rfl⟩ := Prod.mk.inj (Option.some.inj h)
    exact hframe
  | case3 ps size ps' hheader hframe =>
    rw [reader_eq, hheader] at h
    dsimp only at h
    rw [hframe] at h
    cases h
  | case4 ps size ps' hheader hframe =>
    rw [reader_eq, hheader] at h
    dsimp only at h
    rw [hframe] at h
    cases h
  | case5 ps size ps' hheader s rest hframe ih =>
    have hreader : reader ps = (s :: (reader rest).1, (reader rest).2) := by
      rw [reader_eq, hheader]
      dsimp only
      rw [hframe]
    rw [hreader] at h ⊢
    obtain ⟨rest', hfits, htakes, hends⟩ := ih h
    obtain ⟨hlt, hrecv, hrest⟩ := readHeader_iff.mp hheader
    obtain ⟨hsize, hstrings⟩ := (readFrame_call_iff hlt).mp hframe
    refine ⟨rest', ?_, ?_, hends⟩
    · intro x hx
      cases hx with
      | head =>
        show s.size < 2 ^ 16
        rw [← hsize]
        exact hlt
      | tail _ hx => exact hfits x hx
    · have hrest' : takes (chunksOf s.strings) (recv 2 ps).2 = some rest := by
        rw [hrest]
        exact hstrings
      have hchunks : takes s.chunks ps = some rest :=
        takes_cons.mpr ⟨by rw [← hsize]; exact hrecv, hrest'⟩
      rw [List.flatMap_cons, takes_append, hchunks]
      exact htakes

/-! ## Main result -/

def StopsWell (ps : Pieces) : Prop :=
  (reader ps).2 = .stopped ∧ (∀ s ∈ (reader ps).1, s.Fits) ∧
    (reader ps).1.flatMap Signal.frame <+: ps.flatten

theorem prefix_of_takes
    (h : takes (signals.flatMap Signal.chunks) ps = some rest) :
    signals.flatMap Signal.frame <+: ps.flatten :=
  ⟨rest.flatten, by rw [flatMap_frame, flatten_of_takes h]⟩

theorem stopsWell_iff (ps : Pieces) : StopsWell ps ↔ ∃ (signals : List Signal) (rest : Pieces),
    (∀ s ∈ signals, s.Fits) ∧ takes (signals.flatMap Signal.chunks) ps = some rest ∧ EndsEarly rest := by
  constructor
  · intro ⟨hstopped, _, _⟩
    exact ⟨(reader ps).1, takes_of_reader hstopped⟩
  · intro ⟨signals, rest, hfits, htakes, hends⟩
    have hreader := reader_of_takes_all hfits htakes
    rw [reader_of_endsEarly hends, List.append_nil] at hreader
    rw [StopsWell, hreader]
    exact ⟨rfl, hfits, prefix_of_takes htakes⟩

theorem reader_frames_iff {ps : Pieces} (hfits : ∀ s ∈ signals, s.Fits)
    (hps : ps.flatten = signals.flatMap Signal.frame) :
    reader ps = (signals, .stopped) ↔ takes (signals.flatMap Signal.chunks) ps ≠ none := by
  constructor
  · intro h
    obtain ⟨rest, -, htakes, -⟩ := takes_of_reader (congrArg Prod.snd h)
    rw [h] at htakes
    rw [htakes]
    exact nofun
  · intro h
    obtain ⟨rest, htakes⟩ := Option.ne_none_iff_exists'.mp h
    have happend := flatten_of_takes htakes
    rw [hps, flatMap_frame] at happend
    have hreader : reader rest = ([], .stopped) := by
      rw [reader_eq, readHeader_of_nil (List.append_right_eq_self.mp happend)]
    rw [reader_of_takes_all hfits htakes, hreader, List.append_nil]

/-- No signal is refused; frames come back exactly when each of their headers and strings comes in one
piece; and the reader stops as it should exactly on streams that end in the emitter or in the event of
a frame, after such frames. -/
theorem frames_round_trip (s : Signal) (signals : List Signal) (ps : Pieces) :
    ((signal s = none ↔ ¬ s.Fits) ↔ s.Fits) ∧
    ((∀ s ∈ signals, s.Fits) → ps.flatten = signals.flatMap Signal.frame →
      (reader ps = (signals, .stopped) ↔ takes (signals.flatMap Signal.chunks) ps ≠ none)) ∧
    (StopsWell ps ↔ ∃ (signals : List Signal) (rest : Pieces),
      (∀ s ∈ signals, s.Fits) ∧ takes (signals.flatMap Signal.chunks) ps = some rest ∧
        EndsEarly rest) := by
  refine ⟨?_, fun hfits hps => reader_frames_iff hfits hps, stopsWell_iff ps⟩
  have hsent : ¬ signal s = none := nofun
  rw [iff_false_left hsent, not_not]

def twoSignals : List Signal := [⟨[97], [98], []⟩, ⟨[97], [], [[]]⟩]

theorem frames_round_trip_two :
    reader (twoSignals.flatMap Signal.chunks) = (twoSignals, .stopped) :=
  ((frames_round_trip ⟨[], [], []⟩ twoSignals _).2.1 (by unfold Signal.Fits; decide)
    (flatMap_frame twoSignals).symm).mpr (by decide)

/-- A signal is not refused although its size needs 17 bits.  A frame whose header comes in two pieces
is not read; one that is cut in its argument calls the hook on freed memory; and a string that is longer
than its frame is written past the buffer. -/
theorem frames_lost :
    let s : Signal := ⟨[97], [98], [[99, 100]]⟩
    (signal ⟨[], [], [List.replicate (2 ^ 16) 0]⟩ ≠ none) ∧
      ([0] :: [s.frame.tail]).flatten = s.frame ∧ (reader ([0] :: [s.frame.tail])).1 = [] ∧
      s.frame.dropLast <+: s.frame ∧ reader [s.frame.dropLast] = ([], .unread) ∧
      reader [[0, 1, 0, 3, 97, 98, 99]] = ([], .overflow) := by
  refine ⟨nofun, by decide, ?_, by decide, ?_, ?_⟩
  · rw [reader_eq]
    rfl
  · have hargs : readArgs ⟨[97], [98], []⟩ 6 4 [[0, 2, 99]] = .unread := by
      rw [readArgs_of_ne (by decide)]
      rfl
    have hframe : readFrame 10 [[0, 1, 97, 0, 1, 98, 0, 2, 99]] = .unread := hargs
    have hheader : readHeader [[0, 10, 0, 1, 97, 0, 1, 98, 0, 2, 99]] =
        some (10, [[0, 1, 97, 0, 1, 98, 0, 2, 99]]) := rfl
    show reader [[0, 10, 0, 1, 97, 0, 1, 98, 0, 2, 99]] = _
    rw [reader_eq, hheader]
    dsimp only
    rw [hframe]
  · rw [reader_eq]
    rfl

end Mihini.Luasignal
