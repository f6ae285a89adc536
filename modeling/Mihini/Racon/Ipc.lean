import Mihini.Lib.Run
import Mihini.Lib.Pieces
import Mihini.Racon.EmpFrame

/-!
# The in-process EMP channel

`src/luafwk/racon/ipc.lua`, one direction of a channel: a FIFO, the task that reads EMP
messages from it (`parse` of `empparser.lua`) and any number of tasks that write messages to
it.  Tasks are interleaved where they wait for a signal of the FIFO.
-/

namespace Mihini.Racon.Ipc

open Mihini.Lib List

def bufferMaxSize : Nat := 5 * 1024

inductive Signal
  | read
  | write
  | close
  deriving DecidableEq, Repr

/-- A call is in `sched.wait`, has been woken up there, or has returned an error. -/
inductive Wait
  | suspended
  | woken (event : Signal)
  | aborted
  deriving DecidableEq, Repr

/-- A call to `FIFO_MT:write`, with the bytes it has put: `idx - 1` in the source. -/
structure Writer where
  message : Message
  idx : Nat
  wait : Wait
  deriving DecidableEq, Repr

/-- The reading task: between two receptions, in `FIFO_MT:read(n)`, with what is still to
read, or at its end. -/
inductive Reader
  | parsing
  | reading (n : Nat) (b : List UInt8) (event : Option Signal)
  | ended
  deriving DecidableEq, Repr

structure World where
  isOpen : Bool
  buffer : List UInt8
  stage : Stage
  reader : Reader
  writers : List Writer
  delivered : List Message
  calls : List Message
  begun : List Message
  received : List UInt8
  deriving DecidableEq, Repr

def new : World where
  isOpen := true
  buffer := []
  stage := .header
  reader := .parsing
  writers := []
  delivered := []
  calls := []
  begun := []
  received := []

def Writer.signal (event : Signal) (w : Writer) : Writer :=
  if w.wait = .suspended then { w with wait := .woken event } else w

def Reader.signal (event : Signal) : Reader → Reader
  | .reading n b none => .reading n b (some event)
  | r => r

namespace World

variable (s : World)

def signal (event : Signal) : World :=
  { s with
    reader := s.reader.signal event
    writers := s.writers.map (Writer.signal event) }

def arrive (b : List UInt8) : World :=
  { s with
    stage := (s.stage.next b).1
    reader := .parsing
    delivered := s.delivered ++ (s.stage.next b).2 }

def available (n : Nat) : Nat :=
  if n ≤ s.buffer.length then n else s.buffer.length

/-- The first `c` bytes of the buffer are taken out. -/
def take (c : Nat) : World :=
  { s with
    buffer := s.buffer.drop c
    received := s.received ++ s.buffer.take c }

def read (n : Nat) (b : List UInt8) : World :=
  let c := s.available n
  let b := b ++ s.buffer.take c
  let after := (s.take c).signal .read
  if n - c = 0 then after.arrive b else { after with reader := .reading (n - c) b none }

def fitting (message : Message) (idx : Nat) : Nat :=
  let space := bufferMaxSize - s.buffer.length
  let remaining := message.pack.length - idx
  if remaining ≤ space then remaining else space

def fill (message : Message) (idx c : Nat) : World :=
  { s with
    buffer := s.buffer ++ (message.pack.drop idx).take c
    begun := if idx = 0 ∧ 0 < c then s.begun ++ [message] else s.begun }

/-- The loop of `FIFO_MT:write`, up to its suspension or its end; the other calls are those
of the state. -/
def write (message : Message) (idx : Nat) : World :=
  let c := s.fitting message idx
  let after := (s.fill message idx c).signal .write
  if idx + c = message.pack.length then after
  else { after with writers := ⟨message, idx + c, .suspended⟩ :: after.writers }

def receive : World :=
  if s.isOpen then s.read s.stage.wants [] else { s with reader := .ended }

def send (message : Message) : World :=
  if s.isOpen then { s with calls := s.calls ++ [message] }.write message 0 else s

def resumeReader : World :=
  match s.reader with
  | .reading _ _ (some .close) => { s with reader := .ended }
  | .reading n b (some _) => s.read n b
  | _ => s

def resumeWriter (w : Writer) : World :=
  let others := { s with writers := s.writers.erase w }
  match w.wait with
  | .woken .close => { others with writers := ⟨w.message, w.idx, .aborted⟩ :: others.writers }
  | .woken _ => others.write w.message w.idx
  | _ => s

def close : World :=
  if s.isOpen then { s.signal .close with isOpen := false } else s

end World

inductive Event
  | receive
  | resumeReader
  | send (message : Message)
  | resumeWriter (w : Writer)
  | close
  deriving DecidableEq, Repr

def step (s : World) : Event → World
  | .receive => s.receive
  | .resumeReader => s.resumeReader
  | .send message => s.send message
  | .resumeWriter w => s.resumeWriter w
  | .close => s.close

def Wait.isWoken : Wait → Bool
  | .woken _ => true
  | _ => false

def Reader.isWoken : Reader → Bool
  | .reading _ _ (some _) => true
  | _ => false

/-- `parse` receives when it is not in a reception, and a woken call is resumed. -/
def Enabled (s : World) : Event → Prop
  | .receive => s.reader = .parsing
  | .resumeReader => s.reader.isWoken
  | .resumeWriter w => w ∈ s.writers ∧ w.wait.isWoken
  | .send _ | .close => True

/-- Bytes are put in the buffer while no other message is there in part only, and the size
of a message fits its field. -/
def Sound (s : World) : Event → Prop
  | .send message =>
    message.Fits ∧ (s.buffer.length < bufferMaxSize → ∀ v ∈ s.writers, v.idx = 0)
  | .resumeWriter w =>
    w.wait ≠ .woken .close → s.buffer.length < bufferMaxSize → ∀ v ∈ s.writers.erase w, v.idx = 0
  | _ => True

instance (s : World) : (e : Event) → Decidable (Enabled s e)
  | .receive => inferInstanceAs (Decidable (_ = _))
  | .resumeReader => inferInstanceAs (Decidable (_ = _))
  | .resumeWriter _ => inferInstanceAs (Decidable (_ ∧ _))
  | .send _ | .close => inferInstanceAs (Decidable True)

instance (s : World) : (e : Event) → Decidable (Sound s e)
  | .send _ => inferInstanceAs (Decidable (_ ∧ (_ → _)))
  | .resumeWriter _ => inferInstanceAs (Decidable (_ → _ → _))
  | .receive | .resumeReader | .close => inferInstanceAs (Decidable True)

/-- The reader gets whole messages in the order they were begun in, and all of them once the
buffer is empty and no call writes; every message given to the FIFO is begun once or waits to
be, the buffer is bounded, and a call only sleeps for bytes or room that are not there. -/
structure Intact (s : World) : Prop where
  whole : s.delivered <+: s.begun
  once : (s.begun : Multiset Message) +
    ((s.writers : Multiset Writer).filter (·.idx = 0)).map Writer.message = s.calls
  drained : s.writers = [] → s.buffer = [] → s.reader ≠ .ended → s.delivered = s.begun
  bounded : s.buffer.length ≤ bufferMaxSize
  fed : ∀ n b, s.reader = .reading n b none → s.buffer = []
  room : ∀ w ∈ s.writers, w.wait = .suspended → s.buffer.length = bufferMaxSize

/-! ## The bytes of the channel -/

def Writer.part (w : Writer) : Fragment Message := ⟨w.message, w.idx⟩

def World.stream (s : World) : Pieces Message UInt8 where
  out := s.received ++ s.buffer
  begun := s.begun
  parts := (s.writers : Multiset Writer).map Writer.part

theorem part_signal (event : Signal) (w : Writer) : (w.signal event).part = w.part := by
  rw [Writer.signal]
  split <;> rfl

theorem wait_signal (event : Signal) (w : Writer) : (w.signal event).wait ≠ .suspended := by
  rw [Writer.signal]
  split
  · intro h
    cases h
  · next h => exact h

theorem parts_signal (event : Signal) (l : List Writer) :
    ((l.map (Writer.signal event) : List Writer) : Multiset Writer).map Writer.part =
      (l : Multiset Writer).map Writer.part := by
  rw [Multiset.map_coe, Multiset.map_coe, map_map]
  exact congrArg _ (map_congr_left fun w _ => part_signal event w)

theorem stream_signal (s : World) (event : Signal) : (s.signal event).stream = s.stream := by
  rw [World.stream, World.stream]
  congr 1
  exact parts_signal event s.writers

variable {s : World}

theorem fitting_le {message : Message} {idx : Nat}
    (hlt : idx < message.pack.length) : idx + s.fitting message idx ≤ message.pack.length := by
  rw [World.fitting]
  split <;> omega

/-- A call to `write` puts the bytes that fit, as a writer of the stream. -/
theorem stream_write {message : Message} {idx : Nat}
    (hlt : idx < message.pack.length) :
    (s.write message idx).stream =
      { out := s.stream.out ++ (message.pack.drop idx).take (s.fitting message idx)
        begun := if idx = 0 ∧ 0 < s.fitting message idx then s.begun ++ [message] else s.begun
        parts := (⟨message, idx⟩ : Fragment Message).advance Message.pack (s.fitting message idx) +
          s.stream.parts } := by
  have hle := fitting_le (s := s) hlt
  rw [World.write]
  generalize s.fitting message idx = c at hle ⊢
  have hfill : ((s.fill message idx c).signal .write).stream =
      { out := s.stream.out ++ (message.pack.drop idx).take c
        begun := if idx = 0 ∧ 0 < c then s.begun ++ [message] else s.begun
        parts := s.stream.parts } := by
    rw [stream_signal]
    show World.stream _ = _
    rw [World.stream]
    congr 1
    exact (append_assoc ..).symm
  split
  · next hend =>
    have hadvance : (⟨message, idx⟩ : Fragment Message).advance Message.pack c = 0 :=
      if_neg (by show ¬ idx + c < message.pack.length; omega)
    rw [hadvance, Multiset.zero_add]
    exact hfill
  · next hend =>
    have hadvance : (⟨message, idx⟩ : Fragment Message).advance Message.pack c =
        {⟨message, idx + c⟩} := if_pos (by show idx + c < message.pack.length; omega)
    rw [hadvance, Multiset.singleton_add]
    calc World.stream _
        = { ((s.fill message idx c).signal .write).stream with
            parts := ⟨message, idx + c⟩ ::ₘ ((s.fill message idx c).signal .write).stream.parts } := by
          rfl
      _ = _ := by rw [hfill]

theorem stream_read (s : World) (n : Nat) (b : List UInt8) : (s.read n b).stream = s.stream := by
  have htaken (c : Nat) : ((s.take c).signal .read).stream = s.stream := by
    rw [stream_signal]
    show World.stream _ = _
    rw [World.stream, World.stream]
    congr 1
    show (s.received ++ s.buffer.take c) ++ s.buffer.drop c = _
    rw [append_assoc, take_append_drop]
  rw [World.read]
  split
  · exact htaken _
  · exact htaken _

/-! ## The reading task -/

def Reader.gathered : Reader → List UInt8
  | .reading _ b _ => b
  | _ => []

structure Reading (s : World) (ms : List Message) (done : List UInt8) : Prop where
  begun : s.begun = s.delivered ++ ms
  within : s.stage.Within ms done
  received : s.received = s.delivered.flatMap Message.pack ++ (done ++ s.reader.gathered)
  pending : ∀ n b event, s.reader = .reading n b event → n + b.length = s.stage.wants ∧ 0 < n

structure Inv (s : World) : Prop where
  whole : s.stream.Whole Message.pack
  once : s.stream.messages = s.calls
  fits : ∀ m ∈ s.calls, m.Fits
  incomplete : ∀ w ∈ s.writers, w.idx < w.message.pack.length
  initial : s.delivered <+: s.begun
  reading : s.reader ≠ .ended → ∃ ms done, Reading s ms done
  bounded : s.buffer.length ≤ bufferMaxSize
  fed : ∀ n b, s.reader = .reading n b none → s.buffer = []
  room : ∀ w ∈ s.writers, w.wait = .suspended → s.buffer.length = bufferMaxSize

theorem inv_new : Inv new where
  whole := .inl ⟨rfl, rfl⟩
  once := rfl
  fits := by
    intro m hm
    cases hm
  incomplete := by
    intro w hw
    cases hw
  initial := ⟨[], rfl⟩
  reading := by
    intro _
    refine ⟨[], [], rfl, rfl, rfl, ?_⟩
    intro n b event h
    cases h
  bounded := Nat.zero_le _
  fed := fun _ _ _ => rfl
  room := by
    intro w hw
    cases hw

namespace Inv

variable {s : World}

theorem fits_begun (h : Inv s) : ∀ m ∈ s.begun, m.Fits := by
  intro m hm
  apply h.fits
  have hmem : m ∈ s.stream.messages := Multiset.mem_add.mpr (.inl (Multiset.mem_coe.mpr hm))
  rw [h.once] at hmem
  exact Multiset.mem_coe.mp hmem

theorem intact (h : Inv s) : Intact s where
  whole := h.initial
  once := by
    have honce := h.once
    rw [Pieces.messages] at honce
    rw [← honce]
    congr 1
    show _ = (((s.writers : Multiset Writer).map Writer.part).filter _).map _
    rw [Multiset.filter_map, Multiset.map_map]
    rfl
  drained := by
    intro hwriters hbuffer hreader
    obtain ⟨ms, done, hbegun, hwithin, hreceived, hpending⟩ := h.reading hreader
    have hparts : s.stream.parts = 0 := by
      show (s.writers : Multiset Writer).map _ = 0
      rw [hwriters]
      rfl
    have hout : s.received = s.begun.flatMap Message.pack := by
      have hcomplete := h.whole.complete hparts
      have heq : s.stream.out = s.received := by
        show s.received ++ s.buffer = s.received
        rw [hbuffer, append_nil]
      rw [← heq]
      exact hcomplete
    have hall : done ++ s.reader.gathered = ms.flatMap Message.pack := by
      rw [hreceived, hbegun, flatMap_append] at hout
      exact append_cancel_left hout
    have hlt : s.reader.gathered.length < s.stage.wants := by
      cases hcase : s.reader with
      | parsing => exact hwithin.wants_pos
      | reading n b event =>
        obtain ⟨hsum, hpos⟩ := hpending n b event hcase
        show b.length < s.stage.wants
        omega
      | ended => exact absurd hcase hreader
    rw [hbegun, hwithin.eq_nil hlt hall, append_nil]
  bounded := h.bounded
  fed := h.fed
  room := h.room

end Inv

/-! ## Signals -/

theorem signalled_fed (s : World) (event : Signal) (n : Nat) (b : List UInt8) :
    (s.signal event).reader ≠ .reading n b none := by
  show s.reader.signal event ≠ _
  cases s.reader with
  | parsing => nofun
  | ended => nofun
  | reading n' b' event' =>
    cases event' with
    | none => nofun
    | some e => nofun

theorem signalled_room (s : World) (event : Signal) :
    ∀ w ∈ (s.signal event).writers, w.wait ≠ .suspended := by
  intro w hw
  obtain ⟨v, -, rfl⟩ := mem_map.mp hw
  exact wait_signal event v

theorem gathered_signal (event : Signal) (r : Reader) : (r.signal event).gathered = r.gathered := by
  cases r with
  | parsing => rfl
  | ended => rfl
  | reading n b event' => cases event' <;> rfl

theorem Reading.signal {ms : List Message}
    {done : List UInt8} (h : Reading s ms done) (event : Signal) :
    Reading (s.signal event) ms done where
  begun := h.begun
  within := h.within
  received := by
    show s.received = _ ++ (done ++ (s.reader.signal event).gathered)
    rw [gathered_signal]
    exact h.received
  pending := by
    intro n b e hreader
    have hreader' : s.reader.signal event = .reading n b e := hreader
    cases hcase : s.reader with
    | parsing => rw [hcase] at hreader'; cases hreader'
    | ended => rw [hcase] at hreader'; cases hreader'
    | reading n' b' e' =>
      have hpending := h.pending n' b' e' hcase
      rw [hcase] at hreader'
      cases e' <;> cases hreader' <;> exact hpending

/-- New messages come behind those that are not delivered. -/
theorem Reading.more {s s' : World} {ms more : List Message} {done : List UInt8} {event : Signal}
    (h : Reading s ms done) (hbegun : s'.begun = s.begun ++ more)
    (hdelivered : s'.delivered = s.delivered) (hstage : s'.stage = s.stage)
    (hreceived : s'.received = s.received) (hreader : s'.reader = s.reader.signal event) :
    Reading s' (ms ++ more) done where
  begun := by rw [hbegun, hdelivered, h.begun, append_assoc]
  within := by
    rw [hstage]
    exact h.within.append more
  received := by
    rw [hreceived, hdelivered, hreader]
    exact (h.signal event).received
  pending := by
    rw [hreader, hstage]
    exact (h.signal event).pending

/-! ## Writes -/

section Write

variable (s : World) (message : Message) (idx : Nat)

@[simp] theorem write_calls : (s.write message idx).calls = s.calls := by
  rw [World.write]
  split <;> rfl

@[simp] theorem write_delivered : (s.write message idx).delivered = s.delivered := by
  rw [World.write]
  split <;> rfl

@[simp] theorem write_stage : (s.write message idx).stage = s.stage := by
  rw [World.write]
  split <;> rfl

@[simp] theorem write_received : (s.write message idx).received = s.received := by
  rw [World.write]
  split <;> rfl

@[simp] theorem write_reader : (s.write message idx).reader = s.reader.signal .write := by
  rw [World.write]
  split <;> rfl

theorem write_buffer : (s.write message idx).buffer =
    s.buffer ++ (message.pack.drop idx).take (s.fitting message idx) := by
  rw [World.write]
  split <;> rfl

theorem write_begun : (s.write message idx).begun =
    s.begun ++ if idx = 0 ∧ 0 < s.fitting message idx then [message] else [] := by
  have hfill : (s.fill message idx (s.fitting message idx)).begun =
      s.begun ++ if idx = 0 ∧ 0 < s.fitting message idx then [message] else [] := by
    rw [World.fill]
    split
    · rfl
    · exact (append_nil _).symm
  rw [World.write]
  split
  · exact hfill
  · exact hfill

theorem mem_write_writers {v : Writer} (hv : v ∈ (s.write message idx).writers) :
    (∃ u ∈ s.writers, v = u.signal .write) ∨
      idx + s.fitting message idx ≠ message.pack.length ∧
        v = ⟨message, idx + s.fitting message idx, .suspended⟩ := by
  rw [World.write] at hv
  split at hv
  · obtain ⟨u, hu, heq⟩ := mem_map.mp hv
    exact .inl ⟨u, hu, heq.symm⟩
  · next hleft =>
    rcases mem_cons.mp hv with heq | hold
    · exact .inr ⟨hleft, heq⟩
    · obtain ⟨u, hu, heq⟩ := mem_map.mp hold
      exact .inl ⟨u, hu, heq.symm⟩

end Write

theorem signal_idx (event : Signal) (w : Writer) : (w.signal event).idx = w.idx := by
  rw [Writer.signal]
  split <;> rfl

theorem signal_message (event : Signal) (w : Writer) : (w.signal event).message = w.message := by
  rw [Writer.signal]
  split <;> rfl

namespace Inv

variable {s : World}

variable {w : Writer}

theorem parts_erase (hw : w ∈ s.writers) :
    ({ s with writers := s.writers.erase w } : World).stream.parts =
      s.stream.parts.erase w.part := by
  show ((s.writers.erase w : List Writer) : Multiset Writer).map Writer.part = _
  rw [← Multiset.coe_erase]
  exact Multiset.map_erase_of_mem Writer.part (s.writers : Multiset Writer) hw

theorem stream_put (hw : w ∈ s.writers) (hlt : w.idx < w.message.pack.length) :
    ({ s with writers := s.writers.erase w }.write w.message w.idx).stream =
      s.stream.put Message.pack w.part (s.fitting w.message w.idx) := by
  rw [stream_write hlt, parts_erase hw]
  rfl

theorem reader_of_signal {r : Reader} {event : Signal} (h : r.signal event ≠ .ended) :
    r ≠ .ended := by
  intro hr
  rw [hr] at h
  exact h rfl

/-- A call puts bytes while no other message is there in part only. -/
theorem write (h : Inv s) (hw : w ∈ s.writers)
    (hsound : s.buffer.length < bufferMaxSize → ∀ v ∈ s.writers.erase w, v.idx = 0) :
    Inv ({ s with writers := s.writers.erase w }.write w.message w.idx) := by
  have hlt := h.incomplete w hw
  have hmem : w.part ∈ s.stream.parts := Multiset.mem_map_of_mem _ (Multiset.mem_coe.mpr hw)
  have hfit : s.fitting w.message w.idx ≤ bufferMaxSize - s.buffer.length := by
    rw [World.fitting]
    split <;> omega
  have hcase : s.fitting w.message w.idx = w.message.pack.length - w.idx ∨
      s.fitting w.message w.idx = bufferMaxSize - s.buffer.length := by
    rw [World.fitting]
    split
    · exact .inl rfl
    · exact .inr rfl
  have hend := fitting_le (s := s) hlt
  refine ⟨?_, ?_, ?_, ?_, ?_, ?_, ?_, ?_, ?_⟩
  · rw [stream_put hw hlt]
    by_cases hzero : s.fitting w.message w.idx = 0
    · rw [hzero, Pieces.put_zero hmem hlt]
      exact h.whole
    refine h.whole.put hmem (Nat.pos_of_ne_zero hzero) ?_
    intro q hq
    rw [← parts_erase hw] at hq
    have hq' : q ∈ ((s.writers.erase w : List Writer) : Multiset Writer).map Writer.part := hq
    obtain ⟨v, hv, rfl⟩ := Multiset.mem_map.mp hq'
    exact hsound (by omega) v (Multiset.mem_coe.mp hv)
  · rw [stream_put hw hlt, Pieces.messages_put hmem hlt, write_calls]
    exact h.once
  · rw [write_calls]
    exact h.fits
  · intro v hv
    rcases mem_write_writers _ _ _ hv with ⟨u, hu, rfl⟩ | ⟨hleft, rfl⟩
    · rw [signal_idx, signal_message]
      exact h.incomplete u (mem_of_mem_erase hu)
    · show w.idx + s.fitting w.message w.idx < w.message.pack.length
      have hleft' : w.idx + s.fitting w.message w.idx ≠ w.message.pack.length := hleft
      omega
  · rw [write_delivered, write_begun]
    exact h.initial.trans (prefix_append _ _)
  · intro hreader
    rw [write_reader] at hreader
    obtain ⟨ms, done, hreading⟩ := h.reading (reader_of_signal hreader)
    exact ⟨_, done, hreading.more (write_begun _ _ _) (write_delivered _ _ _) (write_stage _ _ _)
      (write_received _ _ _) (write_reader _ _ _)⟩
  · have hbounded := h.bounded
    rw [write_buffer, length_append]
    have htake := length_take_le (s.fitting w.message w.idx) (w.message.pack.drop w.idx)
    show s.buffer.length + ((w.message.pack.drop w.idx).take
      (s.fitting w.message w.idx)).length ≤ bufferMaxSize
    omega
  · intro n b hreader
    rw [write_reader] at hreader
    exact absurd hreader (signalled_fed s .write n b)
  · intro v hv hwait
    rcases mem_write_writers _ _ _ hv with ⟨u, -, rfl⟩ | ⟨hleft, -⟩
    · exact absurd hwait (wait_signal .write u)
    · have hleft' : w.idx + s.fitting w.message w.idx ≠ w.message.pack.length := hleft
      have hbounded := h.bounded
      rw [write_buffer, length_append, length_take, length_drop]
      show s.buffer.length + min (s.fitting w.message w.idx) _ = bufferMaxSize
      omega

theorem arrival (h : Inv s) {message : Message} (hfits : message.Fits) :
    Inv { s with
      calls := s.calls ++ [message]
      writers := ⟨message, 0, .woken .write⟩ :: s.writers } where
  whole := h.whole.start message
  once := by
    show (s.stream.start message).messages = _
    rw [Pieces.messages_start, h.once, Multiset.cons_coe]
    exact Multiset.coe_eq_coe.mpr (perm_append_singleton message s.calls).symm
  fits := by
    intro m hm
    rcases mem_append.mp hm with hold | hnew
    · exact h.fits m hold
    · rw [mem_singleton.mp hnew]
      exact hfits
  incomplete := by
    intro w hw
    rcases mem_cons.mp hw with rfl | hold
    · exact message.pack_pos
    · exact h.incomplete w hold
  initial := h.initial
  reading := by
    intro hreader
    obtain ⟨ms, done, hbegun, hwithin, hreceived, hpending⟩ := h.reading hreader
    exact ⟨ms, done, hbegun, hwithin, hreceived, hpending⟩
  bounded := h.bounded
  fed := h.fed
  room := by
    intro w hw hwait
    rcases mem_cons.mp hw with rfl | hold
    · cases hwait
    · exact h.room w hold hwait

theorem send (h : Inv s) {message : Message} (hfits : message.Fits)
    (hsound : s.buffer.length < bufferMaxSize → ∀ v ∈ s.writers, v.idx = 0) :
    Inv (s.send message) := by
  rw [World.send]
  split
  · have hothers : (⟨message, 0, .woken .write⟩ :: s.writers).erase
        (⟨message, 0, .woken .write⟩ : Writer) = s.writers := erase_cons_head ..
    have hwrite := (h.arrival hfits).write (mem_cons_self ..) (by
      rw [hothers]
      exact hsound)
    rw [hothers] at hwrite
    exact hwrite
  · exact h

/-- A call that is woken up by the end of the FIFO leaves its message as it is. -/
theorem abort (h : Inv s) (hw : w ∈ s.writers) :
    Inv { s with writers := ⟨w.message, w.idx, .aborted⟩ :: s.writers.erase w } := by
  have hparts : (((⟨w.message, w.idx, .aborted⟩ :: s.writers.erase w : List Writer)) :
      Multiset Writer).map Writer.part = s.stream.parts := by
    rw [← Multiset.cons_coe, Multiset.map_cons]
    show w.part ::ₘ _ = _
    have hmem : w.part ∈ s.stream.parts := Multiset.mem_map_of_mem _ (Multiset.mem_coe.mpr hw)
    have herase : ((s.writers.erase w : List Writer) : Multiset Writer).map Writer.part =
      s.stream.parts.erase w.part := parts_erase hw
    rw [herase, Multiset.cons_erase hmem]
  have hstream : ({ s with writers := ⟨w.message, w.idx, .aborted⟩ :: s.writers.erase w } :
      World).stream = s.stream := by
    rw [World.stream, World.stream]
    congr 1
  refine ⟨?_, ?_, h.fits, ?_, h.initial, ?_, h.bounded, h.fed, ?_⟩
  · rw [hstream]
    exact h.whole
  · rw [hstream]
    exact h.once
  · intro v hv
    rcases mem_cons.mp hv with rfl | hold
    · exact h.incomplete w hw
    · exact h.incomplete v (mem_of_mem_erase hold)
  · intro hreader
    obtain ⟨ms, done, hbegun, hwithin, hreceived, hpending⟩ := h.reading hreader
    exact ⟨ms, done, hbegun, hwithin, hreceived, hpending⟩
  · intro v hv hwait
    rcases mem_cons.mp hv with rfl | hold
    · cases hwait
    · exact h.room v (mem_of_mem_erase hold) hwait

theorem resumeWriter (h : Inv s) (hw : w ∈ s.writers)
    (hsound : w.wait ≠ .woken .close → s.buffer.length < bufferMaxSize →
      ∀ v ∈ s.writers.erase w, v.idx = 0) : Inv (s.resumeWriter w) := by
  rw [World.resumeWriter]
  split
  · exact h.abort hw
  · next event hevent hwait =>
    refine h.write hw (hsound ?_)
    rw [hwait]
    intro heq
    exact hevent (Wait.woken.inj heq)
  · exact h

end Inv

/-! ## Reads -/

section Read

variable (s : World) (n : Nat) (b : List UInt8)

@[simp] theorem read_calls : (s.read n b).calls = s.calls := by
  rw [World.read]
  split <;> rfl

@[simp] theorem read_writers : (s.read n b).writers = s.writers.map (Writer.signal .read) := by
  rw [World.read]
  split <;> rfl

@[simp] theorem read_buffer : (s.read n b).buffer = s.buffer.drop (s.available n) := by
  rw [World.read]
  split <;> rfl

end Read

namespace Inv

variable {s : World}

/-- A reception takes what is there, and `parse` goes on when it is complete. -/
theorem read (h : Inv s) {ms : List Message} {done b : List UInt8} {n : Nat}
    (hbegun : s.begun = s.delivered ++ ms) (hwithin : s.stage.Within ms done)
    (hreceived : s.received = s.delivered.flatMap Message.pack ++ (done ++ b))
    (hsum : n + b.length = s.stage.wants) :
    Inv (s.read n b) ∧ (s.read n b).reader ≠ .ended := by
  have hlength : (s.buffer.take (s.available n)).length = s.available n := by
    rw [length_take, World.available]
    split <;> omega
  have hle : s.available n ≤ n := by
    rw [World.available]
    split <;> omega
  -- where the reader and `parse` stand after the call
  have hafter : ∃ ms done, Reading (s.read n b) ms done := by
    by_cases hend : n - s.available n = 0
    · have hread : s.read n b =
          ((s.take (s.available n)).signal .read).arrive (b ++ s.buffer.take (s.available n)) := by
        rw [World.read]
        exact if_pos hend
      have hfollows : s.stage.Follows ms done (b ++ s.buffer.take (s.available n)) := by
        refine ⟨hwithin, ?_⟩
        have hout : s.received ++ s.buffer <+: s.begun.flatMap Message.pack := h.whole.initial
        have htake : s.received ++ s.buffer.take (s.available n) <+: s.received ++ s.buffer :=
          (prefix_append_right_inj _).mpr ( take_prefix ..)
        have hall := htake.trans hout
        rw [hreceived, hbegun, flatMap_append, append_assoc,
          prefix_append_right_inj, append_assoc] at hall
        exact hall
      have hfits : ∀ m ∈ ms, m.Fits := by
        intro m hm
        apply h.fits_begun
        rw [hbegun]
        exact mem_append_right _ hm
      obtain ⟨left, done', hms, hwithin', hdone⟩ := hfollows.proceeds hfits (by
        rw [length_append, hlength]
        omega)
      refine ⟨left, done', ?_⟩
      rw [hread]
      refine ⟨?_, hwithin', ?_, ?_⟩
      · show s.begun = (s.delivered ++ _) ++ left
        rw [hbegun, hms, append_assoc]
        rfl
      · show s.received ++ s.buffer.take (s.available n) =
          (s.delivered ++ (s.stage.next (b ++ s.buffer.take (s.available n))).2).flatMap _ ++
            (done' ++ [])
        rw [hreceived, flatMap_append, append_nil, append_assoc, append_assoc,
          append_assoc, hdone]
      · intro n' b' event hreader
        cases hreader
    · have hread : s.read n b = { (s.take (s.available n)).signal .read with
          reader := .reading (n - s.available n) (b ++ s.buffer.take (s.available n)) none } := by
        rw [World.read]
        exact if_neg hend
      refine ⟨ms, done, ?_⟩
      rw [hread]
      refine ⟨hbegun, hwithin, ?_, ?_⟩
      · show s.received ++ s.buffer.take (s.available n) =
          _ ++ (done ++ (b ++ s.buffer.take (s.available n)))
        rw [hreceived, append_assoc, append_assoc]
        rfl
      · intro n' b' event hreader
        cases hreader
        rw [length_append, hlength]
        show n - s.available n + (b.length + s.available n) = s.stage.wants ∧ 0 < _
        omega
  obtain ⟨ms', done', hreading⟩ := hafter
  refine ⟨⟨?_, ?_, ?_, ?_, ?_, fun _ => ⟨ms', done', hreading⟩, ?_, ?_, ?_⟩, ?_⟩
  · rw [stream_read]
    exact h.whole
  · rw [stream_read, read_calls]
    exact h.once
  · rw [read_calls]
    exact h.fits
  · intro w hw
    rw [read_writers] at hw
    obtain ⟨v, hv, rfl⟩ := mem_map.mp hw
    rw [signal_idx, signal_message]
    exact h.incomplete v hv
  · rw [hreading.begun]
    exact prefix_append ..
  · rw [read_buffer, length_drop]
    have hbounded := h.bounded
    omega
  · intro n' b' hreader
    rw [read_buffer]
    rw [World.read] at hreader
    split at hreader
    · cases hreader
    · next hleft =>
      rw [World.available] at hleft ⊢
      split at hleft
      · omega
      · next hfew =>
        rw [if_neg hfew, drop_length]
  · intro w hw hwait
    rw [read_writers] at hw
    obtain ⟨v, -, rfl⟩ := mem_map.mp hw
    exact absurd hwait (wait_signal .read v)
  · rw [World.read]
    split <;> nofun

theorem ended (h : Inv s) : Inv { s with reader := .ended } where
  whole := h.whole
  once := h.once
  fits := h.fits
  incomplete := h.incomplete
  initial := h.initial
  reading := fun hne => absurd rfl hne
  bounded := h.bounded
  fed := by
    intro n b hreader
    cases hreader
  room := h.room

theorem receive (h : Inv s) (hreader : s.reader = .parsing) : Inv s.receive := by
  rw [World.receive]
  obtain ⟨ms, done, hreading⟩ := h.reading (by rw [hreader]; nofun)
  split
  · have hreceived := hreading.received
    rw [hreader] at hreceived
    exact (h.read hreading.begun hreading.within hreceived rfl).1
  · exact h.ended

theorem resumeReader (h : Inv s) : Inv s.resumeReader := by
  rw [World.resumeReader]
  split
  · exact h.ended
  · next n b event _ hreader =>
    obtain ⟨ms, done, hreading⟩ := h.reading (by rw [hreader]; nofun)
    have hreceived := hreading.received
    rw [hreader] at hreceived
    exact (h.read hreading.begun hreading.within hreceived
      (hreading.pending n b _ hreader).1).1
  · exact h

theorem close (h : Inv s) : Inv s.close := by
  rw [World.close]
  split
  · have hstream : ({ s.signal .close with isOpen := false } : World).stream = s.stream :=
      stream_signal s .close
    refine ⟨?_, ?_, h.fits, ?_, h.initial, ?_, h.bounded, ?_, ?_⟩
    · rw [hstream]
      exact h.whole
    · rw [hstream]
      exact h.once
    · intro w hw
      obtain ⟨v, hv, rfl⟩ := mem_map.mp hw
      rw [signal_idx, signal_message]
      exact h.incomplete v hv
    · intro hreader
      obtain ⟨ms, done, hreading⟩ := h.reading (reader_of_signal hreader)
      obtain ⟨hbegun, hwithin, hreceived, hpending⟩ := hreading.signal .close
      exact ⟨ms, done, hbegun, hwithin, hreceived, hpending⟩
    · intro n b hreader
      exact absurd hreader (signalled_fed s .close n b)
    · intro w hw hwait
      exact absurd hwait (signalled_room s .close w hw)
  · exact h

theorem step (h : Inv s) {e : Event} (he : Enabled s e) (hsound : Sound s e) :
    Inv (step s e) := by
  cases e with
  | receive => exact h.receive he
  | resumeReader => exact h.resumeReader
  | send message => exact h.send hsound.1 hsound.2
  | resumeWriter w => exact h.resumeWriter he.1 hsound
  | close => exact h.close

end Inv

/-! ## Runs -/

/-- As long as no call puts bytes while another message is in the FIFO in part only, the
channel carries the messages intact. -/
theorem channel_intact {s : World}
    (h : Runs step (fun s e => Enabled s e ∧ Sound s e) new s) : Intact s := by
  have hinv : Inv s := h.invariant (fun _ _ he hs => hs.step he.1 he.2) inv_new
  exact hinv.intact

/-- Two commands are written before the first is read. -/
theorem channel_intact_two :
    let first : Message := ⟨30, .command, 0, [34, 34]⟩
    let second : Message := ⟨30, .response 0, 1, []⟩
    Intact ([Event.send first, .receive, .send second, .receive, .receive, .receive,
      .receive].foldl step new) := by
  intro first second
  apply channel_intact
  apply Along.runs
  decide +kernel

theorem overtaken {long short : Message} (hlong : long.pack.length = bufferMaxSize + 8)
    (hshort : short.pack.length = 8)
    (hheader : Stage.header.next (long.pack.take 8) =
      (.payload long.header .command bufferMaxSize, [])) :
    let es := [.send long, .send short, .receive, .resumeWriter ⟨short, 0, .woken .read⟩, .receive]
    Along step Enabled new es ∧ (es.foldl step new).begun = [long, short] ∧
      (es.foldl step new).delivered = [⟨long.header.cmd, .command, long.header.rid,
        (long.pack.take bufferMaxSize).drop 8 ++ short.pack⟩] := by
  have hfull : (long.pack.take bufferMaxSize).length = bufferMaxSize := by
    rw [length_take, hlong]
    rfl
  have hpos : 0 < bufferMaxSize := by decide
  have hroom : bufferMaxSize - (bufferMaxSize - 8) = 8 := by decide
  have htake : short.pack.take 8 = short.pack := take_of_length_le hshort.le
  have h8 : 8 ≤ bufferMaxSize := by decide
  have hsent : step (step new (.send long)) (.send short) = { new with
      buffer := long.pack.take bufferMaxSize
      writers := [⟨short, 0, .suspended⟩, ⟨long, bufferMaxSize, .woken .write⟩]
      calls := [long, short]
      begun := [long] } := by
    simp [step, World.send, World.write, World.fitting, World.fill, World.signal, Writer.signal,
      Reader.signal, new, hlong, hshort, hfull, hpos]
  have hread : step (step (step new (.send long)) (.send short)) .receive = { new with
      buffer := (long.pack.take bufferMaxSize).drop 8
      stage := .payload long.header .command bufferMaxSize
      writers := [⟨short, 0, .woken .read⟩, ⟨long, bufferMaxSize, .woken .write⟩]
      calls := [long, short]
      begun := [long]
      received := long.pack.take 8 } := by
    rw [hsent]
    simp [step, World.receive, World.read, World.available, World.take, World.arrive, Stage.wants,
      World.signal, Writer.signal, Reader.signal, new, hfull, h8, hheader, take_take]
  have hwritten : step (step (step (step new (.send long)) (.send short)) .receive)
      (.resumeWriter ⟨short, 0, .woken .read⟩) = { new with
      buffer := (long.pack.take bufferMaxSize).drop 8 ++ short.pack
      stage := .payload long.header .command bufferMaxSize
      writers := [⟨long, bufferMaxSize, .woken .write⟩]
      calls := [long, short]
      begun := [long, short]
      received := long.pack.take 8 } := by
    rw [hread]
    simp [step, World.resumeWriter, World.write, World.fitting, World.fill, World.signal, Writer.signal,
      Reader.signal, new, hshort, hfull, hroom, htake]
  refine ⟨⟨trivial, trivial, ?_, ?_, ?_, trivial⟩, ?_, ?_⟩
  · rw [Enabled, hsent]
    rfl
  · rw [Enabled, hread]
    exact ⟨mem_cons_self, rfl⟩
  · rw [Enabled, hwritten]
    rfl
  all_goals
    simp only [foldl_cons, foldl_nil]
    rw [hwritten]
    simp [step, World.receive, World.read, World.available, World.take, World.arrive, Stage.wants,
      Stage.next, World.signal, new, hshort, hfull, h8, Reader.signal]

/-- A message longer than the buffer, and a short one that is written while it is under way:
the reader takes the header of the second for the end of the first. -/
theorem long_message_mixed :
    let long : Message := ⟨1, .command, 0, List.replicate bufferMaxSize 48⟩
    let short : Message := ⟨1, .command, 1, []⟩
    let es : List Event :=
      [.send long, .send short, .receive, .resumeWriter ⟨short, 0, .woken .read⟩, .receive]
    Along step Enabled new es ∧
      (es.foldl step new).delivered.map (·.payload.drop (bufferMaxSize - 8)) =
        [short.pack] ∧
      ¬ Intact (es.foldl step new) := by
  intro long short es
  have hlong : long.pack.length = bufferMaxSize + 8 := by
    rw [Message.pack, length_append, Header.pack_length, length_append, length_replicate,
      show long.status = [] from rfl, length_nil]
    omega
  have hheader : Stage.header.next (long.pack.take 8) =
      (.payload long.header .command bufferMaxSize, []) := by
    rw [Message.pack, take_left' (Header.pack_length _), Stage.next, Header.unpack_pack,
      show long.header = ⟨1, 0, 0, bufferMaxSize⟩ by rw [Message.header, length_replicate]]
    · rfl
    · rw [Message.header, length_replicate]
      decide
  obtain ⟨halong, hbegun, hdelivered⟩ := @overtaken long short hlong rfl hheader
  have hdrop : ((long.pack.take bufferMaxSize).drop 8 ++ short.pack).drop (bufferMaxSize - 8) =
      short.pack := drop_left' (by rw [length_drop, length_take, hlong]; rfl)
  refine ⟨halong, ?_, fun h => ?_⟩
  · rw [hdelivered]
    exact congrArg (fun l => [l]) hdrop
  · have hwhole := h.whole
    rw [hdelivered, hbegun] at hwhole
    have hpayload := congrArg (fun m => m.payload.drop (bufferMaxSize - 8)) (cons_prefix_cons.mp hwhole).1
    have heq := hdrop.symm.trans hpayload
    rw [drop_replicate] at heq
    revert heq
    decide

end Mihini.Racon.Ipc
