import Mihini.Lib.Bytes
import Mihini.Lib.Run
import Mihini.Lib.Pieces

/-!
# RPC sessions

`src/luafwk/rpc/sched.lua` and `src/luafwk/rpc/common.lua`: the tasks that call through one
session, those that answer the requests of the peer, and the loop that reads the responses
share a socket and a signal.  Tasks are interleaved where the socket blocks and where they
wait for the signal.
-/

set_option linter.unusedSectionVars false

namespace Mihini.Rpc

open Mihini.Lib Lib.Bytes List

inductive Value (α : Type)
  | str (s : String)
  | other (a : α)
  deriving DecidableEq, Repr

structure Response (α : Type) where
  status : Nat
  results : List (Value α)
  seqnum : UInt8
  deriving DecidableEq, Repr

/-- How a call ends: with results, with an error, or with `nil` and a message. -/
inductive Outcome (α : Type)
  | returned (results : List (Value α))
  | raised (err : Option (Value α))
  | failed (msg : String)
  deriving DecidableEq, Repr

def remoteError {α : Type} : Value α → Value α
  | .str s => .str ("Error in remote call:\n" ++ s)
  | .other a => .other a

def Response.outcome {α : Type} (r : Response α) : Outcome α :=
  match r.status with
  | 0 => .returned r.results
  | 1 => .raised (r.results.head?.map remoteError)
  | 2 => .failed "function not existing"
  | 3 => .failed "not a function"
  | n => .failed ("bad status " ++ toString n)

/-- A request or, when the type is 1, a response whose payload begins with the status. -/
structure Frame where
  type : UInt8
  seqnum : UInt8
  payload : List UInt8
  deriving DecidableEq, Repr

def Frame.bytes (f : Frame) : List UInt8 :=
  f.type :: f.seqnum :: (beBytes 4 f.payload.length ++ f.payload)

/-- The length of the first string `execute` sends: the header and the status. -/
def responseHead : Nat := 7

/-- A task in `call`, with the first response of its number that has arrived since it took the
number; or one that only sends. -/
inductive Kind (α : Type)
  | call (answer : Option (Response α))
  | execute
  deriving DecidableEq, Repr

/-- A task is in `skt:send`, has given its frame up, waits for the signal, or has been woken up
by it. -/
inductive Phase (α : Type)
  | sending
  | failed
  | waiting
  | woken (r : Response α)
  | broken (msg : String)
  deriving DecidableEq, Repr

structure Task (α : Type) where
  kind : Kind α
  frame : Frame
  sent : Nat
  phase : Phase α
  deriving DecidableEq, Repr

structure Finished (α : Type) where
  seqnum : UInt8
  answer : Option (Response α)
  outcome : Outcome α
  deriving DecidableEq, Repr

structure Session (α : Type) where
  seqnum : UInt8
  closed : Bool
  listening : Bool
  out : List UInt8
  begun : List Frame
  frames : List Frame
  tasks : List (Task α)
  finished : List (Finished α)
  deriving DecidableEq, Repr

def newsession {α : Type} : Session α where
  seqnum := 0
  closed := false
  listening := true
  out := []
  begun := []
  frames := []
  tasks := []
  finished := []

section Operations

variable {α : Type} [DecidableEq α]

namespace Task

def isCall (w : Task α) : Bool :=
  match w.kind with
  | .call _ => true
  | .execute => false

def Unsent (w : Task α) : Prop := w.sent < w.frame.bytes.length

instance (w : Task α) : Decidable w.Unsent := inferInstanceAs (Decidable (_ < _))

/-- The task when the socket has taken `sent` bytes: a call then waits for its response. -/
def sentUpTo (w : Task α) (sent : Nat) : List (Task α) :=
  if sent < w.frame.bytes.length then [{ w with sent := sent }]
  else
    match w.kind with
    | .call _ => [{ w with sent := sent, phase := .waiting }]
    | .execute => []

def response (r : Response α) (w : Task α) : Task α :=
  { w with
    kind := if w.kind = .call none ∧ w.frame.seqnum = r.seqnum then .call (some r) else w.kind
    phase := if w.phase = .waiting then .woken r else w.phase }

def error (msg : String) (w : Task α) : Task α :=
  { w with phase := if w.phase = .waiting then .broken msg else w.phase }

end Task

namespace Session

variable (s : Session α)

def start (kind : Kind α) (frame : Frame) : Session α :=
  { s with
    frames := s.frames ++ [frame]
    tasks := ⟨kind, frame, 0, .sending⟩ :: s.tasks }

def call (payload : List UInt8) : Session α :=
  { s with seqnum := s.seqnum + 1 }.start (.call none) ⟨0, s.seqnum, payload⟩

/-- `execute`, once the function has returned, up to its first send. -/
def execute (seqnum status : UInt8) (payload : List UInt8) : Session α :=
  s.start .execute ⟨1, seqnum, status :: payload⟩

/-- The socket takes the next `n` bytes of the two strings of a task. -/
def put (w : Task α) (n : Nat) : Session α :=
  { s with
    out := s.out ++ (w.frame.bytes.drop w.sent).take n
    begun := if w.sent = 0 ∧ 0 < n then s.begun ++ [w.frame] else s.begun
    tasks := w.sentUpTo (w.sent + n) ++ s.tasks.erase w }

def finish (w : Task α) (outcome : Outcome α) : List (Finished α) :=
  match w.kind with
  | .call answer => ⟨w.frame.seqnum, answer, outcome⟩ :: s.finished
  | .execute => s.finished

def fail (w : Task α) (err : String) : Session α :=
  -- `execute` ignores the error and goes on with its second string
  if w.kind = .execute ∧ w.sent < responseHead ∧ ¬ s.closed then
    { s with tasks := w.sentUpTo responseHead ++ s.tasks.erase w }
  else
    { s with
      tasks := { w with kind := .execute, phase := .failed } :: s.tasks.erase w
      finished := s.finish w (.failed err) }

def response (r : Response α) : Session α :=
  { s with tasks := s.tasks.map (Task.response r) }

def resume (w : Task α) : Session α :=
  match w.phase with
  | .woken r =>
    if w.frame.seqnum = r.seqnum then
      { s with tasks := s.tasks.erase w, finished := s.finish w r.outcome }
    else { s with tasks := { w with phase := .waiting } :: s.tasks.erase w }
  | .broken msg => { s with tasks := s.tasks.erase w, finished := s.finish w (.failed msg) }
  | _ => s

def error (msg : String) : Session α :=
  { s with closed := true, listening := false, tasks := s.tasks.map (Task.error msg) }

end Session

inductive Event (α : Type)
  | call (payload : List UInt8)
  | execute (seqnum status : UInt8) (payload : List UInt8)
  | put (w : Task α) (n : Nat)
  | fail (w : Task α) (err : String)
  | response (r : Response α)
  | resume (w : Task α)
  | error (msg : String)
  | close
  deriving DecidableEq, Repr

def step (s : Session α) : Event α → Session α
  | .call payload => s.call payload
  | .execute seqnum status payload => s.execute seqnum status payload
  | .put w n => s.put w n
  | .fail w err => s.fail w err
  | .response r => s.response r
  | .resume w => s.resume w
  | .error msg => s.error msg
  | .close => { s with closed := true }

def Phase.isWoken : Phase α → Bool
  | .woken _ | .broken _ => true
  | _ => false

/-- An open socket takes bytes of a task that sends; a send fails when the socket is closed
or another task is already registered for it; `loop` reads while it runs. -/
def Enabled (s : Session α) : Event α → Prop
  | .call _ | .execute _ _ _ | .close => True
  | .put w n =>
    w ∈ s.tasks ∧ w.phase = .sending ∧ ¬ s.closed ∧ w.sent + n ≤ w.frame.bytes.length
  | .fail w _ =>
    w ∈ s.tasks ∧ w.phase = .sending ∧ (s.closed ∨ ∃ v ∈ s.tasks.erase w, v.phase = .sending)
  | .response _ | .error _ => s.listening
  | .resume w => w ∈ s.tasks ∧ w.phase.isWoken

/-- A call takes a number that no call in progress has.  Bytes are taken while no other frame
is on the stream in part only, and the head of a response is not refused by an open socket.
When a response arrives, its call is waiting for the signal: it neither sends still, nor has
another response just woken it up. -/
def Sound (s : Session α) : Event α → Prop
  | .call _ => ∀ v ∈ s.tasks, v.isCall → v.frame.seqnum ≠ s.seqnum
  | .put w n => 0 < n → ∀ v ∈ s.tasks.erase w, v.Unsent → v.sent = 0
  | .fail w _ => w.kind = .execute → s.closed ∨ responseHead ≤ w.sent
  | .response r =>
    ∀ v ∈ s.tasks, v.kind = .call none → v.frame.seqnum = r.seqnum → v.phase = .waiting
  | _ => True

instance (s : Session α) : (e : Event α) → Decidable (Enabled s e)
  | .call _ | .execute _ _ _ | .close => inferInstanceAs (Decidable True)
  | .put _ _ => inferInstanceAs (Decidable (_ ∧ _ ∧ _ ∧ _))
  | .fail _ _ => inferInstanceAs (Decidable (_ ∧ _ ∧ (_ ∨ _)))
  | .response _ | .error _ => inferInstanceAs (Decidable (_ = _))
  | .resume _ => inferInstanceAs (Decidable (_ ∧ _))

instance (s : Session α) : (e : Event α) → Decidable (Sound s e)
  | .call _ => inferInstanceAs (Decidable (∀ v ∈ s.tasks, _ → _))
  | .put _ _ => inferInstanceAs (Decidable (_ → ∀ v ∈ _, _ → _))
  | .fail _ _ => inferInstanceAs (Decidable (_ → (_ ∨ _)))
  | .response _ => inferInstanceAs (Decidable (∀ v ∈ s.tasks, _ → _ → _))
  | .execute _ _ _ | .resume _ | .error _ | .close => inferInstanceAs (Decidable True)

def numbers (l : List (Task α)) : Multiset UInt8 :=
  ((l.filter Task.isCall).map (·.frame.seqnum) : List UInt8)

end Operations

/-- The stream is made of whole frames, but for the one under way; and a call whose response
has arrived has been woken up by it, or has returned what it says.  No two calls in progress
have the same number. -/
structure Answered {α : Type} [DecidableEq α] (s : Session α) : Prop where
  whole : s.out <+: s.begun.flatMap Frame.bytes
  complete : (∀ w ∈ s.tasks, w.Unsent → w.sent = 0) → s.out = s.begun.flatMap Frame.bytes
  once : (s.begun : Multiset Frame) +
    ((s.tasks : Multiset (Task α)).filter (·.sent = 0)).map Task.frame = s.frames
  woken : ∀ w ∈ s.tasks, ∀ r, w.kind = .call (some r) →
    w.phase = .woken r ∧ w.frame.seqnum = r.seqnum
  returned : ∀ f ∈ s.finished, ∀ r, f.answer = some r →
    f.outcome = r.outcome ∧ f.seqnum = r.seqnum
  own : (numbers s.tasks).Nodup

/-! ## Tasks -/

section Tasks

variable {α : Type} [DecidableEq α]

theorem Frame.bytes_length (f : Frame) : f.bytes.length = 6 + f.payload.length := by
  rw [Frame.bytes, length_cons, length_cons, length_append, beBytes_length]
  omega

def Task.part (w : Task α) : Fragment Frame := ⟨w.frame, w.sent⟩

def parts (l : List (Task α)) : Multiset (Fragment Frame) :=
  ((l.filter (·.Unsent)).map Task.part : List (Fragment Frame))

def Session.stream (s : Session α) : Pieces Frame UInt8 where
  out := s.out
  begun := s.begun
  parts := parts s.tasks

theorem parts_cons (w : Task α) (l : List (Task α)) :
    parts (w :: l) = (if w.Unsent then {w.part} else 0) + parts l := by
  rw [parts, parts, filter_cons]
  by_cases h : w.Unsent
  · rw [if_pos (decide_eq_true h), if_pos h]
    rfl
  · rw [if_neg (by simpa using h), if_neg h, Multiset.zero_add]

theorem numbers_cons (w : Task α) (l : List (Task α)) :
    numbers (w :: l) = (if w.isCall then {w.frame.seqnum} else 0) + numbers l := by
  rw [numbers, numbers, filter_cons]
  split
  · rfl
  · rw [Multiset.zero_add]

theorem parts_append (l l' : List (Task α)) : parts (l ++ l') = parts l + parts l' := by
  rw [parts, filter_append, map_append, ← Multiset.coe_add]
  rfl

theorem numbers_append (l l' : List (Task α)) : numbers (l ++ l') = numbers l + numbers l' := by
  rw [numbers, filter_append, map_append, ← Multiset.coe_add]
  rfl

theorem parts_erase {w : Task α} {l : List (Task α)} (hw : w ∈ l) :
    parts l = (if w.Unsent then {w.part} else 0) + parts (l.erase w) := by
  rw [← parts_cons]
  exact Multiset.coe_eq_coe.mpr (((perm_cons_erase hw).filter _).map _)

theorem numbers_erase {w : Task α} {l : List (Task α)} (hw : w ∈ l) :
    numbers l = (if w.isCall then {w.frame.seqnum} else 0) + numbers (l.erase w) := by
  rw [← numbers_cons]
  exact Multiset.coe_eq_coe.mpr (((perm_cons_erase hw).filter _).map _)

theorem parts_map {f : Task α → Task α} (hframe : ∀ w, (f w).frame = w.frame)
    (hsent : ∀ w, (f w).sent = w.sent) (l : List (Task α)) : parts (l.map f) = parts l := by
  induction l with
  | nil => rfl
  | cons w l ih =>
    have hpart : (f w).part = w.part := by rw [Task.part, Task.part, hframe, hsent]
    have hunsent : (f w).Unsent ↔ w.Unsent := by rw [Task.Unsent, Task.Unsent, hframe, hsent]
    rw [map_cons, parts_cons, parts_cons, ih, hpart]
    simp only [hunsent]

theorem numbers_map {f : Task α → Task α} (hframe : ∀ w, (f w).frame = w.frame)
    (hcall : ∀ w, (f w).isCall = w.isCall) (l : List (Task α)) :
    numbers (l.map f) = numbers l := by
  induction l with
  | nil => rfl
  | cons w l ih =>
    rw [map_cons, numbers_cons, numbers_cons, ih, hframe, hcall]

theorem parts_sentUpTo (w : Task α) (n : Nat) :
    parts (w.sentUpTo (w.sent + n)) = w.part.advance Frame.bytes n := by
  show _ = if w.sent + n < w.frame.bytes.length then
    ({⟨w.frame, w.sent + n⟩} : Multiset (Fragment Frame)) else 0
  rw [Task.sentUpTo]
  by_cases h : w.sent + n < w.frame.bytes.length
  · rw [if_pos h, if_pos h, parts_cons]
    exact (Multiset.add_zero _).trans (if_pos h)
  rw [if_neg h, if_neg h]
  cases w.kind with
  | call answer =>
    rw [parts_cons]
    exact (Multiset.add_zero _).trans (if_neg h)
  | execute => rfl

theorem numbers_sentUpTo (w : Task α) (n : Nat) :
    numbers (w.sentUpTo n) = if w.isCall then {w.frame.seqnum} else 0 := by
  rw [Task.sentUpTo]
  split
  · rw [numbers_cons]
    exact Multiset.add_zero _
  split
  · next answer hkind =>
    have hcall : w.isCall = true := by rw [Task.isCall, hkind]
    rw [numbers_cons, if_pos hcall]
    exact (Multiset.add_zero _).trans (if_pos hcall)
  · next hkind =>
    have hcall : w.isCall = false := by rw [Task.isCall, hkind]
    rw [hcall]
    rfl

end Tasks

/-! ## The invariant -/

section Invariant

variable {α : Type} [DecidableEq α]

/-- Bytes are left as long as a task sends or has given up, and a call that is answered has
been woken up by its response. -/
structure Task.Fits (w : Task α) : Prop where
  unsent : w.Unsent ↔ w.phase = .sending ∨ w.phase = .failed
  woken : ∀ r, w.kind = .call (some r) → w.phase = .woken r ∧ w.frame.seqnum = r.seqnum

structure Inv (s : Session α) : Prop where
  whole : s.stream.Whole Frame.bytes
  once : s.stream.messages = s.frames
  tasks : ∀ w ∈ s.tasks, w.Fits
  returned : ∀ f ∈ s.finished, ∀ r, f.answer = some r →
    f.outcome = r.outcome ∧ f.seqnum = r.seqnum
  own : (numbers s.tasks).Nodup

theorem inv_newsession : Inv (newsession : Session α) where
  whole := .inl ⟨rfl, rfl⟩
  once := rfl
  tasks := by
    intro w hw
    cases hw
  returned := by
    intro f hf
    cases hf
  own := Multiset.nodup_zero

theorem mem_parts {q : Fragment Frame} {l : List (Task α)} (hq : q ∈ parts l) :
    ∃ w ∈ l, w.Unsent ∧ q = w.part := by
  obtain ⟨w, hw, rfl⟩ := mem_map.mp (Multiset.mem_coe.mp hq)
  obtain ⟨hmem, hunsent⟩ := mem_filter.mp hw
  exact ⟨w, hmem, of_decide_eq_true hunsent, rfl⟩

theorem part_mem_parts {w : Task α} {l : List (Task α)} (hw : w ∈ l) (hunsent : w.Unsent) :
    w.part ∈ parts l :=
  Multiset.mem_coe.mpr (mem_map_of_mem (mem_filter.mpr ⟨hw, decide_eq_true hunsent⟩))

theorem filter_parts (l : List (Task α)) :
    ((parts l).filter (·.sent = 0)).map Fragment.message =
      ((l : Multiset (Task α)).filter (·.sent = 0)).map Task.frame := by
  induction l with
  | nil => rfl
  | cons w l ih =>
    rw [parts_cons, ← Multiset.cons_coe, Multiset.filter_add, Multiset.map_add, ih]
    by_cases hzero : w.sent = 0
    · have hunsent : w.Unsent := by
        rw [Task.Unsent, hzero, Frame.bytes_length]
        omega
      rw [if_pos hunsent, Multiset.filter_cons_of_pos (p := fun v : Task α => v.sent = 0) _ hzero,
        Multiset.map_cons, Multiset.filter_singleton,
        if_pos (show w.part.sent = 0 from hzero), Multiset.map_singleton,
        Multiset.singleton_add]
      rfl
    · rw [Multiset.filter_cons_of_neg (p := fun v : Task α => v.sent = 0) _ hzero]
      split
      · rw [Multiset.filter_singleton, if_neg (show ¬ w.part.sent = 0 from hzero)]
        exact Multiset.zero_add _
      · exact Multiset.zero_add _

namespace Inv

variable {s : Session α}

theorem answered (h : Inv s) : Answered s where
  whole := h.whole.initial
  complete := by
    intro hidle
    rcases h.whole with ⟨-, hout⟩ | ⟨p, hp, -⟩
    · exact hout
    · have hmem : p ∈ s.stream.parts.filter Fragment.Begun := by
        rw [hp]
        exact Multiset.mem_singleton_self p
      obtain ⟨hparts, hbegun⟩ := Multiset.mem_filter.mp hmem
      obtain ⟨w, hw, hunsent, rfl⟩ := mem_parts hparts
      exact absurd (hidle w hw hunsent) (Nat.ne_of_gt hbegun)
  once := by
    rw [← h.once, Pieces.messages]
    congr 1
    exact (filter_parts s.tasks).symm
  woken := fun w hw r hkind => (h.tasks w hw).woken r hkind
  returned := h.returned
  own := h.own

/-- What a task leaves behind that is no longer among the tasks. -/
theorem of_tasks {s' : Session α} (h : Inv s) (hparts : parts s'.tasks = parts s.tasks)
    (hout : s'.out = s.out) (hbegun : s'.begun = s.begun) (hframes : s'.frames = s.frames)
    (htasks : ∀ w ∈ s'.tasks, w.Fits)
    (hreturned : ∀ f ∈ s'.finished, ∀ r, f.answer = some r →
      f.outcome = r.outcome ∧ f.seqnum = r.seqnum)
    (hown : numbers s'.tasks ≤ numbers s.tasks) : Inv s' := by
  have hstream : s'.stream = s.stream := by
    rw [Session.stream, Session.stream, hparts, hout, hbegun]
  refine ⟨?_, ?_, htasks, hreturned, Multiset.nodup_of_le hown h.own⟩
  · rw [hstream]
    exact h.whole
  · rw [hstream, hframes]
    exact h.once

theorem start (h : Inv s) {kind : Kind α} {frame : Frame}
    (hkind : kind = .call none ∨ kind = .execute)
    (hown : kind = .call none → frame.seqnum ∉ numbers s.tasks) : Inv (s.start kind frame) := by
  have hunsent : (⟨kind, frame, 0, .sending⟩ : Task α).Unsent := by
    show 0 < frame.bytes.length
    rw [Frame.bytes_length]
    omega
  have hstream : (s.start kind frame).stream = s.stream.start frame := by
    rw [Session.stream, Session.start]
    show Pieces.mk _ _ (parts (_ :: s.tasks)) = _
    rw [parts_cons, if_pos hunsent]
    rfl
  refine ⟨?_, ?_, ?_, h.returned, ?_⟩
  · rw [hstream]
    exact h.whole.start frame
  · rw [hstream, Pieces.messages_start, h.once, Multiset.cons_coe]
    exact Multiset.coe_eq_coe.mpr (perm_append_singleton frame s.frames).symm
  · intro w hw
    rcases mem_cons.mp hw with rfl | hold
    · refine ⟨⟨fun _ => .inl rfl, fun _ => hunsent⟩, ?_⟩
      intro r hr
      rcases hkind with rfl | rfl
      · cases hr
      · cases hr
    · exact h.tasks w hold
  · show (numbers (_ :: s.tasks)).Nodup
    rw [numbers_cons]
    split
    · next hcall =>
      refine Multiset.nodup_cons.mpr ⟨?_, h.own⟩
      apply hown
      rcases hkind with rfl | rfl
      · rfl
      · cases hcall
    · rw [Multiset.zero_add]
      exact h.own

theorem mem_numbers {q : UInt8} {l : List (Task α)} (hq : q ∈ numbers l) :
    ∃ w ∈ l, w.isCall ∧ w.frame.seqnum = q := by
  obtain ⟨w, hw, rfl⟩ := mem_map.mp (Multiset.mem_coe.mp hq)
  obtain ⟨hmem, hcall⟩ := mem_filter.mp hw
  exact ⟨w, hmem, hcall, rfl⟩

theorem call (h : Inv s) (payload : List UInt8)
    (hsound : ∀ v ∈ s.tasks, v.isCall → v.frame.seqnum ≠ s.seqnum) : Inv (s.call payload) := by
  have hnext : Inv { s with seqnum := s.seqnum + 1 } :=
    ⟨h.whole, h.once, h.tasks, h.returned, h.own⟩
  refine hnext.start (.inl rfl) ?_
  intro _ hmem
  obtain ⟨w, hw, hcall, heq⟩ := mem_numbers hmem
  exact hsound w hw hcall heq

theorem execute (h : Inv s) (seqnum status : UInt8) (payload : List UInt8) :
    Inv (s.execute seqnum status payload) :=
  h.start (.inr rfl) fun heq => by cases heq

variable {w : Task α}

theorem stream_erase (hw : w ∈ s.tasks) (hunsent : w.Unsent) :
    s.stream.parts.erase w.part = parts (s.tasks.erase w) := by
  show (parts s.tasks).erase w.part = _
  rw [parts_erase hw, if_pos hunsent, Multiset.singleton_add, Multiset.erase_cons_head]

theorem stream_put (hw : w ∈ s.tasks) (hunsent : w.Unsent) (n : Nat) :
    (s.put w n).stream = s.stream.put Frame.bytes w.part n := by
  rw [Session.put, Session.stream, Pieces.put, stream_erase hw hunsent]
  congr 1
  rw [parts_append, parts_sentUpTo]

theorem put (h : Inv s) {n : Nat} (hw : w ∈ s.tasks) (hphase : w.phase = .sending)
    (hsound : 0 < n → ∀ v ∈ s.tasks.erase w, v.Unsent → v.sent = 0) : Inv (s.put w n) := by
  have hfits := h.tasks w hw
  have hunsent : w.Unsent := hfits.unsent.mpr (.inl hphase)
  have hmem : w.part ∈ s.stream.parts := part_mem_parts hw hunsent
  refine ⟨?_, ?_, ?_, h.returned, ?_⟩
  · rw [stream_put hw hunsent]
    by_cases hzero : n = 0
    · rw [hzero, Pieces.put_zero hmem hunsent]
      exact h.whole
    refine h.whole.put hmem (Nat.pos_of_ne_zero hzero) ?_
    intro q hq
    rw [stream_erase hw hunsent] at hq
    obtain ⟨v, hv, hvunsent, rfl⟩ := mem_parts hq
    exact hsound (Nat.pos_of_ne_zero hzero) v hv hvunsent
  · rw [stream_put hw hunsent, Pieces.messages_put hmem hunsent]
    exact h.once
  · intro v hv
    rcases mem_append.mp hv with hnew | hold
    · rw [Task.sentUpTo] at hnew
      split at hnew
      · next hleft =>
        rw [mem_singleton.mp hnew]
        refine ⟨⟨fun _ => .inl hphase, fun _ => hleft⟩, ?_⟩
        intro r hr
        exact absurd (hfits.woken r hr).1 (by rw [hphase]; nofun)
      · next hend =>
        split at hnew
        · rw [mem_singleton.mp hnew]
          refine ⟨⟨fun hlt => absurd hlt hend, ?_⟩, ?_⟩
          · rintro (heq | heq) <;> cases heq
          intro r hr
          exact absurd (hfits.woken r hr).1 (by rw [hphase]; nofun)
        · cases hnew
    · exact h.tasks v (mem_of_mem_erase hold)
  · show (numbers (_ ++ s.tasks.erase w)).Nodup
    rw [numbers_append, numbers_sentUpTo, ← numbers_erase hw]
    exact h.own

theorem finish (h : Inv s) (w : Task α) {outcome : Outcome α}
    (houtcome : ∀ r, w.kind = .call (some r) →
      outcome = r.outcome ∧ w.frame.seqnum = r.seqnum) :
    ∀ f ∈ s.finish w outcome, ∀ r, f.answer = some r →
      f.outcome = r.outcome ∧ f.seqnum = r.seqnum := by
  intro f hf r hr
  rw [Session.finish] at hf
  split at hf
  · next answer hkind =>
    rcases mem_cons.mp hf with rfl | hold
    · have hr' : answer = some r := hr
      exact houtcome r (by rw [hkind, hr'])
    · exact h.returned f hold r hr
  · exact h.returned f hf r hr

theorem fail (h : Inv s) (hw : w ∈ s.tasks) (hphase : w.phase = .sending)
    (hsound : w.kind = .execute → s.closed ∨ responseHead ≤ w.sent) (err : String) :
    Inv (s.fail w err) := by
  have hfits := h.tasks w hw
  have hunsent : w.Unsent := hfits.unsent.mpr (.inl hphase)
  have hskipped : ¬ (w.kind = .execute ∧ w.sent < responseHead ∧ ¬ s.closed) := by
    rintro ⟨hkind, hlt, hopen⟩
    rcases hsound hkind with hclosed | hle
    · exact hopen hclosed
    · omega
  rw [Session.fail, if_neg hskipped]
  refine h.of_tasks ?_ rfl rfl rfl ?_ ?_ ?_
  · show parts (_ :: s.tasks.erase w) = _
    rw [parts_cons, parts_erase hw]
    rfl
  · intro v hv
    rcases mem_cons.mp hv with rfl | hold
    · exact ⟨⟨fun _ => .inr rfl, fun _ => hunsent⟩, fun r hr => by cases hr⟩
    · exact h.tasks v (mem_of_mem_erase hold)
  · apply h.finish
    intro r hr
    exact absurd (hfits.woken r hr).1 (by rw [hphase]; nofun)
  · show numbers (_ :: s.tasks.erase w) ≤ _
    rw [numbers_cons, numbers_erase hw]
    exact (le_of_eq (Multiset.zero_add _)).trans (Multiset.le_add_left _ _)

/-- What wakes a task that waits leaves the others in their phase. -/
theorem phase_woken {phase woken : Phase α} (hsending : woken ≠ .sending)
    (hfailed : woken ≠ .failed) :
    phase = .sending ∨ phase = .failed ↔
      (if phase = .waiting then woken else phase) = .sending ∨
        (if phase = .waiting then woken else phase) = .failed := by
  by_cases hwaiting : phase = .waiting
  · rw [if_pos hwaiting, hwaiting]
    constructor
    · rintro (heq | heq) <;> cases heq
    · rintro (heq | heq)
      · exact absurd heq hsending
      · exact absurd heq hfailed
  · rw [if_neg hwaiting]

theorem response (h : Inv s) {r : Response α}
    (hsound : ∀ v ∈ s.tasks, v.kind = .call none → v.frame.seqnum = r.seqnum →
      v.phase = .waiting) : Inv (s.response r) := by
  have hcall (w : Task α) : (w.response r).isCall = w.isCall := by
    by_cases hmatch : w.kind = .call none ∧ w.frame.seqnum = r.seqnum
    · rw [Task.isCall, Task.isCall, Task.response, if_pos hmatch, hmatch.1]
    · rw [Task.isCall, Task.isCall, Task.response, if_neg hmatch]
  refine h.of_tasks ?_ rfl rfl rfl ?_ h.returned ?_
  · exact parts_map (f := Task.response r) (fun _ => rfl) (fun _ => rfl) s.tasks
  · intro v hv
    obtain ⟨w, hw, rfl⟩ := mem_map.mp hv
    obtain ⟨hunsent, hwoken⟩ := h.tasks w hw
    constructor
    · exact hunsent.trans (phase_woken nofun nofun)
    · intro r' hr'
      show (if w.phase = .waiting then Phase.woken r else w.phase) = .woken r' ∧
        w.frame.seqnum = r'.seqnum
      have hkind : (if w.kind = .call none ∧ w.frame.seqnum = r.seqnum then .call (some r)
        else w.kind) = Kind.call (some r') := hr'
      split at hkind
      · next hmatch =>
        cases hkind
        rw [if_pos (hsound w hw hmatch.1 hmatch.2)]
        exact ⟨rfl, hmatch.2⟩
      · obtain ⟨hphase, hseqnum⟩ := hwoken r' hkind
        rw [hphase, if_neg (by nofun)]
        exact ⟨rfl, hseqnum⟩
  · exact le_of_eq (numbers_map (f := Task.response r) (fun _ => rfl) hcall s.tasks)

theorem error (h : Inv s) (msg : String) : Inv (s.error msg) := by
  refine h.of_tasks ?_ rfl rfl rfl ?_ h.returned ?_
  · exact parts_map (f := Task.error msg) (fun _ => rfl) (fun _ => rfl) s.tasks
  · intro v hv
    obtain ⟨w, hw, rfl⟩ := mem_map.mp hv
    obtain ⟨hunsent, hwoken⟩ := h.tasks w hw
    constructor
    · exact hunsent.trans (phase_woken nofun nofun)
    · intro r' hr'
      obtain ⟨hphase, hseqnum⟩ := hwoken r' hr'
      show (if w.phase = .waiting then Phase.broken msg else w.phase) = .woken r' ∧
        w.frame.seqnum = r'.seqnum
      rw [hphase, if_neg (by nofun)]
      exact ⟨rfl, hseqnum⟩
  · exact le_of_eq (numbers_map (f := Task.error msg) (fun _ => rfl) (fun _ => rfl) s.tasks)

theorem resume (h : Inv s) (hw : w ∈ s.tasks) : Inv (s.resume w) := by
  have hfits := h.tasks w hw
  -- a task that ends has nothing left to send
  have hends {outcome : Outcome α} (hunsent : ¬ w.Unsent)
      (houtcome : ∀ r, w.kind = .call (some r) →
        outcome = r.outcome ∧ w.frame.seqnum = r.seqnum) :
      Inv { s with tasks := s.tasks.erase w, finished := s.finish w outcome } := by
    refine h.of_tasks ?_ rfl rfl rfl ?_ (h.finish w houtcome) ?_
    · rw [parts_erase hw, if_neg hunsent, Multiset.zero_add]
    · exact fun v hv => h.tasks v (mem_of_mem_erase hv)
    · rw [numbers_erase hw]
      exact Multiset.le_add_left _ _
  rw [Session.resume]
  split
  · next r hphase =>
    have hunsent : ¬ w.Unsent := by
      rw [hfits.unsent, hphase]
      rintro (heq | heq) <;> cases heq
    split
    · next hseqnum =>
      refine hends hunsent ?_
      intro r' hr'
      obtain ⟨hphase', hseqnum'⟩ := hfits.woken r' hr'
      rw [hphase] at hphase'
      cases hphase'
      exact ⟨rfl, hseqnum'⟩
    · next hseqnum =>
      refine h.of_tasks ?_ rfl rfl rfl ?_ h.returned ?_
      · show parts (_ :: s.tasks.erase w) = _
        rw [parts_cons, parts_erase hw]
        rfl
      · intro v hv
        rcases mem_cons.mp hv with rfl | hold
        · refine ⟨⟨fun hlt => absurd hlt hunsent, ?_⟩, ?_⟩
          · rintro (heq | heq) <;> cases heq
          intro r' hr'
          obtain ⟨hphase', hseqnum'⟩ := hfits.woken r' hr'
          rw [hphase] at hphase'
          cases hphase'
          exact absurd hseqnum' hseqnum
        · exact h.tasks v (mem_of_mem_erase hold)
      · show numbers (_ :: s.tasks.erase w) ≤ _
        rw [numbers_cons, numbers_erase hw]
        exact le_refl _
  · next msg hphase =>
    refine hends ?_ ?_
    · rw [hfits.unsent, hphase]
      rintro (heq | heq) <;> cases heq
    · intro r hr
      have hphase' := (hfits.woken r hr).1
      rw [hphase] at hphase'
      cases hphase'
  · exact h

theorem step (h : Inv s) {e : Event α} (he : Enabled s e) (hsound : Sound s e) :
    Inv (step s e) := by
  cases e with
  | call payload => exact h.call payload hsound
  | execute seqnum status payload => exact h.execute seqnum status payload
  | put w n => exact h.put he.1 he.2.1 hsound
  | fail w err => exact h.fail he.1 he.2.1 hsound err
  | response r => exact h.response hsound
  | resume w => exact h.resume he.1
  | error msg => exact h.error msg
  | close => exact ⟨h.whole, h.once, h.tasks, h.returned, h.own⟩

end Inv

end Invariant

/-! ## Runs -/

section Runs

variable {α : Type} [DecidableEq α]

/-- In every run whose frames do not meet on the socket, and whose responses find their calls
waiting, the stream is made of whole frames and the calls get their own answers. -/
theorem calls_answered {s : Session α}
    (h : Runs step (fun s e => Enabled s e ∧ Sound s e) newsession s) : Answered s := by
  have hinv : Inv s := h.invariant (fun _ _ he hs => hs.step he.1 he.2) inv_newsession
  exact hinv.answered

/-- Two calls are answered one after the other, the first in two pieces. -/
theorem calls_answered_two :
    let first : Task Nat := ⟨.call none, ⟨0, 0, [1]⟩, 0, .sending⟩
    let second : Task Nat := ⟨.call none, ⟨0, 1, [2]⟩, 0, .sending⟩
    let r : Response Nat := ⟨0, [.other 5], 1⟩
    Answered ([Event.call [1], .put first 6, .put { first with sent := 6 } 1, .call [2],
      .put second 7, .response r, .resume ⟨.call (some r), ⟨0, 1, [2]⟩, 7, .woken r⟩].foldl
      step newsession) := by
  intro first second r
  apply calls_answered
  apply Along.runs
  decide

/-- The second of two responses that are read without a pause finds its call woken up by the
first: the call goes back to wait, and never returns. -/
theorem second_response_lost :
    let first : Task Nat := ⟨.call none, ⟨0, 0, [1]⟩, 0, .sending⟩
    let second : Task Nat := ⟨.call none, ⟨0, 1, [2]⟩, 0, .sending⟩
    let r : Response Nat := ⟨0, [], 0⟩
    let r' : Response Nat := ⟨0, [.other 5], 1⟩
    let es : List (Event Nat) := [.call [1], .put first 7, .call [2], .put second 7,
      .response r, .response r', .resume ⟨.call (some r), ⟨0, 0, [1]⟩, 7, .woken r⟩,
      .resume ⟨.call (some r'), ⟨0, 1, [2]⟩, 7, .woken r⟩]
    Along step Enabled newsession es ∧
      (es.foldl step newsession).tasks = [⟨.call (some r'), ⟨0, 1, [2]⟩, 7, .waiting⟩] ∧
      ¬ Answered (es.foldl step newsession) := by
  intro first second r r' es
  have htasks : (es.foldl step newsession).tasks =
      [⟨.call (some r'), ⟨0, 1, [2]⟩, 7, .waiting⟩] := by decide
  refine ⟨by decide, htasks, ?_⟩
  intro h
  have hwoken := h.woken _ (by rw [htasks]; exact mem_singleton_self _) r' rfl
  cases hwoken.1

end Runs

end Mihini.Rpc
