import Mathlib.Data.List.Infix
import Mathlib.Logic.Function.Basic
import Mihini.Lib.Run

/-!
# AT commands

`src/luafwk/serial/at.lua`: the tasks that run commands, and the reader of the lines of the modem.  A
task stops where it waits for the lock, for the write and for the response; the reader goes from one line
to the next.
-/

namespace Mihini.Serial

open Mihini.Lib

abbrev Str := List Char

/-- The arguments of `run_internal`. -/
structure Call where
  command : Str
  nbLines : Option Nat
  prompt : Option Str
  deriving DecidableEq

/-! ## The reader -/

/-- The pattern `+CM%u ERROR:`, at the beginning of a string. -/
def startsCmError : Str → Bool
  | '+' :: 'C' :: 'M' :: c :: rest => c.isUpper && " ERROR:".toList.isPrefixOf rest
  | _ => false

/-- The test of `readAtResponse` for a final response. -/
def isFinal (nb : Option Nat) (line : Str) : Bool :=
  (nb.isNone && line = "OK".toList) || line = "ERROR".toList || line.tails.any startsCmError ||
    line.tails.any "+CPIN".toList.isPrefixOf

/-- Where the reader is: in its own loop, or in `readAtResponse` with the lines that are left to read. -/
inductive Reader where
  | idle
  | prompt (nb : Option Nat) (prompt : Str)
  | finish (nb : Option Nat) (prompt : Str)
  | lines (nb : Option Nat) (result : List Str)
  deriving DecidableEq

def lastLine (nb : Option Nat) : Bool := nb.any (· ≤ 1)

/-- The end of a turn of the loop of `readAtResponse`, with its result when it returns. -/
def Reader.insert (nb : Option Nat) (result : List Str) (line : Str) : Reader × Option (List Str) :=
  if isFinal nb line || lastLine nb then (.idle, some (result ++ [line]))
  else (.lines (nb.map (· - 1)) (result ++ [line]), none)

def Reader.start (nb : Option Nat) (prompt : Option Str) : Reader × Option (List Str) :=
  if nb = some 0 then (.idle, some [])
  else
    match prompt with
    | some prompt => (.prompt nb prompt, none)
    | none => (.lines nb [], none)

/-! ## The state -/

inductive Phase where
  | locking
  /-- In `serial_port:write`. -/
  | writing
  | waiting
  | answered (result : List Str)
  | returned (result : List Str)
  | timedOut
  deriving DecidableEq

def Phase.IsOpen : Phase → Prop
  | .writing | .waiting => True
  | _ => False

def Phase.Holds : Phase → Prop
  | .writing | .waiting | .answered _ => True
  | _ => False

instance : DecidablePred Phase.IsOpen
  | .writing | .waiting => inferInstanceAs (Decidable True)
  | .locking | .answered _ | .returned _ | .timedOut => inferInstanceAs (Decidable False)

/-- A task in `run_internal`, and what the modem has sent in answer to its command. -/
structure Run where
  call : Call
  phase : Phase
  echoed : Bool
  pending : Option Str
  sent : List Str
  ended : Bool
  deriving DecidableEq

structure State where
  atCmdRunning : Option Str
  cmdNbOfLines : Option Nat
  waitForPrompt : Option Str
  reader : Reader
  runs : Nat → Option Run
  holder : Option Nat

def State.init : State := ⟨none, none, none, .idle, fun _ => none, none⟩

/-! ## Events -/

inductive Origin where
  | echo (k : Nat)
  | answer (k : Nat) (last : Bool)
  | unsolicited
  deriving DecidableEq

inductive Event where
  | call (k : Nat) (c : Call)
  | lock (k : Nat)
  | written (k : Nat)
  | timeout (k : Nat)
  | resume (k : Nat)
  | line (text : Str) (o : Origin)
  | prompted (k : Nat)
  deriving DecidableEq

/-- A line of the answer comes; an empty one separates lines only, unless it finishes that of the
prompt. -/
def Run.receive (r : Run) (text : Str) (last : Bool) : Run :=
  { r with
    pending := none
    sent := r.sent ++
      match r.pending with
      | some prompt => [prompt ++ text]
      | none => if text = [] then [] else [text]
    ended := last }

/-- What has come from the modem for the task `k`, when it sends a line. -/
def Run.heard (k : Nat) (text : Str) (o : Origin) (r : Run) : Run :=
  match o with
  | .echo k' => if k' = k then { r with echoed := true } else r
  | .answer k' last => if k' = k then r.receive text last else r
  | .unsolicited => r

def State.readLine (s : State) (text : Str) : Reader × Option (List Str) :=
  match s.reader with
  | .idle =>
    if text ≠ [] ∧ some text = s.atCmdRunning then Reader.start s.cmdNbOfLines s.waitForPrompt
    else (.idle, none)
  | .prompt nb prompt => (.prompt nb prompt, none)
  | .finish nb prompt => Reader.insert nb [] (prompt ++ text)
  | .lines nb result => if text = [] then (.lines nb result, none) else Reader.insert nb result text

def State.update (s : State) (k : Nat) (f : Run → Run) : State :=
  { s with runs := Function.update s.runs k ((s.runs k).map f) }

def State.unlock (s : State) (k : Nat) (phase : Phase) : State :=
  { s.update k fun r => { r with phase := phase } with atCmdRunning := none, holder := none }

def Run.signal (result : List Str) (r : Run) : Run :=
  if r.phase = .waiting then { r with phase := .answered result } else r

def State.line (s : State) (text : Str) (o : Origin) : State :=
  match s.readLine text with
  | (reader, none) => { s with reader := reader, runs := fun k => (s.runs k).map (.heard k text o) }
  | (reader, some result) =>
    { s with
      cmdNbOfLines := none
      waitForPrompt := none
      reader := reader
      runs := fun k => (s.runs k).map fun r => (r.heard k text o).signal result }

def step (s : State) : Event → State
  | .call k c => { s with runs := Function.update s.runs k (some ⟨c, .locking, false, none, [], false⟩) }
  | .lock k =>
    match s.runs k with
    | some r =>
      { s.update k fun r => { r with phase := .writing } with
        atCmdRunning := some r.call.command
        cmdNbOfLines := r.call.nbLines
        waitForPrompt := r.call.prompt
        holder := some k }
    | none => s
  | .written k => s.update k fun r => { r with phase := .waiting }
  | .timeout k => s.unlock k .timedOut
  | .resume k =>
    match s.runs k with
    | some r =>
      match r.phase with
      | .answered result => s.unlock k (.returned result)
      | _ => s
    | none => s
  | .line text o => s.line text o
  | .prompted k =>
    { s.update k fun r => { r with pending := r.call.prompt } with
      reader :=
        match s.reader with
        | .prompt nb prompt => .finish nb prompt
        | reader => reader }

/-- When an event can happen: the modem sends the echo of a command that is being written, and then its
answer, up to the last line. -/
def Enabled (s : State) : Event → Prop
  | .call k _ => s.runs k = none
  | .lock k => (∃ r ∈ s.runs k, r.phase = .locking) ∧ s.atCmdRunning = none
  | .written k => ∃ r ∈ s.runs k, r.phase = .writing
  | .timeout k => ∃ r ∈ s.runs k, r.phase = .waiting
  | .resume k => ∃ r ∈ s.runs k, r.phase.Holds ∧ ¬ r.phase.IsOpen
  | .line text (.echo k) =>
    ∃ r ∈ s.runs k, r.phase ≠ .locking ∧ r.echoed = false ∧ text = r.call.command
  | .line _ (.answer k _) => ∃ r ∈ s.runs k, r.echoed = true ∧ r.ended = false
  | .line _ .unsolicited => True
  | .prompted k =>
    ∃ r ∈ s.runs k, r.echoed = true ∧ r.ended = false ∧ r.call.prompt ≠ none ∧ r.pending = none ∧
      r.sent = []

/-! ## What is promised -/

def Run.Complete (r : Run) : Prop :=
  r.echoed = true ∧ (r.ended = true ∨ ∃ n ∈ r.call.nbLines, n ≤ r.sent.length)

def Run.expected (r : Run) : List Str :=
  match r.call.nbLines with
  | some n => r.sent.take n
  | none => r.sent

/-- A command at a time; a command with a response has the lines of its own answer, and no complete
answer is missed. -/
structure Correct (s : State) : Prop where
  one : ∀ k k', ∀ r ∈ s.runs k, ∀ r' ∈ s.runs k', r.phase.Holds → r'.phase.Holds → k = k'
  result : ∀ k, ∀ r ∈ s.runs k, ∀ result, r.phase = .answered result ∨ r.phase = .returned result →
    r.Complete ∧ result = r.expected
  missed : ∀ k, ∀ r ∈ s.runs k, r.phase.IsOpen → ¬ r.Complete

/-! ## The condition -/

/-- A line of the answer ends the response for the reader when it does so for the modem, and then the
task waits for it. -/
def SoundInsert (r : Run) (nb : Option Nat) (line : Str) (last : Bool) : Prop :=
  (lastLine nb = true ∨ isFinal nb line = last) ∧
    ((isFinal nb line || lastLine nb) = true → r.phase = .waiting)

/-- A line that is not for the command in progress, before its echo: it is not taken for the echo, and it
does not end the response of an earlier command when that would do something to this one. -/
def SoundForeign (s : State) (r : Run) (text : Str) : Prop :=
  (s.reader = .idle → text = [] ∨ text ≠ r.call.command) ∧
    (s.reader ≠ .idle → (s.readLine text).2 = none ∨
      (r.phase = .writing ∧ r.call.nbLines = none ∧ r.call.prompt = none))

/-- A line when the reader is in the response to the command of `k`: it belongs to the answer, unless it
is skipped. -/
def SoundResponse (k : Nat) (r : Run) (text : Str) : Reader → Origin → Prop
  | .idle, _ => True
  | .prompt _ _, .answer k' last => k' = k → text = [] ∧ last = false
  | .prompt _ _, .echo _ | .prompt _ _, .unsolicited => True
  | .finish nb prompt, .answer k' last => k' = k ∧ SoundInsert r nb (prompt ++ text) last
  | .finish _ _, .echo _ | .finish _ _, .unsolicited => False
  | .lines nb _, .answer k' last =>
    if text = [] then k' = k → last = false else k' = k ∧ SoundInsert r nb text last
  | .lines _ _, .echo _ | .lines _ _, .unsolicited => text = []

def SoundLine (s : State) (k : Nat) (r : Run) (text : Str) (o : Origin) : Prop :=
  if r.echoed then SoundResponse k r text s.reader o
  else if o = .echo k then
    s.reader = .idle ∧ text ≠ [] ∧ (r.call.nbLines = some 0 → r.phase = .waiting)
  else SoundForeign s r text

def Reader.isPrompt : Reader → Bool
  | .prompt _ _ => true
  | _ => false

def Sound (s : State) : Event → Prop
  | .line text o => ∀ k ∈ s.holder, ∀ r ∈ s.runs k, r.phase.IsOpen → SoundLine s k r text o
  | .prompted k =>
    ∀ k' ∈ s.holder, ∀ r ∈ s.runs k', r.phase.IsOpen → r.echoed = true → s.reader.isPrompt = true →
      k = k'
  | _ => True

instance : DecidablePred Phase.Holds
  | .writing | .waiting | .answered _ => inferInstanceAs (Decidable True)
  | .locking | .returned _ | .timedOut => inferInstanceAs (Decidable False)

instance (s : State) : DecidablePred (Enabled s)
  | .call k _ => inferInstanceAs (Decidable (s.runs k = none))
  | .lock k =>
    inferInstanceAs (Decidable ((∃ r ∈ s.runs k, r.phase = .locking) ∧ s.atCmdRunning = none))
  | .written k => inferInstanceAs (Decidable (∃ r ∈ s.runs k, r.phase = .writing))
  | .timeout k => inferInstanceAs (Decidable (∃ r ∈ s.runs k, r.phase = .waiting))
  | .resume k => inferInstanceAs (Decidable (∃ r ∈ s.runs k, r.phase.Holds ∧ ¬ r.phase.IsOpen))
  | .line text (.echo k) => inferInstanceAs (Decidable
    (∃ r ∈ s.runs k, r.phase ≠ .locking ∧ r.echoed = false ∧ text = r.call.command))
  | .line _ (.answer k _) =>
    inferInstanceAs (Decidable (∃ r ∈ s.runs k, r.echoed = true ∧ r.ended = false))
  | .line _ .unsolicited => inferInstanceAs (Decidable True)
  | .prompted k => inferInstanceAs (Decidable (∃ r ∈ s.runs k, r.echoed = true ∧ r.ended = false ∧
    r.call.prompt ≠ none ∧ r.pending = none ∧ r.sent = []))

instance (r : Run) (nb : Option Nat) (line : Str) (last : Bool) : Decidable (SoundInsert r nb line last) :=
  inferInstanceAs (Decidable (_ ∧ _))

instance (s : State) (r : Run) (text : Str) : Decidable (SoundForeign s r text) :=
  inferInstanceAs (Decidable (_ ∧ _))

instance (k : Nat) (r : Run) (text : Str) :
    (reader : Reader) → (o : Origin) → Decidable (SoundResponse k r text reader o)
  | .idle, _ => inferInstanceAs (Decidable True)
  | .prompt _ _, .answer k' last =>
    inferInstanceAs (Decidable (k' = k → text = [] ∧ last = false))
  | .prompt _ _, .echo _ | .prompt _ _, .unsolicited => inferInstanceAs (Decidable True)
  | .finish nb prompt, .answer k' last =>
    inferInstanceAs (Decidable (k' = k ∧ SoundInsert r nb (prompt ++ text) last))
  | .finish _ _, .echo _ | .finish _ _, .unsolicited => inferInstanceAs (Decidable False)
  | .lines nb _, .answer k' last => inferInstanceAs (Decidable
    (if text = [] then k' = k → last = false else k' = k ∧ SoundInsert r nb text last))
  | .lines _ _, .echo _ | .lines _ _, .unsolicited => inferInstanceAs (Decidable (text = []))

instance (s : State) (k : Nat) (r : Run) (text : Str) (o : Origin) :
    Decidable (SoundLine s k r text o) :=
  inferInstanceAs (Decidable (if r.echoed then SoundResponse k r text s.reader o
    else if o = .echo k then
      s.reader = .idle ∧ text ≠ [] ∧ (r.call.nbLines = some 0 → r.phase = .waiting)
    else SoundForeign s r text))

instance (s : State) : DecidablePred (Sound s)
  | .line text o => inferInstanceAs (Decidable
    (∀ k ∈ s.holder, ∀ r ∈ s.runs k, r.phase.IsOpen → SoundLine s k r text o))
  | .prompted k => inferInstanceAs (Decidable
    (∀ k' ∈ s.holder, ∀ r ∈ s.runs k', r.phase.IsOpen → r.echoed = true → s.reader.isPrompt = true →
      k = k'))
  | .call _ _ | .lock _ | .written _ | .timeout _ | .resume _ => inferInstanceAs (Decidable True)

end Mihini.Serial
