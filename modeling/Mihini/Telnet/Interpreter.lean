import Mihini.Lib.Loop

/-!
# The telnet interpreter

`src/luafwk/shell/telnet/telnet.c` and the buffers it reads from (`buffers.c`): what a client sends is
parsed for commands, and the rest goes to the line, or to the line editor.
-/

namespace Mihini.Telnet

open Mihini.Lib

/-! ## Buffers -/

structure ReadBuffer where
  /-- `buffer` is not null. -/
  allocated : Bool
  marked : List Nat
  /-- The `len` bytes from `p` on. -/
  rest : List Nat
  deriving DecidableEq

namespace ReadBuffer

def readMark (b : ReadBuffer) : ReadBuffer := { b with marked := [] }

def readByte (b : ReadBuffer) : Option Nat × ReadBuffer :=
  match b.rest with
  | [] => (none, b)
  | v :: rest => (some v, { b with marked := b.marked ++ [v], rest := rest })

def readEscByte (b : ReadBuffer) : Option Nat × ReadBuffer :=
  match b.readByte with
  | (some v, b) => if v = 255 then b.readByte else (some v, b)
  | (none, b) => (none, b)

def readEach : List (ReadBuffer → Option Nat × ReadBuffer) → ReadBuffer → Option (List Nat) × ReadBuffer
  | [], b => (some [], b)
  | read :: reads, b =>
    match read b with
    | (none, b) => (none, b)
    | (some v, b) =>
      match readEach reads b with
      | (none, b) => (none, b)
      | (some vs, b) => (some (v :: vs), b)

end ReadBuffer

/-! ## Commands -/

abbrev eof_ := 236
abbrev susp := 237
abbrev se := 240
abbrev ip := 244
abbrev sb := 250
abbrev will := 251
abbrev wont := 252
abbrev do_ := 253
abbrev dont := 254
abbrev iac := 255

abbrev echo := 1
abbrev suppressGoAhead := 3
abbrev timingMark := 6
abbrev naws := 31

/-- `UNKNOWN_MODE` is never in use. -/
inductive EditMode where
  | line
  | edit
  deriving DecidableEq

inductive InterpretCommand where
  | nop
  | eos
  | line
  | susp
  | ip
  | close
  deriving DecidableEq

inductive Fault where
  | assertion
  | nullPointer
  | endless
  deriving DecidableEq

abbrev Result := Except Fault

def ended {α : Type} : Option (Result α) → Result α
  | some r => r
  | none => .error .endless

structure TelnetState where
  out : List Nat
  input : ReadBuffer
  editmode : EditMode
  line : List Nat
  /-- The bytes that `teel_run` got. -/
  typed : List Nat
  /-- The last size that `teel_setdisplaysize` got. -/
  displaysize : Option (Nat × Nat)
  deriving DecidableEq

/-- What `teel_run` returns, other than `CMD_EOS` and `CMD_NOP`. -/
inductive TeelCmd where
  | done
  | ip
  | susp
  | eof
  deriving DecidableEq

/-- The line editor: the command that `teel_run` returns after a byte, if it does, and the line, given all
the bytes that it got. -/
structure Editor where
  run : List Nat → Option TeelCmd
  getline : List Nat → List Nat

def sendOption (action option : Nat) : List Nat := [iac, action, option]

def parseoption (action option : Nat) : List Nat :=
  if option = timingMark then if action = do_ then sendOption will timingMark else []
  else if option = suppressGoAhead then []
  else if option = echo then if action = will then sendOption dont echo else []
  else if option = naws then []
  else if action = do_ ∨ action = will then
    sendOption (if action ≤ wont then dont else wont) option
  else []

namespace TelnetState

/-- `parsesuboption`, whose result is not used.  There is no editor in line mode. -/
def parsesuboption (ts : TelnetState) (suboption : Nat) : Result TelnetState :=
  if suboption = naws then
    let (bytes, input) := ReadBuffer.readEach
      [ReadBuffer.readEscByte, ReadBuffer.readEscByte, ReadBuffer.readEscByte, ReadBuffer.readEscByte,
        ReadBuffer.readByte, ReadBuffer.readByte] ts.input
    match bytes with
    | some [w1, w0, h1, h0, v1, v0] =>
      if v1 = iac ∧ v0 = se then
        match ts.editmode with
        | .line => .error .nullPointer
        | .edit =>
          .ok { ts with
            input := input
            displaysize := some (w1 * 256 + w0, h1 * 256 + h0) }
      else .error .assertion
    | _ => .ok { ts with input := input }
  else .ok ts

def option (ts : TelnetState) (action option : Nat) : TelnetState :=
  { ts with out := ts.out ++ parseoption action option }

def size (ts : TelnetState) : Nat := ts.input.rest.length

/-! ## Edit mode -/

/-- A turn of the loop of `teel_reader`, after `IAC`. -/
def teelCommand (ts : TelnetState) : TelnetState ⊕ Result (Option Nat × TelnetState) :=
  match ts.input.readByte with
  | (none, input) => .inr (.ok (none, { ts with input := input }))
  | (some val, input) =>
    if will ≤ val ∧ val ≤ dont then
      match input.readByte with
      -- The variable holds the action still.
      | (none, input) => .inr (.ok (some val, { ts with input := input }))
      | (some opt, input) => .inl ({ ts with input := input }.option val opt)
    else if val = sb then
      match input.readByte with
      | (none, input) => .inr (.ok (some val, { ts with input := input }))
      | (some sopt, input) =>
        match { ts with input := input }.parsesuboption sopt with
        | .ok ts => .inl ts
        | .error fault => .inr (.error fault)
    else if val = ip then .inr (.ok (some 3, { ts with input := input }))
    else if val = susp then .inr (.ok (some 26, { ts with input := input }))
    else if val = eof_ then .inr (.ok (some 4, { ts with input := input }))
    else if val = iac then .inr (.ok (some 255, { ts with input := input }))
    else .inl { ts with input := input }

/-- One turn of the loop of `teel_reader`. -/
def teelTurn (ts : TelnetState) : TelnetState ⊕ Result (Option Nat × TelnetState) :=
  match ts.input.readMark.readByte with
  | (none, input) => .inr (.ok (none, { ts with input := input }))
  | (some val, input) =>
    if val = iac then { ts with input := input }.teelCommand
    else .inr (.ok (some val, { ts with input := input }))

def teelReader (ts : TelnetState) : Result (Option Nat × TelnetState) :=
  match ended (loop size teelTurn ts) with
  | .ok (val, ts) => .ok (val, { ts with input := ts.input.readMark })
  | .error fault => .error fault

/-- One turn of the loop of `teel_run`. -/
def runTurn (editor : Editor) (ts : TelnetState) :
    TelnetState ⊕ Result (Option TeelCmd × TelnetState) :=
  match ts.teelReader with
  | .error fault => .inr (.error fault)
  | .ok (none, ts) => .inr (.ok (none, ts))
  | .ok (some byte, ts) =>
    let ts := { ts with typed := ts.typed ++ [byte] }
    match editor.run ts.typed with
    | none => .inl ts
    | some tc => .inr (.ok (some tc, ts))

/-- `processeditmode`: a call of `teel_run`, which does not return `CMD_NOP`. -/
def processeditmode (editor : Editor) (ts : TelnetState) : Result (InterpretCommand × TelnetState) :=
  match ended (loop size (runTurn editor) ts) with
  | .error fault => .error fault
  | .ok (none, ts) => .ok (.eos, ts)
  | .ok (some .done, ts) => .ok (.line, ts)
  | .ok (some .ip, ts) => .ok (.ip, ts)
  | .ok (some .susp, ts) => .ok (.susp, ts)
  | .ok (some .eof, ts) => .ok (.close, ts)

/-! ## Line mode -/

def interrupt (ts : TelnetState) (cmd : InterpretCommand) : Result (InterpretCommand × TelnetState) :=
  .ok (cmd, { ts with out := ts.out ++ [13, 10], line := [] })

/-- The end of a file, that closes the terminal at the start of a line only. -/
def endOfFile (ts : TelnetState) : TelnetState ⊕ Result (InterpretCommand × TelnetState) :=
  if ts.line = [] then .inr (.ok (.close, ts)) else .inl ts

def write (ts : TelnetState) (bytes : List Nat) : TelnetState := { ts with line := ts.line ++ bytes }

/-- A turn of the loop of `processlinemode`, after `IAC`. -/
def lineCommand (ts : TelnetState) : TelnetState ⊕ Result (InterpretCommand × TelnetState) :=
  match ts.input.readByte with
  | (none, input) => .inr (.ok (.eos, { ts with input := input }))
  | (some val, input) =>
    if will ≤ val ∧ val ≤ dont then
      match input.readByte with
      | (none, input) => .inr (.ok (.eos, { ts with input := input }))
      | (some opt, input) => .inl ({ ts with input := input }.option val opt)
    else if val = sb then
      match input.readByte with
      | (none, input) => .inr (.ok (.eos, { ts with input := input }))
      | (some sopt, input) =>
        match { ts with input := input }.parsesuboption sopt with
        | .ok ts => .inl ts
        | .error fault => .inr (.error fault)
    else if val = ip then .inr ({ ts with input := input }.interrupt .ip)
    else if val = susp then .inr ({ ts with input := input }.interrupt .susp)
    else if val = eof_ then { ts with input := input }.endOfFile
    else if val = 255 then .inl ({ ts with input := input }.write [255])
    else .inl { ts with input := input }

/-- One turn of the loop of `processlinemode`. -/
def lineTurn (ts : TelnetState) : TelnetState ⊕ Result (InterpretCommand × TelnetState) :=
  match ts.input.readMark.readByte with
  | (none, input) => .inr (.ok (.eos, { ts with input := input }))
  | (some val, input) =>
    if val = iac then { ts with input := input }.lineCommand
    else if val = 10 then .inr (.ok (.line, { ts with input := input }.write [13, 10]))
    else if val = 13 then
      match input.readByte with
      | (none, input) => .inr (.ok (.eos, { ts with input := input }))
      | (some val, input) =>
        if val = 0 ∨ val = 10 then .inr (.ok (.line, { ts with input := input }.write [13, 10]))
        else .inl ({ ts with input := input }.write [10, val])
    else if val = 4 then { ts with input := input }.endOfFile
    else if val = 3 then .inr ({ ts with input := input }.interrupt .ip)
    else if val = 19 then .inr ({ ts with input := input }.interrupt .susp)
    else .inl ({ ts with input := input }.write [val])

def processlinemode (ts : TelnetState) : Result (InterpretCommand × TelnetState) :=
  ended (loop size lineTurn ts)

end TelnetState

/-! ## Calls of the interpreter -/

inductive Signal where
  | line (text : List Nat)
  | suspend
  | interrupt
  | close
  deriving DecidableEq

def ReadBuffer.feed (b : ReadBuffer) : Option (List Nat) → ReadBuffer
  | none => b
  | some bytes =>
    if b.rest = [] then ⟨false, [], bytes⟩ else ⟨true, [], b.rest ++ bytes⟩

def ReadBuffer.store (b : ReadBuffer) : ReadBuffer :=
  if b.marked ≠ [] ∧ b.allocated = false then ⟨true, [], b.marked ++ b.rest⟩
  else if b.marked = [] ∧ b.rest = [] ∧ b.allocated = true then { b with allocated := false }
  else b

/-- What `l_interpret` returns: whether to call it again, the bytes to send and the command. -/
structure Interpreted where
  again : Bool
  output : List Nat
  signal : Option Signal
  deriving DecidableEq

def InterpretCommand.signal (text : List Nat) : InterpretCommand → Option Signal
  | .nop | .eos => none
  | .line => some (.line text)
  | .susp => some .suspend
  | .ip => some .interrupt
  | .close => some .close

def TelnetState.finish (editor : Editor) (ts : TelnetState) (cmd : InterpretCommand) :
    Interpreted × TelnetState :=
  let input := if cmd = .eos then ts.input else ts.input.readMark
  let (text, line) :=
    match ts.editmode with
    | .edit => (editor.getline ts.typed, ts.line)
    | .line => (ts.line, if cmd = .line then [] else ts.line)
  (⟨!input.rest.isEmpty, ts.out, cmd.signal text⟩,
    { ts with input := input.store, out := [], line := line })

def TelnetState.lInterpret (editor : Editor) (ts : TelnetState) (bytes : Option (List Nat)) :
    Result (Interpreted × TelnetState) :=
  let ts := { ts with input := ts.input.feed bytes }
  let r :=
    match ts.editmode with
    | .edit => ts.processeditmode editor
    | .line => ts.processlinemode
  match r with
  | .ok (cmd, ts) => .ok (ts.finish editor cmd)
  | .error fault => .error fault

/-- One turn of `interpret` in the shell, which signals the commands. -/
def interpretTurn (editor : Editor) (s : TelnetState × Option (List Nat) × List Signal) :
    (TelnetState × Option (List Nat) × List Signal) ⊕ Result (TelnetState × List Signal) :=
  match s.1.lInterpret editor s.2.1 with
  | .error fault => .inr (.error fault)
  | .ok (i, ts) =>
    let signals := s.2.2 ++ i.signal.toList
    if i.again then .inl (ts, none, signals) else .inr (.ok (ts, signals))

/-- `interpret`, with some bytes or to flush the output. -/
def interpret (editor : Editor) (ts : TelnetState) (bytes : Option (List Nat)) :
    Result (TelnetState × List Signal) :=
  ended (loop (fun s => s.1.size + (s.2.1.getD []).length) (interpretTurn editor) (ts, bytes, []))

def newinterpreter (editmode : EditMode) : TelnetState where
  out :=
    match editmode with
    | .line => []
    | .edit =>
      sendOption do_ suppressGoAhead ++ sendOption will suppressGoAhead ++ sendOption will echo ++
        sendOption do_ naws
  input := ⟨false, [], []⟩
  editmode := editmode
  line := []
  typed := []
  displaysize := none

end Mihini.Telnet
