import Mihini.Lib.Run
import Mihini.Telnet.Interpreter

/-!
# What a telnet client sends

The stream of bytes as the telnet protocol has it, byte by byte: data and commands, where a command may
be cut anywhere.  The interpreter of `telnet.c` is compared with it.
-/

namespace Mihini.Telnet

open Mihini.Lib List

/-! ## The protocol -/

inductive Item where
  | byte (b : Nat)
  | newline
  | eof
  | ip
  | susp
  deriving DecidableEq

/-- Where a stream is: in the text, within a command, or after a carriage return that may end the line.  A
sub-negotiation has its option and its contents so far. -/
inductive Place where
  | text
  | iac
  | option (action : Nat)
  | sb
  | inside (option : Nat) (contents : List Nat)
  | insideIac (option : Nat) (contents : List Nat)
  | cr
  deriving DecidableEq

namespace Place

def plain (mode : EditMode) (b : Nat) : Place × List Item :=
  if b = Telnet.iac then (.iac, [])
  else
    match mode with
    | .edit => (.text, [.byte b])
    | .line =>
      if b = 10 then (.text, [.newline])
      else if b = 13 then (.cr, [])
      else if b = 4 then (.text, [.eof])
      else if b = 3 then (.text, [.ip])
      else if b = 19 then (.text, [.susp])
      else (.text, [.byte b])

def command (b : Nat) : Place × List Item :=
  if will ≤ b ∧ b ≤ dont then (.option b, [])
  else if b = Telnet.sb then (.sb, [])
  else if b = Telnet.ip then (.text, [.ip])
  else if b = Telnet.susp then (.text, [.susp])
  else if b = eof_ then (.text, [.eof])
  else if b = Telnet.iac then (.text, [.byte 255])
  else (.text, [])

def step (mode : EditMode) : Place → Nat → Place × List Item
  | .text, b => plain mode b
  | .iac, b => command b
  | .option _, _ => (.text, [])
  | .sb, b => (.inside b [], [])
  | .inside o contents, b =>
    if b = Telnet.iac then (.insideIac o contents, []) else (.inside o (contents ++ [b]), [])
  | .insideIac o contents, b =>
    if b = se then (.text, []) else (.inside o (contents ++ [b]), [])
  | .cr, b => if b = 0 ∨ b = 10 then (.text, [.newline]) else plain mode b

def run (mode : EditMode) : Place → List Nat → Place × List Item
  | p, [] => (p, [])
  | p, b :: bytes =>
    ((run mode (step mode p b).1 bytes).1, (step mode p b).2 ++ (run mode (step mode p b).1 bytes).2)

def kept : Place → List Nat
  | .text | .inside _ _ => []
  | .iac | .insideIac _ _ => [Telnet.iac]
  | .option action => [Telnet.iac, action]
  | .sb => [Telnet.iac, Telnet.sb]
  | .cr => [13]

end Place

/-- What the text of a stream comes to in line mode: the signals, and the line so far. -/
def deliver : List Signal × List Nat → Item → List Signal × List Nat
  | (signals, line), .byte b => (signals, line ++ [b])
  | (signals, line), .newline => (signals ++ [.line (line ++ [13, 10])], [])
  | (signals, line), .eof => if line = [] then (signals ++ [.close], []) else (signals, line)
  | (signals, _), .ip => (signals ++ [.interrupt], [])
  | (signals, _), .susp => (signals ++ [.suspend], [])

def keys : Item → List Nat
  | .byte b => [b]
  | .newline => [13, 10]
  | .eof => [4]
  | .ip => [3]
  | .susp => [26]

/-! ## The streams that the interpreter reads well -/

namespace Place

/-- In line mode no window size comes, and a carriage return comes at the end of a line only; in edit
mode a window size has its four bytes.  Other sub-negotiations are empty. -/
def Fits (mode : EditMode) : Place → Nat → Prop
  | .sb, b => mode = .edit ∨ b ≠ naws
  | .inside o contents, b => b = Telnet.iac ∨ mode = .edit ∧ o = naws ∧ contents.length < 4
  | .insideIac o contents, b =>
    b = se ∧ (o = naws → contents.length = 4) ∨
      b = Telnet.iac ∧ mode = .edit ∧ o = naws ∧ contents.length < 4
  | .cr, b => b = 0 ∨ b = 10
  | .text, _ | .iac, _ | .option _, _ => True

instance (mode : EditMode) : (p : Place) → (b : Nat) → Decidable (Fits mode p b)
  | .sb, _ => inferInstanceAs (Decidable (_ ∨ _))
  | .inside _ _, _ => inferInstanceAs (Decidable (_ ∨ _))
  | .insideIac _ _, _ => inferInstanceAs (Decidable (_ ∨ _))
  | .cr, _ => inferInstanceAs (Decidable (_ ∨ _))
  | .text, _ | .iac, _ | .option _, _ => isTrue trivial

def AllFit (mode : EditMode) : Place → List Nat → Prop
  | _, [] => True
  | p, b :: bytes => Fits mode p b ∧ AllFit mode (step mode p b).1 bytes

instance (mode : EditMode) : (p : Place) → (bytes : List Nat) → Decidable (AllFit mode p bytes)
  | _, [] => isTrue trivial
  | p, b :: bytes =>
    have : Decidable (AllFit mode (step mode p b).1 bytes) :=
      instDecidableAllFit mode (step mode p b).1 bytes
    inferInstanceAs (Decidable (_ ∧ _))

/-- Where a fragment may end, after one that ended at `p`: in edit mode not within a command; in line mode
not if the fragment before ended within one too. -/
def MayEnd (mode : EditMode) (p q : Place) : Prop :=
  match mode with
  | .edit =>
    match q with
    | .text => True
    | .inside o _ => o ≠ naws
    | _ => False
  | .line => p.kept = [] ∨ q.kept = []

instance (mode : EditMode) (p q : Place) : Decidable (MayEnd mode p q) :=
  match mode with
  | .edit =>
    match q with
    | .text => isTrue trivial
    | .inside o _ => inferInstanceAs (Decidable (o ≠ naws))
    | .iac | .option _ | .sb | .insideIac _ _ | .cr => isFalse id
  | .line => inferInstanceAs (Decidable (_ ∨ _))

end Place

/-! ## Reading a stream -/

namespace Place

variable {mode : EditMode} {p : Place}

theorem run_append (mode : EditMode) (p : Place) (xs ys : List Nat) :
    run mode p (xs ++ ys) =
      ((run mode (run mode p xs).1 ys).1, (run mode p xs).2 ++ (run mode (run mode p xs).1 ys).2) := by
  induction xs generalizing p with
  | nil => rfl
  | cons x xs ih =>
    rw [cons_append, run, run, ih]
    simp only [append_assoc]

theorem run_text_iac (mode : EditMode) (bytes : List Nat) :
    run mode .text (Telnet.iac :: bytes) = run mode .iac bytes := rfl

theorem allFit_append {xs ys : List Nat} :
    AllFit mode p (xs ++ ys) ↔ AllFit mode p xs ∧ AllFit mode (run mode p xs).1 ys := by
  induction xs generalizing p with
  | nil => exact (and_iff_right trivial).symm
  | cons x xs ih => rw [cons_append, AllFit, AllFit, run, ih, and_assoc]

def Ready : Place → Prop
  | .text => True
  | .inside o contents => o ≠ naws ∧ contents = []
  | _ => False

def Settled (mode : EditMode) (q : Place) : Prop :=
  ∃ p, Ready p ∧ run mode p q.kept = (q, []) ∧ AllFit mode p q.kept

theorem kept_of_ready {q : Place} (h : Ready q) : q.kept = [] := by
  cases q with
  | text | inside => rfl
  | iac | option | sb | insideIac | cr => exact h.elim

theorem settled_of_ready {q : Place} (h : Ready q) : Settled mode q := by
  refine ⟨q, h, ?_, ?_⟩
  · rw [kept_of_ready h]
    rfl
  · rw [kept_of_ready h]
    trivial

end Place

open Place (run AllFit Ready Settled)

/-- The state after some items, with the signals for them: in line mode the line, in edit mode what the
line editor got. -/
def Says (mode : EditMode) (items : List Item) (ts : TelnetState) (signals : List Signal)
    (ts' : TelnetState) : Prop :=
  match mode with
  | .line => ∀ before, items.foldl deliver (before, ts.line) = (before ++ signals, ts'.line)
  | .edit => ts'.typed = ts.typed ++ items.flatMap keys

theorem Says.trans {mode : EditMode} {items items' : List Item} {ts ts' ts'' : TelnetState}
    {signals signals' : List Signal} (h : Says mode items ts signals ts')
    (h' : Says mode items' ts' signals' ts'') :
    Says mode (items ++ items') ts (signals ++ signals') ts'' := by
  cases mode with
  | line =>
    intro before
    rw [foldl_append, h before, h' (before ++ signals), append_assoc]
  | edit =>
    show ts''.typed = _
    rw [show ts''.typed = _ from h', show ts'.typed = _ from h, flatMap_append, append_assoc]

inductive Read (editor : Editor) (mode : EditMode) (p : Place) (ts : TelnetState) :
    Result (InterpretCommand × TelnetState) → Prop where
  | eos (ts' : TelnetState) (hsettled : Settled mode (run mode p ts.input.rest).1)
    (hinput : ts'.input = ⟨ts.input.allocated, (run mode p ts.input.rest).1.kept, []⟩)
    (hmode : ts'.editmode = ts.editmode) (htold : Says mode (run mode p ts.input.rest).2 ts [] ts') :
    Read editor mode p ts (.ok (.eos, ts'))
  | command (read rest : List Nat) (cmd : InterpretCommand) (ts' : TelnetState)
    (hread : read ++ rest = ts.input.rest) (hne : read ≠ []) (hready : Ready (run mode p read).1)
    (hcmd : cmd ≠ .eos) (hrest : ts'.input.rest = rest)
    (halloc : ts'.input.allocated = ts.input.allocated) (hmode : ts'.editmode = ts.editmode)
    (htold : Says mode (run mode p read).2 ts (ts'.finish editor cmd).1.signal.toList
      (ts'.finish editor cmd).2) :
    Read editor mode p ts (.ok (cmd, ts'))

/-- Some bytes are read before. -/
theorem Read.back {editor : Editor} {mode : EditMode} {p : Place} {ts ts' : TelnetState}
    {read rest : List Nat} (hread : read ++ rest = ts.input.rest) (hrest : ts'.input.rest = rest)
    (halloc : ts'.input.allocated = ts.input.allocated) (hmode : ts'.editmode = ts.editmode)
    (htold : Says mode (run mode p read).2 ts [] ts') {r : Result (InterpretCommand × TelnetState)}
    (h : Read editor mode (run mode p read).1 ts' r) : Read editor mode p ts r := by
  cases h with
  | eos ts'' hsettled hinput hmode' htold' =>
    have hrun := Place.run_append mode p read ts'.input.rest
    rw [hrest, hread] at hrun
    rw [hrest] at hsettled hinput htold'
    have hplace := congrArg Prod.fst hrun
    have hitems := congrArg Prod.snd hrun
    simp only at hplace hitems
    rw [← hplace] at hsettled hinput
    refine .eos ts'' hsettled (by rw [hinput, halloc]) (hmode'.trans hmode) ?_
    rw [hitems]
    exact htold.trans htold'
  | command read' rest' cmd ts'' hread' hne hready hcmd hrest' halloc' hmode' htold' =>
    have hrun := Place.run_append mode p read read'
    refine .command (read ++ read') rest' cmd ts'' ?_ ?_ ?_ hcmd hrest' (halloc'.trans halloc)
      (hmode'.trans hmode) ?_
    · rw [append_assoc, hread', hrest, hread]
    · exact fun hnil => hne (append_eq_nil_iff.mp hnil).2
    · rw [hrun]
      exact hready
    · rw [hrun]
      exact htold.trans htold'

end Mihini.Telnet
