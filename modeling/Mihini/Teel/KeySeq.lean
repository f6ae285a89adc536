import Mathlib.Data.List.Sort
import Mihini.Lib.Cut

/-!
# Key sequences of the line editor

`src/luafwk/shell/telnet/teel.c`: the table of key sequences, and the search of `teel_run` through it,
which walks down the sorted table and compares one byte at a time.
-/

namespace Mihini.Teel.KeySeq

open Mihini.Lib
open Mihini.Lib.Cut (Segment Begun Shortest Exact Code cut cut_cases)

/-! ## The table -/

/-- The actions of `actions.c`. -/
inductive SequenceFunc where
  | backspace | delete | deleteprevword | deletenextword | editdone | linebreak | ip | susp | eof
  | historypreventry | historynextentry | autocomplete | overwriteinserttoggle | movetoprevword
  | movetonextword | moveright | moveleft | movetostartpos | movetoendpos | debugF12
  deriving DecidableEq

structure KeySeqAction where
  seq : List Nat
  func : SequenceFunc
  deriving DecidableEq

namespace KeySeqAction

def seqsize (a : KeySeqAction) : Nat := a.seq.length

def char (a : KeySeqAction) (i : Nat) : Nat := a.seq.getD i 0

end KeySeqAction

def defaultksa : List KeySeqAction :=
  [⟨[8], .backspace⟩,
   ⟨[127], .backspace⟩,
   ⟨[27, 91, 51, 126], .delete⟩,
   ⟨[27, 127], .deleteprevword⟩,
   ⟨[27, 91, 51, 59, 51, 126], .deletenextword⟩,
   ⟨[27, 27, 91, 51, 126], .deletenextword⟩,
   ⟨[10], .editdone⟩,
   ⟨[13, 10], .editdone⟩,
   ⟨[13, 0], .editdone⟩,
   ⟨[27, 10], .linebreak⟩,
   ⟨[27, 13, 0], .linebreak⟩,
   ⟨[3], .ip⟩,
   ⟨[26], .susp⟩,
   ⟨[4], .eof⟩,
   ⟨[27, 91, 65], .historypreventry⟩,
   ⟨[27, 91, 66], .historynextentry⟩,
   ⟨[9], .autocomplete⟩,
   ⟨[27, 91, 50, 126], .overwriteinserttoggle⟩,
   ⟨[27, 91, 49, 59, 51, 68], .movetoprevword⟩,
   ⟨[27, 27, 91, 68], .movetoprevword⟩,
   ⟨[27, 91, 49, 59, 51, 67], .movetonextword⟩,
   ⟨[27, 27, 91, 67], .movetonextword⟩,
   ⟨[27, 91, 67], .moveright⟩,
   ⟨[27, 91, 68], .moveleft⟩,
   ⟨[27, 91, 49, 126], .movetostartpos⟩,
   ⟨[27, 91, 55, 126], .movetostartpos⟩,
   ⟨[27, 91, 72], .movetostartpos⟩,
   ⟨[27, 79, 72], .movetostartpos⟩,
   ⟨[1], .movetostartpos⟩,
   ⟨[27, 91, 52, 126], .movetoendpos⟩,
   ⟨[27, 91, 56, 126], .movetoendpos⟩,
   ⟨[27, 91, 70], .movetoendpos⟩,
   ⟨[27, 79, 70], .movetoendpos⟩,
   ⟨[5], .movetoendpos⟩,
   ⟨[27, 91, 50, 52, 126], .debugF12⟩]

def memcmp : List Nat → List Nat → Int
  | x :: xs, y :: ys => if x = y then memcmp xs ys else (x : Int) - y
  | _, _ => 0

def compareseq (a b : List Nat) : Int :=
  let s := min a.length b.length
  let r := memcmp (a.take s) (b.take s)
  if r = 0 then (a.length : Int) - b.length else r

def compareksa (a b : KeySeqAction) : Int := compareseq a.seq b.seq

def setkeyseqactMap (map : List KeySeqAction) : List KeySeqAction :=
  map.insertionSort fun a b => compareksa a b ≤ 0

/-! ## The search -/

/-- What the inner loop of `teel_run` ends with: no match, a match of a part, with the sequences from
the current one down, or a sequence. -/
inductive Found where
  | no
  | partly (seqs : List KeySeqAction)
  | found (seq : KeySeqAction)
  deriving DecidableEq

def search (posinseq byte : Nat) : List KeySeqAction → Found
  | [] => .no
  | seq :: seqs =>
    if posinseq ≤ seq.seqsize then
      let v := seq.char posinseq
      if v < byte then .no
      else if byte = v then
        if posinseq + 1 = seq.seqsize then .found seq else .partly (seq :: seqs)
      else search posinseq byte seqs
    else search posinseq byte seqs

/-- The bytes read since the last segment, and the sequences from `currseq` down. -/
structure SeqSearch where
  temp : List Nat
  seqs : List KeySeqAction
  deriving DecidableEq

def SeqSearch.start (map : List KeySeqAction) : SeqSearch := ⟨[], map.reverse⟩

/-- One turn of the loop of `teel_run`: an action is executed, or a text is inserted. -/
def turn (map : List KeySeqAction) (ss : SeqSearch) (byte : Nat) :
    SeqSearch × Option (Segment KeySeqAction Nat) :=
  let byte := if 127 < byte then 63 else byte
  match search ss.temp.length byte ss.seqs with
  | .no => (.start map, some (.text (ss.temp ++ [byte])))
  | .partly seqs => (⟨ss.temp ++ [byte], seqs⟩, none)
  | .found seq => (.start map, some (.word seq))

/-- What a call of `teel_run` leaves: the segments, the state of the search and the bytes that are not
read yet. -/
structure Returned where
  segments : List (Segment KeySeqAction Nat)
  ss : SeqSearch
  rest : List Nat

/-- `teel_run`.  It returns when the reader has no more, or after an action with a command other than
`CMD_NOP`: `returns` tells which one is, by the bytes that are not read yet. -/
def teelRun (map : List KeySeqAction) (returns : List Nat → Bool) : SeqSearch → List Nat → Returned
  | ss, [] => ⟨[], ss, []⟩
  | ss, byte :: bytes =>
    match turn map ss byte with
    | (ss, none) => teelRun map returns ss bytes
    | (ss, some (.text s)) =>
      let r := teelRun map returns ss bytes
      { r with segments := .text s :: r.segments }
    | (ss, some (.word a)) =>
      if returns bytes then ⟨[.word a], ss, bytes⟩
      else
        let r := teelRun map returns ss bytes
        { r with segments := .word a :: r.segments }

/-- Calls of `teel_run` until all of a fragment is read, at most `n`. -/
def calls (map : List KeySeqAction) (returns : List Nat → Bool) : Nat → SeqSearch → List Nat → Returned
  | 0, ss, bytes => ⟨[], ss, bytes⟩
  | n + 1, ss, bytes =>
    let r := teelRun map returns ss bytes
    let r' := calls map returns n r.ss r.rest
    { r' with segments := r.segments ++ r'.segments }

/-- A session with what it receives, one fragment after the other.  A call reads at least a byte, or all
there is. -/
def session (map : List KeySeqAction) (returns : List Nat → Bool) :
    SeqSearch → List (List Nat) → List (Segment KeySeqAction Nat) × SeqSearch
  | ss, [] => ([], ss)
  | ss, fragment :: fragments =>
    let r := calls map returns (fragment.length + 1) ss fragment
    let (segments, ss) := session map returns r.ss fragments
    (r.segments ++ segments, ss)

end Mihini.Teel.KeySeq
