import Mathlib.Algebra.Group.Nat.Defs
import Mihini.Lib.Reader

/-!
# Cooperative TCP sockets

`send` and `receive` of `src/porting/default/socket/platform.lua`, `wait_fd` of
`src/luafwk/sched/fd.lua`, and what they call of LuaSocket, `src/luafwk/luasocket/buffer.c`.
-/

namespace Mihini.Socket

open Mihini.Lib List

abbrev Bytes := List UInt8

/-! ## Errors -/

inductive Err where
  | timeout
  | closed
  | failed (msg : String)
  deriving DecidableEq

inductive End where
  | closed
  | failed (msg : String)
  deriving DecidableEq

def End.err : End → Err
  | .closed => .closed
  | .failed msg => .failed msg

inductive WaitEvent where
  /-- `add_watch` refuses. -/
  | refused (msg : String)
  | ready
  | timeout
  | closed
  | error (msg : Option String)
  deriving DecidableEq

def waitFd : WaitEvent → Option Err
  | .refused msg => some (.failed msg)
  | .ready => none
  | .timeout => some .timeout
  | .closed => some .closed
  | .error msg => some (.failed ("Channel error: " ++ msg.getD "unknown"))

/-! ## LuaSocket's receive -/

/-- The patterns `*l`, `*a` and a number. -/
inductive Pattern where
  | line
  | all
  | bytes (n : Nat)
  deriving DecidableEq

def cr : UInt8 := 13

def lf : UInt8 := 10

def shown (line : Bytes) : Bytes := line.filter (· ≠ cr)

/-- One turn of the loops of `recvline`, `recvall` and `recvraw`, with the bytes that `buffer_get` has
given. -/
def takeBytes : Pattern → Bytes → Taken Pattern UInt8 UInt8
  | .line, data =>
    if lf ∈ data then .done (shown (data.takeWhile (· ≠ lf))) (data.dropWhile (· ≠ lf)).tail
    else .more (shown data) .line
  | .all, data => .more data .all
  | .bytes wanted, data =>
    if wanted ≤ data.length then .done (data.take wanted) (data.drop wanted)
    else .more data (.bytes (wanted - data.length))

theorem takeBytes_line {body : Bytes} (hbody : lf ∉ body) (rest : Bytes) :
    takeBytes .line (body ++ lf :: rest) = .done (shown body) rest := by
  have hpos : ∀ a ∈ body, decide (a ≠ lf) = true := fun a ha =>
    decide_eq_true fun heq => hbody (heq ▸ ha)
  rw [takeBytes, if_pos (mem_append_right _ (mem_cons_self ..)),
    takeWhile_append_of_pos hpos, dropWhile_append_of_pos hpos,
    takeWhile_cons_of_neg (by decide), dropWhile_cons_of_neg (by decide), append_nil]
  rfl

theorem takeBytes_part {body : Bytes} (hbody : lf ∉ body) :
    takeBytes .line body = .more (shown body) .line := if_neg hbody

theorem shown_append (xs ys : Bytes) : shown (xs ++ ys) = shown xs ++ shown ys := filter_append ..

theorem takeBytes_append (p : Pattern) (xs ys : Bytes) :
    takeBytes p (xs ++ ys) = (takeBytes p xs).extend ys fun next => takeBytes next ys := by
  cases p with
  | line =>
    by_cases hx : lf ∈ xs
    · obtain ⟨body, rest, rfl, hbody⟩ := eq_append_cons_of_mem hx
      rw [takeBytes_line hbody, append_assoc, cons_append, takeBytes_line hbody]
      rfl
    rw [takeBytes_part hx]
    by_cases hy : lf ∈ ys
    · obtain ⟨body, rest, rfl, hbody⟩ := eq_append_cons_of_mem hy
      have hboth : lf ∉ xs ++ body := fun hmem => (mem_append.mp hmem).elim hx hbody
      rw [← append_assoc, takeBytes_line hboth, shown_append]
      show _ = (takeBytes .line (body ++ lf :: rest)).prepend _
      rw [takeBytes_line hbody]
      rfl
    · have hboth : lf ∉ xs ++ ys := fun hmem => (mem_append.mp hmem).elim hx hy
      rw [takeBytes_part hboth, shown_append]
      show _ = (takeBytes .line ys).prepend _
      rw [takeBytes_part hy]
      rfl
  | all => rfl
  | bytes n =>
    rw [takeBytes, takeBytes, length_append]
    by_cases hx : n ≤ xs.length
    · rw [if_pos (by omega), if_pos hx, take_append_of_le_length hx,
        drop_append_of_le_length hx]
      rfl
    rw [if_neg hx]
    show _ = (takeBytes (.bytes (n - xs.length)) ys).prepend xs
    rw [takeBytes]
    by_cases hy : n ≤ xs.length + ys.length
    · rw [if_pos hy, if_pos (by omega), take_append, drop_append,
        take_of_length_le (by omega), drop_eq_nil_of_le (by omega)]
      rfl
    · rw [if_neg hy, if_neg (by omega), Nat.sub_add_eq]
      rfl

def reader : Reader Pattern UInt8 UInt8 := ⟨takeBytes, takeBytes_append⟩

structure Received where
  err : Option Err
  data : Bytes
  rest : List Bytes
  deriving DecidableEq

/-- The loop is broken when all wanted is there; else it ends with the error for which no more comes. -/
def received (stop : Err) : Taken Pattern Bytes UInt8 → Received
  | .done out rest => ⟨none, out, rest⟩
  | .more out _ => ⟨some stop, out, []⟩

def recvline (ps : List Bytes) (stop : Err) : Received := received stop (reader.pull .line ps)

def recvraw (wanted : Nat) (ps : List Bytes) (stop : Err) : Received :=
  received stop (reader.pull (.bytes wanted) ps)

def recvall (ps : List Bytes) (stop : Err) : Received :=
  let r := received stop (reader.pull .all ps)
  if r.err = some .closed ∧ 0 < r.data.length then { r with err := none } else r

/-- `(size_t) n - size` -/
def wanted (n size : Nat) : Nat := (n + 2 ^ 64 - size % 2 ^ 64) % 2 ^ 64

inductive Result where
  | data (s : Bytes)
  | fail (err : Err) (part : Option Bytes)
  deriving DecidableEq

def oldtcpreceive (pattern : Pattern) (pre : Option Bytes) (ps : List Bytes) (stop : Err) :
    Result × List Bytes :=
  let part := pre.getD []
  let r := match pattern with
    | .line => recvline ps stop
    | .all => recvall ps stop
    | .bytes n => recvraw (wanted n part.length) ps stop
  match r.err with
  | none => (.data (part ++ r.data), r.rest)
  | some err => (.fail err (some (part ++ r.data)), r.rest)

/-! ## The cooperative receive -/

inductive Stream where
  | ends (ps : List Bytes) (stop : End)
  | waits (ps : List Bytes) (event : WaitEvent) (later : Stream)
  deriving DecidableEq

def insert (buffer : List Bytes) (v : Bytes) : List Bytes :=
  if 0 < v.length then buffer ++ [v] else buffer

def partOf (buffer : List Bytes) : Option Bytes :=
  if 0 < buffer.length then some buffer.flatten else none

def Pattern.less (part : Bytes) : Pattern → Pattern
  | .bytes n => .bytes (n - part.length)
  | p => p

def receiveLoop (someBytes : Bool) : Pattern → List Bytes → Stream → Result × Stream
  | pattern, buffer, .ends ps stop =>
    match oldtcpreceive pattern none ps stop.err with
    | (.data s, rest) => (.data (insert buffer s).flatten, .ends rest stop)
    | (.fail err part, rest) => (.fail err (partOf (insert buffer (part.getD []))), .ends rest stop)
  | pattern, buffer, .waits ps event later =>
    match oldtcpreceive pattern none ps .timeout with
    | (.data s, rest) => (.data (insert buffer s).flatten, .waits rest event later)
    | (.fail _ part, rest) =>
      let part := part.getD []
      let buffer := insert buffer part
      if someBytes = true ∧ 0 < part.length then (.data buffer.flatten, .waits rest event later)
      else
        match waitFd event with
        | none => receiveLoop someBytes (pattern.less part) buffer later
        | some err => (.fail err (partOf buffer), later)

/-- `newtcp.receive`, with no pattern for `*`, which is `*a` until there are some bytes -/
def receive (pattern : Option Pattern) (pre : Option Bytes) (s : Stream) : Result × Stream :=
  receiveLoop pattern.isNone (pattern.getD .all) pre.toList s

/-! ## Sending -/

/-- The turns of `io->send` as they come: how much each takes at most, and what comes after a wait. -/
inductive Room where
  | ends (rs : List Nat) (stop : End)
  | waits (rs : List Nat) (event : WaitEvent) (later : Room)
  deriving DecidableEq

def stepsize : Nat := 8192

/-- `sendraw`, with how much is sent and the turns that are left -/
def sendraw (stop : Err) : List Nat → Nat → Option Err × Nat × List Nat
  | rs, 0 => (none, 0, rs)
  | [], _ + 1 => (some stop, 0, [])
  | r :: rs, count + 1 =>
    let done := min r (min (count + 1) stepsize)
    let (err, total, rest) := sendraw stop rs (count + 1 - done)
    (err, done + total, rest)

def startOf (size : Nat) (start : Int) : Nat :=
  (max 1 (if start < 0 then size + start + 1 else start)).toNat

def endOf (size : Nat) (stop : Int) : Int :=
  min (size : Int) (if stop < 0 then size + stop + 1 else stop)

/-- What `send` returns: the last index sent, after the error if there is one. -/
structure Sent where
  err : Option Err
  last : Nat
  deriving DecidableEq

/-- The bytes from the index `start` on, `count` of them. -/
def slice (data : Bytes) (start count : Nat) : Bytes := (data.drop (start - 1)).take count

/-- `buffer_meth_send`, with the bytes that are delivered and the turns that are left -/
def oldtcpsend (data : Bytes) (start stop : Int) (rs : List Nat) (last : Err) :
    Sent × Bytes × List Nat :=
  let start := startOf data.length start
  let count := (endOf data.length stop - start + 1).toNat
  let (err, sent, rest) := sendraw last rs count
  (⟨err, sent + start - 1⟩, slice data start sent, rest)

def sendLoop (data : Bytes) (j : Int) : Int → Room → Sent × Bytes × Room
  | lastIndex, .ends rs stop =>
    let (s, out, rest) := oldtcpsend data (lastIndex + 1) j rs stop.err
    (s, out, .ends rest stop)
  | lastIndex, .waits rs event later =>
    let (s, out, rest) := oldtcpsend data (lastIndex + 1) j rs .timeout
    match s.err with
    | none => (s, out, .waits rest event later)
    | some _ =>
      match waitFd event with
      | none =>
        let (s, more, rest) := sendLoop data j s.last later
        (s, out ++ more, rest)
      | some err => (⟨some err, s.last⟩, out, later)

def send (data : Bytes) (i j : Option Int) (r : Room) : Sent × Bytes × Room :=
  sendLoop data (j.getD (-1)) (i.getD 1 - 1) r

end Mihini.Socket
