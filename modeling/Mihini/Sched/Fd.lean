import Mathlib.Logic.Function.Basic
import Mihini.Lib.LuaTable
import Mihini.Lib.Run

/-!
# The watch lists of file descriptors

`src/luafwk/sched/fd.lua`: the arrays given to `select`, each with its reverse index in the same
table, and the functions called when a descriptor is ready.  Descriptors are Lua objects, never
numbers, so that the two parts of a table are apart.
-/

namespace Mihini.Sched.Fd

open Mihini.Lib Function

inductive Cond where
  | read
  | write
  | except
  deriving DecidableEq

variable {FD Task Func : Type} [DecidableEq FD] [DecidableEq Task]

structure Watch (FD Func : Type) where
  /-- The cells `t[i] = fd`. -/
  array : LuaTable Nat FD
  /-- The cells `t[fd] = i`. -/
  index : FD → Option Nat
  func : FD → Option Func

namespace Watch

def empty : Watch FD Func := ⟨∅, fun _ => none, fun _ => none⟩

section

/- What `#` returns. -/
variable (len : LuaTable Nat FD → Nat)

def add (w : Watch FD Func) (fd : FD) (func : Option Func) : Except String (Watch FD Func) :=
  if (w.index fd).isSome then .error "file descriptor already registered"
  else
    let i := len w.array + 1
    .ok
      { array := w.array.insert i fd
        index := update w.index fd (some i)
        func := update w.func fd func }

def remove (w : Watch FD Func) (fd : FD) : Except String (Watch FD Func) :=
  match w.index fd with
  | none => .error "file descriptor unknown (not registered)"
  | some i =>
    let lasti := len w.array
    let done (w : Watch FD Func) : Watch FD Func :=
      { array := w.array.erase lasti
        index := update w.index fd none
        func := update w.func fd none }
    if lasti ≠ i then
      match w.array.lookup lasti with
      | some last =>
        .ok (done { w with
          array := w.array.insert i last
          index := update w.index last (some i) })
      | none => .error "table index is nil" -- raised
    else .ok (done w)

end

end Watch

inductive Signal where
  | ready (rw : Cond)
  | error (msg : Option String)
  | closed
  | timeout

/-- A call of `wait_fd` that has added its watch and not returned. -/
structure Wait (FD : Type) where
  rw : Cond
  fd : FD
  timeout : Option Int
  woken : Option Signal

/-- The events of `sched.wait(fd, {rw, "error", "closed", timeout})`. -/
def Wait.listens (w : Wait FD) : Signal → Bool
  | .ready rw => rw = w.rw
  | .error _ => true
  | .closed => true
  | .timeout => w.timeout.isSome

inductive Status (FD : Type) where
  | free
  | waits (w : Wait FD)
  | dead

structure State (FD Task Func : Type) where
  fdt : Cond → Watch FD Func
  tasks : Task → Status FD

def init : State FD Task Func where
  fdt := fun _ => .empty
  tasks := fun _ => .free

namespace State

variable (len : LuaTable Nat FD → Nat) (s : State FD Task Func)

/-- `remove_watch`, its result left aside. -/
def removeWatch (rw : Cond) (fd : FD) : State FD Task Func :=
  match (s.fdt rw).remove len fd with
  | .ok w => { s with fdt := update s.fdt rw w }
  | .error _ => s

def signal (fd : FD) (event : Signal) : State FD Task Func :=
  { s with
    tasks := fun t =>
      match s.tasks t with
      | .waits w =>
        if w.fd = fd ∧ w.woken.isNone ∧ w.listens event then .waits { w with woken := some event }
        else .waits w
      | status => status }

def close (fd : FD) : State FD Task Func :=
  (((s.removeWatch len .read fd).removeWatch len .write fd).removeWatch len .except fd).signal fd
    .closed

/-- `wait_fd`, up to the call of `sched.wait`: what it returns when it does not get there. -/
def waitFd (t : Task) (rw : Cond) (fd : FD) (timelimit timedelay : Option Int) (now : Int) :
    State FD Task Func × Option (Except String Unit) :=
  match (s.fdt rw).add len fd none with
  | .error msg => (s, some (.error msg))
  | .ok watch =>
    let timelimit := timelimit.map (· - now)
    let timeout :=
      match timedelay, timelimit with
      | some delay, some limit => some (min limit delay)
      | some delay, none => some delay
      | none, limit => limit
    ({ fdt := update s.fdt rw watch
       tasks := update s.tasks t (.waits ⟨rw, fd, timeout, none⟩) }, none)

def result (w : Wait FD) : Signal → Except String Unit
  | .ready rw => if rw = w.rw then .ok () else .error "Channel error: unknown"
  | .timeout => .error "timeout"
  | .closed => .error "closed"
  | .error msg => .error ("Channel error: " ++ msg.getD "unknown")

def resume (t : Task) : State FD Task Func × Option (Except String Unit) :=
  match s.tasks t with
  | .waits w =>
    match w.woken with
    | some event =>
      let s' := s.removeWatch len w.rw w.fd
      ({ s' with tasks := update s'.tasks t .free }, some (result w event))
    | none => (s, none)
  | _ => (s, none)

def whenFd (rw : Cond) (fd : FD) : Option Func → State FD Task Func
  | some func =>
    match (s.fdt rw).add len fd (some func) with
    | .ok watch => { s with fdt := update s.fdt rw watch }
    | .error _ => s
  | none => s.removeWatch len rw fd

/-- `sched.kill`: the call of `sched.wait` that the task is in raises an error, which leaves
`wait_fd`. -/
def kill (t : Task) : State FD Task Func :=
  { s with tasks := update s.tasks t .dead }

def expire (t : Task) : State FD Task Func :=
  match s.tasks t with
  | .waits w =>
    if w.woken.isNone ∧ w.timeout.isSome then
      { s with tasks := update s.tasks t (.waits { w with woken := some .timeout }) }
    else s
  | _ => s

end State

/-! ## Runs -/

inductive Op (FD Task Func : Type) where
  | close (fd : FD)
  | when (rw : Cond) (fd : FD) (func : Option Func)
  | signal (fd : FD) (event : Signal)
  | kill (t : Task)

def Op.run (len : LuaTable Nat FD → Nat) (s : State FD Task Func) :
    Op FD Task Func → State FD Task Func
  | .close fd => s.close len fd
  | .when rw fd func => s.whenFd len rw fd func
  | .signal fd event => s.signal fd event
  | .kill t => s.kill t

inductive Event (FD Task Func : Type) where
  | op (o : Op FD Task Func)
  | wait (t : Task) (rw : Cond) (fd : FD) (timelimit timedelay : Option Int) (now : Int)
  | expire (t : Task)
  | resume (t : Task)
  | notify (rw : Cond) (fd : FD) (called : List (Op FD Task Func)) (result : Option Bool)

def step (len : LuaTable Nat FD → Nat) (s : State FD Task Func) :
    Event FD Task Func → State FD Task Func
  | .op o => o.run len s
  | .wait t rw fd timelimit timedelay now =>
    match s.tasks t with
    | .free => (s.waitFd len t rw fd timelimit timedelay now).1
    | _ => s
  | .expire t => s.expire t
  | .resume t => (s.resume len t).1
  | .notify rw fd called result =>
    match (s.fdt rw).func fd with
    | none => s.signal fd (.ready rw)
    | some _ =>
      let s' := called.foldl (Op.run len) s
      match result with
      | none => s' -- an error leaves the loop
      | some true => s'.signal fd (.ready rw)
      | some false => (s'.removeWatch len rw fd).signal fd (.ready rw)

end Mihini.Sched.Fd
