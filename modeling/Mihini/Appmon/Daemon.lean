import Mathlib.Algebra.Group.Nat.Defs
import Mihini.Appmon.PointerList

/-!
# The daemon that monitors applications

The commands and the signal handlers of `src/tools/appmon_daemon/appmon_daemon.c`.  Nothing is popped
from its list of applications, whose operations and loops are therefore those of a list
(`PointerList.Holds.pushLast`, `PointerList.Holds.find`, `PointerList.Holds.removeFirst`).
-/

namespace Mihini.Appmon

inductive AppStatus where
  | started
  | toBeKilled
  | toBeRestarted
  | killed
  deriving DecidableEq

/-- `app_t`; the identifier of a process is `none` for `-1`. -/
structure App where
  id : Nat
  pid : Option Nat
  status : AppStatus
  privileged : Bool
  deriving DecidableEq

inductive Exit where
  | exited (code : Nat)
  | signaled (signal : Nat)
  deriving DecidableEq

def Exit.isError : Exit → Bool
  | .exited code => 0 < code
  | .signaled _ => true

/-- A child that `waitpid` has not collected: the application that it was forked for, and how it has
ended. -/
structure Child where
  pid : Nat
  owner : Nat
  exit : Option Exit
  deriving DecidableEq

inductive Mode where
  | boot
  /-- The privileged application is forked, and its `app_t` does not have the process yet. -/
  | forked (pid : Nat)
  | idle
  /-- In `stop_app`, for a command that may remove the application. -/
  | stopping (id : Nat) (removes : Bool)
  deriving DecidableEq

structure State where
  apps : List App
  nextAppId : Nat
  children : List Child
  scheduled : Bool
  /-- `SIGALRM` is there and not delivered. -/
  pending : Bool
  mode : Mode
  halted : List Nat
  deriving DecidableEq

def State.init (privileged : Bool) : State :=
  if privileged then ⟨[⟨1, none, .killed, true⟩], 1, [], false, false, .boot, []⟩
  else ⟨[], 0, [], false, false, .idle, []⟩

def findByPid (apps : List App) (pid : Nat) : Option Nat :=
  apps.findIdx? fun a => a.pid = some pid

def findById (apps : List App) (id : Nat) : Option Nat :=
  apps.findIdx? fun a => a.id = id

/-- What `start_app` does for the application at an index, after a fork. -/
def State.start (s : State) (i : Nat) (a : App) (pid : Nat) : State :=
  { s with
    apps := s.apps.set i { a with status := .started, pid := some pid }
    children := s.children ++ [⟨pid, a.id, none⟩] }

def State.setStatus (s : State) (i : Nat) (a : App) (status : AppStatus) : State :=
  { s with apps := s.apps.set i { a with status := status } }

/-! ## Signals -/

/-- What `SIGCHLD_handler` does for a child that has ended. -/
def State.ended (s : State) (pid : Nat) (x : Exit) : State :=
  match findByPid s.apps pid with
  | none => s
  | some i =>
    match s.apps[i]? with
    | none => s
    | some a =>
      if a.status = .toBeKilled ∨ a.status = .started ∧ x = .exited 0 then
        s.setStatus i a .killed
      else if x.isError then { s.setStatus i a .toBeRestarted with scheduled := true }
      else s

/-- A round of the loop of `SIGCHLD_handler`: the child that `waitpid` gives. -/
def collect (s : State) (pid : Nat) : State :=
  match s.children.find? fun c => c.pid = pid with
  | some ⟨_, _, some x⟩ =>
    State.ended { s with children := s.children.filter fun c => c.pid ≠ pid } pid x
  | _ => s

/-- The loop of `SIGALRM_handler`, with the rounds that are left, for what comes of the forks: `none`
when the parameters are not good any more, or the fork fails. -/
def restartLoop (forks : Nat → Option Nat) : Nat → Nat → State → State
  | 0, _, s => s
  | n + 1, i, s =>
    match s.apps[i]? with
    | none => restartLoop forks n (i + 1) s
    | some a =>
      if a.status = .toBeRestarted then
        match forks a.id with
        | some pid => restartLoop forks n (i + 1) (s.start i a pid)
        | none => restartLoop forks n (i + 1) { s with apps := s.apps.eraseIdx i }
      else restartLoop forks n (i + 1) s

def sigalrmHandler (s : State) (forks : Nat → Option Nat) : State :=
  restartLoop forks s.apps.length 0 { s with pending := false }

/-! ## Commands -/

/-- The command `setup`, for what `check_params` says. -/
def setup (s : State) (valid : Bool) : State :=
  if valid then
    let id := (s.nextAppId + 1) % 2 ^ 32
    { s with apps := s.apps ++ [⟨id, none, .killed, false⟩], nextAppId := id }
  else s

def State.withApp (s : State) (id : Nat) (k : Nat → App → State) : State :=
  if id = 0 then s
  else
    match findById s.apps id with
    | none => s
    | some i =>
      match s.apps[i]? with
      | none => s
      | some a => if a.privileged then s else k i a

/-- The command `start`, for what comes of the fork. -/
def startApp (s : State) (id : Nat) (fork : Option Nat) : State :=
  s.withApp id fun i a =>
    match fork with
    | some pid =>
      if a.status = .killed then { s.start i a pid with halted := s.halted.filter (· ≠ id) } else s
    | none => s

/-- The command `stop`, up to the wait in `stop_app`. -/
def stopApp (s : State) (id : Nat) : State :=
  s.withApp id fun i a =>
    let s := { s with halted := id :: s.halted }
    if a.status = .started ∨ a.status = .toBeKilled then
      { s.setStatus i a .toBeKilled with mode := .stopping id false }
    else s.setStatus i a .killed

/-- The loop of the command `remove`. -/
def State.removeApp (s : State) (id : Nat) : State :=
  { s with apps := s.apps.eraseP fun a => a.id = id }

/-- The command `remove`, up to the wait in `stop_app` if there is one. -/
def remove (s : State) (id : Nat) : State :=
  s.withApp id fun i a =>
    if a.status = .started ∨ a.status = .toBeKilled then
      { s.setStatus i a .toBeKilled with mode := .stopping id true }
    else s.removeApp id

/-- What follows `stop_app`, which ends when the application is killed or after its time. -/
def stopped (s : State) : State :=
  match s.mode with
  | .stopping id removes =>
    let s := { s with mode := .idle }
    if removes then s.removeApp id else s
  | _ => s

/-! ## Events -/

inductive Event where
  | launch (fork : Option Nat)
  | launched
  | setup (valid : Bool)
  | start (id : Nat) (fork : Option Nat)
  | stop (id : Nat)
  | remove (id : Nat)
  | stopped
  | status (id : Nat)
  | list
  | die (pid : Nat) (x : Exit)
  | collect (pid : Nat)
  | expire
  | alarm (forks : Nat → Option Nat)

def launch (s : State) (fork : Option Nat) : State :=
  match fork, s.apps with
  | some pid, a :: _ =>
    { s with mode := .forked pid, children := s.children ++ [⟨pid, a.id, none⟩] }
  | _, _ => { s with mode := .idle }

def launched (s : State) : State :=
  match s.mode, s.apps with
  | .forked pid, a :: apps =>
    { s with mode := .idle, apps := { a with status := .started, pid := some pid } :: apps }
  | _, _ => s

def die (s : State) (pid : Nat) (x : Exit) : State :=
  { s with children := s.children.map fun c => if c.pid = pid then { c with exit := some x } else c }

def step (s : State) : Event → State
  | .launch fork => launch s fork
  | .launched => launched s
  | .setup valid => setup s valid
  | .start id fork => startApp s id fork
  | .stop id => stopApp s id
  | .remove id => remove s id
  | .stopped => stopped s
  | .status _ | .list => s
  | .die pid x => die s pid x
  | .collect pid => collect s pid
  | .expire => { s with scheduled := false, pending := true }
  | .alarm forks => sigalrmHandler s forks

/-- The system does not give a process the identifier of one that is not collected. -/
def Fresh (s : State) (fork : Option Nat) : Prop :=
  ∀ pid, fork = some pid → ∀ c ∈ s.children, c.pid ≠ pid

instance (s : State) : (fork : Option Nat) → Decidable (Fresh s fork)
  | none => isTrue nofun
  | some pid => decidable_of_iff (∀ c ∈ s.children, c.pid ≠ pid)
    ⟨fun h _ heq => Option.some.inj heq ▸ h, fun h => h pid rfl⟩

/-- The handlers of signals run between two commands, or, for children, in `stop_app`; they are not
blocked while the privileged application is started. -/
def Enabled (s : State) : Event → Prop
  | .launch fork => s.mode = .boot ∧ Fresh s fork
  | .launched => ∃ pid, s.mode = .forked pid
  | .setup _ | .stop _ | .remove _ | .status _ | .list => s.mode = .idle
  | .start _ fork => s.mode = .idle ∧ Fresh s fork
  | .stopped => ∃ id removes, s.mode = .stopping id removes
  | .die pid _ => ∃ c ∈ s.children, c.pid = pid ∧ c.exit = none
  | .collect pid => ∃ c ∈ s.children, c.pid = pid ∧ c.exit ≠ none
  | .expire => s.scheduled = true
  | .alarm forks =>
    s.mode = .idle ∧ s.pending = true ∧
      (∀ a ∈ s.apps, a.status = .toBeRestarted → Fresh s (forks a.id)) ∧
      ∀ a ∈ s.apps, a.status = .toBeRestarted → ∀ b ∈ s.apps, b.status = .toBeRestarted →
        forks a.id = forks b.id → forks a.id = none ∨ a.id = b.id

instance (s : State) : (e : Event) → Decidable (Enabled s e)
  | .launch _ | .start _ _ => inferInstanceAs (Decidable (_ ∧ _))
  | .launched =>
    match h : s.mode with
    | .forked pid => isTrue ⟨pid, h⟩
    | .boot | .idle | .stopping _ _ => isFalse fun ⟨_, heq⟩ => by cases h.symm.trans heq
  | .stopped =>
    match h : s.mode with
    | .stopping id removes => isTrue ⟨id, removes, h⟩
    | .boot | .idle | .forked _ => isFalse fun ⟨_, _, heq⟩ => by cases h.symm.trans heq
  | .setup _ | .stop _ | .remove _ | .status _ | .list | .expire =>
    inferInstanceAs (Decidable (_ = _))
  | .die pid _ => inferInstanceAs (Decidable (∃ c ∈ s.children, c.pid = pid ∧ c.exit = none))
  | .collect pid => inferInstanceAs (Decidable (∃ c ∈ s.children, c.pid = pid ∧ c.exit ≠ none))
  | .alarm forks =>
    inferInstanceAs (Decidable (s.mode = .idle ∧ s.pending = true ∧
      (∀ a ∈ s.apps, a.status = .toBeRestarted → Fresh s (forks a.id)) ∧
      ∀ a ∈ s.apps, a.status = .toBeRestarted → ∀ b ∈ s.apps, b.status = .toBeRestarted →
        forks a.id = forks b.id → forks a.id = none ∨ a.id = b.id))

end Mihini.Appmon
