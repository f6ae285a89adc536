import Mihini.Lib.LuaTable

/-!
# The application container

The operations of `src/agent/agent/appcon.lua` on the list of applications, on its persisted copy and
on the applications that the container has set up in the daemon.  What the daemon and the system do is
part of the event; files are seen as the outcome of the calls that use them.
-/

namespace Mihini.Appcon

open Mihini.Lib

abbrev Str := List Char

inductive Answer where
  | number (n : Nat)
  | text (s : String)
  deriving DecidableEq

inductive Fate where
  | answered
  | silent (err : String)
  /-- It is not carried out, and answered with a text. -/
  | refused (text : String)
  | lost (err : String)
  deriving DecidableEq

def Fate.carriedOut : Fate → Bool
  | .answered | .silent _ => true
  | _ => false

/-- `app_id_daemon` and `autostart` of an entry; `id` is its key. -/
structure App where
  autostart : Bool
  daemonId : Option Answer
  deriving DecidableEq

structure State where
  memory : LuaTable Str App
  /-- What `persist.load` would find. -/
  flash : LuaTable Str App
  daemon : List (Nat × Str)
  /-- The applications that `initapps` still has to visit. -/
  todo : List Str
  deriving DecidableEq

def State.init : State := ⟨∅, ∅, [], []⟩

/-! ## The daemon -/

/-- `sndcmd("setup …")`, for which the daemon takes the number `n`. -/
def setupapp (s : State) (id : Str) (n : Nat) : Fate → State × Except String Answer
  | .answered => ({ s with daemon := s.daemon ++ [(n, id)] }, .ok (.number n))
  | .silent err => ({ s with daemon := s.daemon ++ [(n, id)] }, .error err)
  | .refused text => (s, .ok (.text text))
  | .lost err => (s, .error err)

def State.forget (s : State) : Answer → State
  | .number n => { s with daemon := s.daemon.eraseP fun x => x.1 = n }
  | .text _ => s

/-- What the daemon answers to `remove`. -/
def State.removed (s : State) : Answer → String
  | .number n => if s.daemon.any fun x => x.1 = n then "ok" else "Unknown app"
  | .text _ => "Bad command format, remove called with invalid app id"

/-- `sndcmd("remove "..app.app_id_daemon)` -/
def remove (s : State) (daemonId : Answer) : Fate → State × Except String String
  | .answered => (s.forget daemonId, .ok (s.removed daemonId))
  | .silent err => (s.forget daemonId, .error err)
  | .refused text => (s, .ok text)
  | .lost err => (s, .error err)

/-- `sndcmd("list")`, and the match for the program of an application in the answer: a greedy one,
which finds the last. -/
def found (s : State) (id : Str) : Fate → Except String (Option Nat)
  | .answered => .ok ((s.daemon.findRev? fun x => x.2 = id).map Prod.fst)
  | .refused _ => .ok none
  | .silent err => .error err
  | .lost err => .error err

/-! ## The list -/

/-- `persist.save`, whose failures are not seen. -/
def State.save (s : State) (saved : Bool) : State :=
  if saved then { s with flash := s.memory } else s

/-- `start` and `stop`, when the daemon answers `reply`. -/
def command (s : State) (id : Str) (runnable : Bool) (reply : Except String String) :
    Except String String :=
  match s.memory.lookup id with
  | none => .error "Unknown app"
  | some app =>
    if runnable = false then .error "Not runnable"
    else if app.daemonId = none then .error s!"Runnable app \"{String.ofList id}\" not setup in daemon"
    else reply

/-- `'^[%a%d_%-]+$'` -/
def validId (id : Str) : Bool :=
  id ≠ [] ∧ id.all fun c => c.isAlphanum || c = '_' || c = '-'

structure InstallEnv where
  data : Bool
  remove : Fate
  /-- `rm -rf` of the content, and `mkdir`. -/
  purged : Bool
  created : Bool
  copied : Except String Unit
  runnable : Bool
  setup : Fate
  number : Nat
  saved : Bool

def prepare (known purge : Bool) (env : InstallEnv) : Except String Unit :=
  if known then
    if purge = true ∧ env.purged = false then
      .error "Error while purging app runtime dir for reinstall"
    else env.copied
  else if env.created = false then .error "Error while creating app runtime dir"
  else env.copied

/-- The old version of an application leaves the daemon: whether it does is not looked at. -/
def clean (s : State) (id : Str) (env : InstallEnv) : State :=
  match s.memory.lookup id with
  | some ⟨autostart, some daemonId⟩ =>
    let s := (remove s daemonId env.remove).1
    { s with memory := s.memory.insert id ⟨autostart, none⟩ }
  | _ => s

/-- The end of `install`: the list is filled, and the application set up. -/
def register (s : State) (id : Str) (autostart : Bool) (env : InstallEnv) :
    State × Except String Unit :=
  let s := { s with memory := s.memory.insert id ⟨autostart, none⟩ }
  if env.runnable then
    match setupapp s id env.number env.setup with
    | (s, .error err) =>
      (s, .error ("Cannot setup application in Application Monitoring Daemon: " ++ err))
    | (s, .ok res) =>
      ({ s with memory := s.memory.insert id ⟨autostart, some res⟩ }.save env.saved, .ok ())
  else (s.save env.saved, .ok ())

def install (s : State) (id : Str) (autostart purge : Bool) (env : InstallEnv) :
    State × Except String Unit :=
  if env.data = false then (s, .error "Invalid data")
  else if validId id = false then (s, .error "Invalid id name of application")
  else
    let known := (s.memory.lookup id).isSome
    let s := clean s id env
    match prepare known purge env with
    | .error err => (s, .error err)
    | .ok _ => register s id autostart env

structure UninstallEnv where
  remove : Fate
  present : Bool
  /-- The status of `rm -rf`. -/
  status : Int
  saved : Bool

def removeError : Except String String → Option String
  | .ok res =>
    if res.startsWith "ok" then none
    else some s!"failed to remove application removed from appmon_daemon: {res} nil"
  | .error err => some s!"failed to remove application removed from appmon_daemon: nil {err}"

/-- What `uninstall` returns: `rm -rf` overrides what the daemon said, and without either of them there
is neither a result nor an error. -/
def uninstalled (reply : Option (Except String String)) (env : UninstallEnv) :
    Except (Option String) Unit :=
  if env.present then
    if env.status = 0 then .ok ()
    else .error (some s!"failed to remove application install folder: {env.status} nil")
  else
    match reply with
    | none => .error none
    | some reply =>
      match removeError reply with
      | none => .ok ()
      | some err => .error (some err)

def uninstall (s : State) (id : Str) (env : UninstallEnv) :
    State × Except (Option String) Unit :=
  match s.memory.lookup id with
  | none => (s, .error (some "Unknown app"))
  | some app =>
    let r := app.daemonId.map fun daemonId => remove s daemonId env.remove
    let s := (r.map Prod.fst).getD s
    ({ s with memory := s.memory.erase id }.save env.saved, uninstalled (r.map Prod.snd) env)

def configure (s : State) (id : Str) (autostart runnable saved : Bool) :
    State × Except String Unit :=
  match s.memory.lookup id with
  | none => (s, .error "Unknown app")
  | some app =>
    if runnable = false then (s, .error "Not Runnable")
    else
      ({ s with memory := s.memory.insert id { app with autostart := autostart } }.save saved, .ok ())

/-! ## Restarts of the agent -/

/-- `init`: the list is loaded, in the order of `pairs`, and saved again. -/
def init (s : State) (loaded saved alive : Bool) (order : List Str) : State :=
  let memory := if loaded then s.flash else ∅
  { memory := memory
    flash := if saved then memory else s.flash
    daemon := if alive then s.daemon else []
    todo := order }

structure InitEnv where
  path : Bool
  uninstall : UninstallEnv
  runnable : Bool
  list : Fate
  setup : Fate
  number : Nat
  start : Except String String

def initapp (s : State) (id : Str) (app : App) (env : InitEnv) : State × Except String String :=
  let attach (s : State) (currId : Nat) :=
    let s := { s with memory := s.memory.insert id { app with daemonId := some (.number currId) } }
    (s, if app.autostart then command s id env.runnable env.start else .ok "ok")
  match found s id env.list with
  | .error err => (s, .error ("Appmon Daemon list command failed, err=" ++ err))
  | .ok (some n) => attach s n
  | .ok none =>
    match setupapp s id env.number env.setup with
    | (s, .ok (.number n)) => attach s n
    | (s, .ok (.text _)) =>
      (s, .error "Appmon Daemon setup command failed, cannot get app id, err=unknown")
    | (s, .error err) =>
      (s, .error ("Appmon Daemon setup command failed, cannot get app id, err=" ++ err))

def initOne (s : State) (id : Str) (env : InitEnv) : State :=
  if env.path = false then (uninstall s id env.uninstall).1
  else
    match s.memory.lookup id with
    | none => s
    | some app => if env.runnable then (initapp s id app env).1 else s

/-- `initapps`, one application at a time. -/
def initapps (s : State) (env : InitEnv) : State :=
  match s.todo with
  | [] => s
  | id :: todo => { initOne s id env with todo := todo }

/-! ## Events -/

inductive Event where
  | install (id : Str) (autostart purge : Bool) (env : InstallEnv)
  | uninstall (id : Str) (env : UninstallEnv)
  | configure (id : Str) (autostart runnable saved : Bool)
  | command (id : Str) (runnable : Bool) (reply : Except String String)
  | init (loaded saved alive : Bool) (order : List Str)
  | initapps (env : InitEnv)

def step (s : State) : Event → State
  | .install id autostart purge env => (install s id autostart purge env).1
  | .uninstall id env => (uninstall s id env).1
  | .configure id autostart runnable saved => (configure s id autostart runnable saved).1
  | .command _ _ _ => s
  | .init loaded saved alive order => init s loaded saved alive order
  | .initapps env => initapps s env

def State.Unused (s : State) (n : Nat) : Prop := ∀ x ∈ s.daemon, x.1 ≠ n

instance (s : State) (n : Nat) : Decidable (s.Unused n) :=
  inferInstanceAs (Decidable (∀ x ∈ s.daemon, x.1 ≠ n))

/-- The operations wait for the applications to be visited, and the daemon numbers an application as no
other one. -/
def Enabled (s : State) : Event → Prop
  | .init loaded _ _ order => order.Perm (if loaded then s.flash.keys else [])
  | .initapps env => s.todo ≠ [] ∧ s.Unused env.number
  | .install _ _ _ env => s.todo = [] ∧ s.Unused env.number
  | _ => s.todo = []

instance (s : State) : (e : Event) → Decidable (Enabled s e)
  | .init loaded _ _ order =>
    inferInstanceAs (Decidable (order.Perm (if loaded then s.flash.keys else [])))
  | .initapps env => inferInstanceAs (Decidable (s.todo ≠ [] ∧ s.Unused env.number))
  | .install _ _ _ env => inferInstanceAs (Decidable (s.todo = [] ∧ s.Unused env.number))
  | .uninstall _ _ => inferInstanceAs (Decidable (s.todo = []))
  | .configure _ _ _ _ => inferInstanceAs (Decidable (s.todo = []))
  | .command _ _ _ => inferInstanceAs (Decidable (s.todo = []))

end Mihini.Appcon
