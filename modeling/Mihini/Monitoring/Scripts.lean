import Mathlib.Data.Finset.Basic
import Mihini.Lib.Run

/-!
# Monitoring scripts

`src/agent/agent/monitoring/init.lua`: the installed scripts with their persisted flags, the
loaded ones with the resources their setup has registered, and these resources where they
are registered: in the tree manager, among the timers, in the table of boot hooks.
-/

namespace Mihini.Monitoring

open Mihini.Lib
open Function (update update_self update_idem update_of_ne update_eq_self)

abbrev Name := String

/-- An element of `__unload`: a tree manager registration, a timer, or an index of
`onboothooks`. -/
inductive Resource
  | hook (id : Nat)
  | timer (id : Nat)
  | boot (idx : Nat)
  deriving DecidableEq, Repr

/-- How a call to `treemgr.register` ends; an error may come after the hook was added to the
tables of the tree manager. -/
inductive Register
  | done
  | refused
  | interrupted
  deriving DecidableEq, Repr

/-- What the setup of a script does: it calls the functions of `setupenv`, which get new
objects, or raises an error of its own.  `onthreshold` and `ondeadband` are `onchange`. -/
inductive Setup
  | onchange (hook : Nat) (register : Register)
  | onhold (timer hook : Nat) (register : Register)
  | onperiod (timer : Nat)
  | ondate (timer : Nat) (valid : Bool)
  | onboot (border : Nat)
  | error
  deriving DecidableEq, Repr

/-- A script as it runs when it is loaded; `none` when it does not compile. -/
abbrev Script := Option (List Setup)

inductive Result
  | ok
  | failed
  | raised
  deriving DecidableEq, Repr

structure World where
  installed : Name → Option Bool
  /-- `loaded_scripts`: the `__unload` list of each environment -/
  loaded : Name → Option (List Resource)
  hooks : Finset Nat
  timers : Finset Nat
  /-- the indexes of `onboothooks` -/
  onboothooks : Finset Nat

namespace World

variable (w : World)

def Registered : Resource → Prop
  | .hook id => id ∈ w.hooks
  | .timer id => id ∈ w.timers
  | .boot idx => idx ∈ w.onboothooks

instance (r : Resource) : Decidable (w.Registered r) :=
  match r with
  | .hook _ => inferInstanceAs (Decidable (_ ∈ _))
  | .timer _ => inferInstanceAs (Decidable (_ ∈ _))
  | .boot _ => inferInstanceAs (Decidable (_ ∈ _))

def register : Resource → World
  | .hook id => { w with hooks := insert id w.hooks }
  | .timer id => { w with timers := insert id w.timers }
  | .boot idx => { w with onboothooks := insert idx w.onboothooks }

/-- One round of the loop of `unload`: `treemgr.unregister`, `timer.cancel`, or the boot hook
is set to `nil`. -/
def free : Resource → World
  | .hook id => { w with hooks := w.hooks.erase id }
  | .timer id => { w with timers := w.timers.erase id }
  | .boot idx => { w with onboothooks := w.onboothooks.erase idx }

end World

/-- What a call registers, what of it comes into `__unload`, and whether the call succeeds. -/
structure Effect where
  registers : List Resource
  unload : List Resource
  success : Bool

def Setup.effect : Setup → Effect
  | .onchange hook .done => ⟨[.hook hook], [.hook hook], true⟩
  | .onchange _ .refused => ⟨[], [], false⟩
  | .onchange hook .interrupted => ⟨[.hook hook], [], false⟩
  | .onhold timer hook .done => ⟨[.timer timer, .hook hook], [.timer timer, .hook hook], true⟩
  -- the timer is running when the tree manager refuses
  | .onhold timer _ .refused => ⟨[.timer timer], [], false⟩
  | .onhold timer hook .interrupted => ⟨[.timer timer, .hook hook], [], false⟩
  | .onperiod timer => ⟨[.timer timer], [.timer timer], true⟩
  | .ondate timer true => ⟨[.timer timer], [.timer timer], true⟩
  | .ondate _ false => ⟨[], [], false⟩
  | .onboot border => ⟨[.boot (border + 1)], [.boot (border + 1)], true⟩
  | .error => ⟨[], [], false⟩

namespace World

/-- The run of a script: the world and the `__unload` list it leaves, and whether it ends
without an error. -/
def setup (w : World) (unload : List Resource) : List Setup → World × List Resource × Bool
  | [] => (w, unload, true)
  | call :: calls =>
    let w := call.effect.registers.foldl register w
    if call.effect.success then w.setup (unload ++ call.effect.unload) calls
    else (w, unload, false)

def unload (w : World) (name : Name) : World × Result :=
  match w.loaded name with
  | none => (w, .failed)
  | some env =>
    let freed := env.foldl free w
    ({ freed with loaded := update freed.loaded name none }, .ok)

def load (w : World) (name : Name) (script : Script) : World × Result :=
  match script with
  | none => (w, .failed)
  | some calls =>
    let (after, env, success) := w.setup [] calls
    if success then
      let replaced := (after.unload name).1
      ({ replaced with loaded := update replaced.loaded name (some env) }, .ok)
    else (after, .failed)

/-- `installed_scripts[name] = flag` -/
def persist (w : World) (name : Name) (flag : Option Bool) : World :=
  { w with installed := update w.installed name flag }

/-- `script` is what the file of the script contains. -/
def enable (w : World) (name : Name) (set : Bool) (script : Script) : World × Result :=
  match w.installed name with
  | none => (w, .failed)
  | some status =>
    if status ∧ ¬ set then ((w.unload name).1.persist name (some set), .ok)
    else if ¬ status ∧ set then
      let (on, result) := w.load name script
      -- the message of a failure is read from a variable that is not declared
      if result = .ok then (on.persist name (some set), .ok) else (on, .raised)
    else (w.persist name (some set), .ok)

/-- `isFile` and `copied` say whether there is a file, and whether `cp` succeeds. -/
def install (w : World) (name : Name) (isFile copied enable : Bool) (script : Script) :
    World × Result :=
  if ¬ isFile then (w, .failed)
  else if ¬ copied then (w, .raised)
  else (w.persist name (some false)).enable name enable script

def uninstall (w : World) (name : Name) : World × Result :=
  (((w.persist name none).unload name).1, .ok)

def restarted (w : World) : World where
  installed := w.installed
  loaded := fun _ => none
  hooks := ∅
  timers := ∅
  onboothooks := ∅

/-- `init` in a new process: the predefined scripts are loaded, then the enabled ones. -/
def boot (w : World) (predefined enabled : List (Name × List Setup)) : World :=
  (predefined ++ enabled).foldl (fun w p => (w.load p.1 (some p.2)).1) w.restarted

end World

def blank : World where
  installed := fun _ => none
  loaded := fun _ => none
  hooks := ∅
  timers := ∅
  onboothooks := ∅

inductive Event
  | load (name : Name) (script : Script)
  | unload (name : Name)
  | install (name : Name) (isFile copied enable : Bool) (script : Script)
  | uninstall (name : Name)
  | enable (name : Name) (set : Bool) (script : Script)
  | boot (predefined enabled : List (Name × List Setup))

def operation (w : World) : Event → World × Result
  | .load name script => w.load name script
  | .unload name => w.unload name
  | .install name isFile copied enable script => w.install name isFile copied enable script
  | .uninstall name => w.uninstall name
  | .enable name set script => w.enable name set script
  | .boot predefined enabled => (w.boot predefined enabled, .ok)

def step (w : World) (e : Event) : World := (operation w e).1

/-- A call gets objects that are registered nowhere; an index of `onboothooks` follows a
border of the table. -/
def Fresh (w : World) (call : Setup) : Prop :=
  call.effect.registers.Nodup ∧ ∀ r ∈ call.effect.registers, ¬ w.Registered r

instance (w : World) (call : Setup) : Decidable (Fresh w call) :=
  inferInstanceAs (Decidable (_ ∧ ∀ r ∈ _, _))

def Feasible (w : World) : List Setup → Prop
  | [] => True
  | call :: calls =>
    Fresh w call ∧ (call.effect.success → Feasible (call.effect.registers.foldl .register w) calls)

instance decidableFeasible : (w : World) → (calls : List Setup) → Decidable (Feasible w calls)
  | _, [] => isTrue trivial
  | w, call :: calls =>
    have : Decidable (Feasible (call.effect.registers.foldl .register w) calls) :=
      decidableFeasible _ calls
    inferInstanceAs (Decidable (_ ∧ (_ → _)))

def FeasibleScript (w : World) : Script → Prop
  | none => True
  | some calls => Feasible w calls

/-- Setups get fresh objects, and a new process loads the scripts that are enabled. -/
def Enabled (w : World) : Event → Prop
  | .load _ script | .install _ _ _ _ script | .enable _ _ script => FeasibleScript w script
  | .unload _ | .uninstall _ => True
  | .boot predefined enabled =>
    (∀ name, w.installed name = some true ↔ name ∈ enabled.map Prod.fst) ∧
      Along (fun w p => (w.load p.1 (some p.2)).1) (fun w p => Feasible w p.2) w.restarted
        (predefined ++ enabled)

def succeeds : Script → Bool
  | none => false
  | some calls => calls.all (·.effect.success)

def clean : Script → Bool
  | none => true
  | some calls =>
    calls.all (·.effect.success) ||
      match calls.head? with
      | some call => !call.effect.success && call.effect.registers.isEmpty
      | none => true

/-- A setup that fails has registered nothing.  A script is not replaced while it is loaded,
but by one that is enabled and whose setup succeeds.  Installed scripts are loaded and unloaded
by their flags only, and those that are enabled can be loaded at the start. -/
def Sound (w : World) : Event → Prop
  | .load name script => clean script ∧ (succeeds script → w.installed name ≠ some false)
  | .unload name => w.installed name ≠ some true
  | .install name isFile copied enable script =>
    isFile → copied →
      (enable → clean script) ∧ (¬ (enable ∧ succeeds script) → w.loaded name = none)
  | .enable name set script => w.installed name = some false → set → clean script
  | .uninstall _ => True
  | .boot predefined enabled =>
    (∀ p ∈ predefined, clean (some p.2) ∧ (succeeds (some p.2) → w.installed p.1 ≠ some false)) ∧
      ∀ p ∈ enabled, succeeds (some p.2)

/-- An installed script is loaded when its flag is true and only then, and what is registered
are the resources of the loaded scripts. -/
structure Exact (w : World) : Prop where
  flags : ∀ name set, w.installed name = some set → ((w.loaded name).isSome ↔ set = true)
  triggers : ∀ r, w.Registered r ↔ ∃ name env, w.loaded name = some env ∧ r ∈ env

structure Unchanged (w w' : World) : Prop where
  loaded : w'.loaded = w.loaded
  registered : ∀ r, w'.Registered r ↔ w.Registered r

/-! ## Resources -/

namespace World

variable {w : World} {r r' : Resource}

theorem registered_register : (w.register r).Registered r' ↔ r' = r ∨ w.Registered r' := by
  cases r <;> cases r' <;> simp [register, Registered]

theorem registered_free : (w.free r).Registered r' ↔ r' ≠ r ∧ w.Registered r' := by
  cases r <;> cases r' <;> simp [free, Registered]

theorem registered_foldl_register {l : List Resource} :
    (l.foldl register w).Registered r ↔ r ∈ l ∨ w.Registered r := by
  induction l generalizing w with
  | nil => simp
  | cons x l ih =>
    rw [List.foldl_cons, ih, registered_register, List.mem_cons]
    tauto

theorem registered_foldl_free {l : List Resource} :
    (l.foldl free w).Registered r ↔ r ∉ l ∧ w.Registered r := by
  induction l generalizing w with
  | nil => simp
  | cons x l ih =>
    rw [List.foldl_cons, ih, registered_free, List.mem_cons]
    tauto

theorem foldl_scripts {f : World → Resource → World}
    (hf : ∀ w x, (f w x).installed = w.installed ∧ (f w x).loaded = w.loaded)
    (l : List Resource) (w : World) :
    (l.foldl f w).installed = w.installed ∧ (l.foldl f w).loaded = w.loaded := by
  induction l generalizing w with
  | nil => exact ⟨rfl, rfl⟩
  | cons x l ih =>
    obtain ⟨hinstalled, hloaded⟩ := ih (f w x)
    exact ⟨hinstalled.trans (hf w x).1, hloaded.trans (hf w x).2⟩

theorem foldl_register_scripts (l : List Resource) (w : World) :
    (l.foldl register w).installed = w.installed ∧ (l.foldl register w).loaded = w.loaded :=
  foldl_scripts (fun _ x => by cases x <;> exact ⟨rfl, rfl⟩) l w

theorem foldl_free_scripts (l : List Resource) (w : World) :
    (l.foldl free w).installed = w.installed ∧ (l.foldl free w).loaded = w.loaded :=
  foldl_scripts (fun _ x => by cases x <;> exact ⟨rfl, rfl⟩) l w

end World

theorem unload_of_success {call : Setup} (h : call.effect.success = true) :
    call.effect.unload = call.effect.registers := by
  cases call with
  | onchange hook register => cases register <;> first | rfl | cases h
  | onhold timer hook register => cases register <;> first | rfl | cases h
  | onperiod timer => rfl
  | ondate timer valid => cases valid <;> rfl
  | onboot border => rfl
  | error => cases h

/-- What is registered are the resources of the loaded scripts and those of a setup under way;
no two scripts share one. -/
structure Triggers (w : World) (extra : List Resource) : Prop where
  registered : ∀ r, w.Registered r ↔
    r ∈ extra ∨ ∃ name env, w.loaded name = some env ∧ r ∈ env
  apart : ∀ name env r, w.loaded name = some env → r ∈ env → r ∉ extra
  disjoint : ∀ name name' env env' r, w.loaded name = some env → w.loaded name' = some env' →
    r ∈ env → r ∈ env' → name = name'

namespace Triggers

variable {w : World} {extra : List Resource}

theorem register (h : Triggers w extra) {l : List Resource} (hfresh : ∀ r ∈ l, ¬ w.Registered r) :
    Triggers (l.foldl World.register w) (extra ++ l) := by
  have hloaded := (World.foldl_register_scripts l w).2
  refine ⟨?_, ?_, ?_⟩
  · intro r
    rw [World.registered_foldl_register, h.registered, hloaded, List.mem_append]
    tauto
  · intro name env r hname hr hmem
    rw [hloaded] at hname
    rcases List.mem_append.mp hmem with hold | hnew
    · exact h.apart name env r hname hr hold
    · exact hfresh r hnew ((h.registered r).mpr (.inr ⟨name, env, hname, hr⟩))
  · rw [hloaded]
    exact h.disjoint

theorem setup {calls : List Setup} (hall : ∀ call ∈ calls, call.effect.success = true)
    (hfeasible : Feasible w calls) (h : Triggers w extra) :
    ∃ after env, w.setup extra calls = (after, env, true) ∧ Triggers after env ∧
      after.installed = w.installed ∧ after.loaded = w.loaded := by
  induction calls generalizing w extra with
  | nil => exact ⟨w, extra, rfl, h, rfl, rfl⟩
  | cons call calls ih =>
    obtain ⟨⟨-, hfresh⟩, hrest⟩ := hfeasible
    have hsuccess := hall call (List.mem_cons_self ..)
    have hnext := h.register hfresh
    obtain ⟨after, env, hsetup, htriggers, hinstalled, hloaded⟩ :=
      ih (fun c hc => hall c (List.mem_cons_of_mem _ hc)) (hrest hsuccess) hnext
    obtain ⟨hinstalled', hloaded'⟩ := World.foldl_register_scripts call.effect.registers w
    refine ⟨after, env, ?_, htriggers, hinstalled.trans hinstalled', hloaded.trans hloaded'⟩
    rw [World.setup, if_pos hsuccess, unload_of_success hsuccess]
    exact hsetup

theorem unload (h : Triggers w extra) (name : Name) : Triggers (w.unload name).1 extra := by
  rw [World.unload]
  split
  · exact h
  · next env henv =>
    have hloaded := (World.foldl_free_scripts env w).2
    have hother {name' : Name} {env' : List Resource}
        (hname' : update (env.foldl World.free w).loaded name none name' = some env') :
        name' ≠ name ∧ w.loaded name' = some env' := by
      by_cases heq : name' = name
      · rw [heq, update_self] at hname'
        cases hname'
      · rw [update_of_ne heq, hloaded] at hname'
        exact ⟨heq, hname'⟩
    refine ⟨?_, ?_, ?_⟩
    · intro r
      show (env.foldl World.free w).Registered r ↔ _
      rw [World.registered_foldl_free, h.registered]
      constructor
      · rintro ⟨hnot, hextra | ⟨name', env', hname', hr⟩⟩
        · exact .inl hextra
        · refine .inr ⟨name', env', ?_, hr⟩
          have hne : name' ≠ name := by
            intro heq
            rw [heq, henv] at hname'
            exact hnot (Option.some.inj hname' ▸ hr)
          show update (env.foldl World.free w).loaded name none name' = some env'
          rw [update_of_ne hne, hloaded, hname']
      · rintro (hextra | ⟨name', env', hname', hr⟩)
        · exact ⟨fun hmem => h.apart name env r henv hmem hextra, .inl hextra⟩
        · obtain ⟨hne, hname''⟩ := hother hname'
          exact ⟨fun hmem => hne (h.disjoint name' name env' env r hname'' henv hr hmem),
            .inr ⟨name', env', hname'', hr⟩⟩
    · intro name' env' r hname' hr
      exact h.apart name' env' r (hother hname').2 hr
    · intro name' name'' env' env'' r hname' hname'' hr hr'
      exact h.disjoint name' name'' env' env'' r (hother hname').2 (hother hname'').2 hr hr'

/-- A script takes the resources of its setup, once the name is free. -/
theorem assign (h : Triggers w extra) {name : Name} (hfree : w.loaded name = none) :
    Triggers { w with loaded := update w.loaded name (some extra) } [] := by
  have hcases {name' : Name} {env' : List Resource}
      (hname' : update w.loaded name (some extra) name' = some env') :
      name' = name ∧ env' = extra ∨ name' ≠ name ∧ w.loaded name' = some env' := by
    by_cases heq : name' = name
    · rw [heq, update_self] at hname'
      exact .inl ⟨heq, (Option.some.inj hname').symm⟩
    · rw [update_of_ne heq] at hname'
      exact .inr ⟨heq, hname'⟩
  refine ⟨?_, ?_, ?_⟩
  · intro r
    show w.Registered r ↔ _
    rw [h.registered]
    constructor
    · rintro (hextra | ⟨name', env', hname', hr⟩)
      · exact .inr ⟨name, extra, update_self .., hextra⟩
      · refine .inr ⟨name', env', ?_, hr⟩
        have hne : name' ≠ name := by
          intro heq
          rw [heq, hfree] at hname'
          cases hname'
        show update _ name _ name' = _
        rw [update_of_ne hne, hname']
    · rintro (hnil | ⟨name', env', hname', hr⟩)
      · cases hnil
      · rcases hcases hname' with ⟨-, rfl⟩ | ⟨-, hold⟩
        · exact .inl hr
        · exact .inr ⟨name', env', hold, hr⟩
  · intro _ _ _ _ _ hmem
    cases hmem
  · intro name' name'' env' env'' r hname' hname'' hr hr'
    rcases hcases hname' with ⟨rfl, rfl⟩ | ⟨hne, hold⟩
    · rcases hcases hname'' with ⟨rfl, -⟩ | ⟨-, hold'⟩
      · rfl
      · exact absurd hr (h.apart name'' env'' r hold' hr')
    · rcases hcases hname'' with ⟨rfl, rfl⟩ | ⟨-, hold'⟩
      · exact absurd hr' (h.apart name' env' r hold hr)
      · exact h.disjoint name' name'' env' env'' r hold hold' hr hr'

end Triggers

/-! ## Loading -/

section Load

variable {w : World}

theorem unload_installed (w : World) (name : Name) : (w.unload name).1.installed = w.installed := by
  rw [World.unload]
  split
  · rfl
  · next env _ => exact (World.foldl_free_scripts env w).1

theorem unload_loaded (w : World) (name : Name) :
    (w.unload name).1.loaded = update w.loaded name none := by
  rw [World.unload]
  split
  · next hnone =>
    show w.loaded = _
    rw [← hnone, update_eq_self]
  · next env _ =>
    show update (env.foldl World.free w).loaded name none = _
    rw [(World.foldl_free_scripts env w).2]

variable {script : Script}

/-- A setup that succeeds replaces the script. -/
theorem load_of_succeeds (h : Triggers w []) (hsucceeds : succeeds script = true)
    (hfeasible : FeasibleScript w script) (name : Name) :
    (w.load name script).2 = .ok ∧ Triggers (w.load name script).1 [] ∧
      (w.load name script).1.installed = w.installed ∧
      ∃ env, (w.load name script).1.loaded = update w.loaded name (some env) := by
  cases script with
  | none => cases hsucceeds
  | some calls =>
    have hall : ∀ call ∈ calls, call.effect.success = true := List.all_eq_true.mp hsucceeds
    obtain ⟨after, env, hsetup, htriggers, hinstalled, hloaded⟩ := h.setup hall hfeasible
    have hload : w.load name (some calls) = ({ (after.unload name).1 with
        loaded := update (after.unload name).1.loaded name (some env) }, .ok) := by
      rw [World.load, hsetup]
      rfl
    have hreplaced := unload_loaded after name
    have hfree : (after.unload name).1.loaded name = none := by
      rw [hreplaced, update_self]
    rw [hload]
    refine ⟨rfl, (htriggers.unload name).assign hfree, ?_, env, ?_⟩
    · exact (unload_installed after name).trans hinstalled
    · show update (after.unload name).1.loaded name (some env) = _
      rw [hreplaced, update_idem, hloaded]

theorem load_of_fails (hclean : clean script = true)
    (hfails : succeeds script = false) (w : World) (name : Name) :
    w.load name script = (w, .failed) := by
  cases script with
  | none => rfl
  | some calls =>
    have hall : calls.all (·.effect.success) = false := hfails
    have hhead : (match calls.head? with
        | some call => !call.effect.success && call.effect.registers.isEmpty
        | none => true) = true := by
      have hor : (calls.all (·.effect.success) || _) = true := hclean
      rw [hall, Bool.false_or] at hor
      exact hor
    cases calls with
    | nil => cases hall
    | cons call calls =>
      have hhead' : (!call.effect.success && call.effect.registers.isEmpty) = true := hhead
      rw [Bool.and_eq_true, Bool.not_eq_true'] at hhead'
      have hregisters : call.effect.registers = [] := List.isEmpty_iff.mp hhead'.2
      have hsetup : w.setup [] (call :: calls) = (w, [], false) := by
        rw [World.setup, hregisters, hhead'.1]
        rfl
      rw [World.load, hsetup]
      rfl

theorem feasible_congr {w w' : World} (h : ∀ r, w.Registered r ↔ w'.Registered r)
    {calls : List Setup} (hfeasible : Feasible w calls) : Feasible w' calls := by
  induction calls generalizing w w' with
  | nil => trivial
  | cons call calls ih =>
    obtain ⟨⟨hnodup, hfresh⟩, hrest⟩ := hfeasible
    refine ⟨⟨hnodup, fun r hr hreg => hfresh r hr ((h r).mpr hreg)⟩, fun hsuccess => ?_⟩
    refine ih ?_ (hrest hsuccess)
    intro r
    rw [World.registered_foldl_register, World.registered_foldl_register, h r]

theorem feasible_persist {w : World} (h : FeasibleScript w script) (name : Name)
    (flag : Option Bool) : FeasibleScript (w.persist name flag) script := by
  cases script with
  | none => trivial
  | some calls => exact feasible_congr (fun r => by cases r <;> exact Iff.rfl) h

end Load

/-! ## Operations -/

structure Inv (w : World) : Prop where
  triggers : Triggers w []
  flags : ∀ name set, w.installed name = some set → ((w.loaded name).isSome ↔ set = true)

namespace Inv

variable {w : World}

theorem exact (h : Inv w) : Exact w where
  flags := h.flags
  triggers := by
    intro r
    rw [h.triggers.registered]
    constructor
    · rintro (hnil | hown)
      · cases hnil
      · exact hown
    · exact .inr

variable {name : Name}

theorem flags_update (h : Inv w) {w' : World} (flag : Option Bool)
    (env : Option (List Resource))
    (hinstalled : w'.installed = update w.installed name flag)
    (hloaded : w'.loaded = update w.loaded name env)
    (hname : ∀ set, flag = some set → (env.isSome ↔ set = true)) :
    ∀ name' set, w'.installed name' = some set → ((w'.loaded name').isSome ↔ set = true) := by
  intro name' set hset
  rw [hinstalled] at hset
  rw [hloaded]
  by_cases heq : name' = name
  · rw [heq, update_self] at hset ⊢
    exact hname set hset
  · rw [update_of_ne heq] at hset ⊢
    exact h.flags name' set hset

theorem load (h : Inv w) {script : Script} (hfeasible : FeasibleScript w script)
    (hclean : clean script = true) (hflag : succeeds script = true → w.installed name ≠ some false) :
    Inv (w.load name script).1 := by
  cases hsucceeds : succeeds script with
  | false =>
    rw [load_of_fails hclean hsucceeds]
    exact h
  | true =>
    obtain ⟨-, htriggers, hinstalled, env, hloaded⟩ :=
      load_of_succeeds h.triggers hsucceeds hfeasible name
    refine ⟨htriggers, h.flags_update (w.installed name) (some env) ?_ hloaded ?_⟩
    · rw [hinstalled, update_eq_self]
    · intro set hset
      cases set with
      | false => exact absurd hset (hflag hsucceeds)
      | true => exact ⟨fun _ => rfl, fun _ => rfl⟩

theorem unload (h : Inv w) (hflag : w.installed name ≠ some true) :
    Inv (w.unload name).1 := by
  refine ⟨h.triggers.unload name,
    h.flags_update (w.installed name) none ?_ (unload_loaded w name) ?_⟩
  · rw [unload_installed, update_eq_self]
  · intro set hset
    cases set with
    | false => exact Iff.rfl
    | true => exact absurd hset hflag

end Inv

theorem Triggers.persist {w : World} {extra : List Resource} (h : Triggers w extra) (name : Name)
    (flag : Option Bool) : Triggers (w.persist name flag) extra :=
  ⟨h.registered, h.apart, h.disjoint⟩

namespace Inv

variable {w : World}

variable {name : Name}

theorem persist (h : Inv w) {flag : Option Bool} (hflag : flag ≠ some true)
    (hfree : w.loaded name = none) : Inv (w.persist name flag) := by
  refine ⟨h.triggers.persist name flag, h.flags_update flag none rfl ?_ ?_⟩
  · rw [← hfree, update_eq_self]
    rfl
  · intro set hset
    cases set with
    | false => exact Iff.rfl
    | true => exact absurd hset hflag

theorem uninstall (h : Inv w) (name : Name) : Inv (w.uninstall name).1 := by
  refine ⟨(h.triggers.persist name none).unload name, ?_⟩
  apply h.flags_update none none (unload_installed (w.persist name none) name)
    (unload_loaded (w.persist name none) name)
  intro set hset
  cases hset

variable {script : Script}

/-- A script that is to be enabled: its flag is not set, and a setup that fails leaves it so. -/
theorem enable_set (h : Triggers w [])
    (hother : ∀ name' set, name' ≠ name → w.installed name' = some set →
      ((w.loaded name').isSome ↔ set = true))
    (hflag : w.installed name = some false) (hfeasible : FeasibleScript w script)
    (hclean : clean script = true) (hfails : succeeds script = false → w.loaded name = none) :
    Inv (w.enable name true script).1 := by
  have henable : w.enable name true script =
      if (w.load name script).2 = .ok then ((w.load name script).1.persist name (some true), .ok)
      else ((w.load name script).1, .raised) := by
    rw [World.enable, hflag]
    rfl
  rw [henable]
  cases hsucceeds : succeeds script with
  | false =>
    rw [load_of_fails hclean hsucceeds, if_neg nofun]
    refine ⟨h, ?_⟩
    intro name' set hset
    by_cases heq : name' = name
    · rw [heq, hflag] at hset
      cases hset
      rw [heq, hfails hsucceeds]
      exact Iff.rfl
    · exact hother name' set heq hset
  | true =>
    obtain ⟨hok, htriggers, hinstalled, env, hloaded⟩ :=
      load_of_succeeds h hsucceeds hfeasible name
    rw [if_pos hok]
    refine ⟨htriggers.persist name (some true), ?_⟩
    intro name' set hset
    show ((w.load name script).1.loaded name').isSome ↔ _
    have hset' : update (w.load name script).1.installed name (some true) name' =
      some set := hset
    rw [hinstalled] at hset'
    rw [hloaded]
    by_cases heq : name' = name
    · rw [heq, update_self] at hset' ⊢
      cases hset'
      exact ⟨fun _ => rfl, fun _ => rfl⟩
    · rw [update_of_ne heq] at hset' ⊢
      exact hother name' set heq hset'

theorem enable (h : Inv w) {set : Bool}
    (hfeasible : FeasibleScript w script)
    (hclean : w.installed name = some false → set = true → clean script = true) :
    Inv (w.enable name set script).1 := by
  cases hflag : w.installed name with
  | none =>
    rw [World.enable, hflag]
    exact h
  | some status =>
    have hsame (hset : set = status) : Inv (w.enable name set script).1 := by
      have henable : w.enable name set script = (w.persist name (some set), .ok) := by
        rw [World.enable, hflag, hset]
        cases status <;> rfl
      rw [henable]
      refine ⟨h.triggers.persist name (some set), ?_⟩
      show ∀ name' set', update w.installed name (some set) name' = some set' → _
      rw [hset, ← hflag, update_eq_self]
      exact h.flags
    cases status with
    | false =>
      cases set with
      | false => exact hsame rfl
      | true =>
        refine enable_set h.triggers (fun name' set' _ => h.flags name' set') hflag hfeasible
          (hclean hflag rfl) ?_
        intro _
        have hloaded := h.flags name false hflag
        rw [iff_false_right Bool.false_ne_true, Bool.not_eq_true, Option.isSome_eq_false_iff] at hloaded
        exact Option.isNone_iff_eq_none.mp hloaded
    | true =>
      cases set with
      | true => exact hsame rfl
      | false =>
        have henable : w.enable name false script =
            ((w.unload name).1.persist name (some false), .ok) := by
          rw [World.enable, hflag]
          rfl
        rw [henable]
        refine ⟨(h.triggers.unload name).persist name (some false), ?_⟩
        refine h.flags_update (some false) none ?_ (unload_loaded w name) ?_
        · show update (w.unload name).1.installed name (some false) = _
          rw [unload_installed]
        · intro set' hset'
          cases hset'
          exact Iff.rfl

theorem install (h : Inv w) {isFile copied enable : Bool}
    (hfeasible : FeasibleScript w script)
    (hsound : isFile → copied →
      (enable → clean script) ∧ (¬ (enable ∧ succeeds script) → w.loaded name = none)) :
    Inv (w.install name isFile copied enable script).1 := by
  rw [World.install]
  split
  · exact h
  · next hfile =>
    split
    · exact h
    · next hcopied =>
      obtain ⟨hclean, hfree⟩ := hsound (not_not.mp hfile) (not_not.mp hcopied)
      have hfeasible' := feasible_persist hfeasible name (some false)
      cases enable with
      | false =>
        have hnone : w.loaded name = none := hfree (fun hboth => by cases hboth.1)
        exact (h.persist (by decide) hnone).enable hfeasible' (fun _ heq => by cases heq)
      | true =>
        refine enable_set (h.triggers.persist name (some false)) ?_ (update_self ..)
          hfeasible' (hclean rfl) ?_
        · intro name' set hne hset
          have hset' : update w.installed name (some false) name' = some set := hset
          rw [update_of_ne hne] at hset'
          exact h.flags name' set hset'
        · intro hfails
          exact hfree (fun hboth => by rw [hfails] at hboth; cases hboth.2)

/-- The scripts loaded one after the other at the start. -/
theorem boot_loads {l : List (Name × List Setup)} (h : Triggers w [])
    (hfeasible : Along (fun w p => (w.load p.1 (some p.2)).1) (fun w p => Feasible w p.2) w l)
    (hclean : ∀ p ∈ l, clean (some p.2) = true) :
    let after := l.foldl (fun w p => (w.load p.1 (some p.2)).1) w
    Triggers after [] ∧ after.installed = w.installed ∧
      ∀ name, (after.loaded name).isSome ↔
        (w.loaded name).isSome ∨ ∃ p ∈ l, p.1 = name ∧ succeeds (some p.2) = true := by
  induction l generalizing w with
  | nil => exact ⟨h, rfl, fun name => by simp⟩
  | cons p l ih =>
    obtain ⟨hhead, htail⟩ := hfeasible
    have hrest : ∀ p ∈ l, clean (some p.2) = true := fun q hq => hclean q (List.mem_cons_of_mem _ hq)
    cases hsucceeds : succeeds (some p.2) with
    | false =>
      have hload := load_of_fails (hclean p (List.mem_cons_self ..)) hsucceeds w p.1
      have hw : (w.load p.1 (some p.2)).1 = w := by rw [hload]
      have htail' : Along (fun w p => (w.load p.1 (some p.2)).1) (fun w p => Feasible w p.2)
          (w.load p.1 (some p.2)).1 l := htail
      rw [hw] at htail'
      obtain ⟨htriggers, hinstalled, hloaded⟩ := ih h htail' hrest
      show Triggers (l.foldl _ (w.load p.1 (some p.2)).1) [] ∧
        (l.foldl _ (w.load p.1 (some p.2)).1).installed = _ ∧
        ∀ name, ((l.foldl _ (w.load p.1 (some p.2)).1).loaded name).isSome ↔ _
      rw [hw]
      refine ⟨htriggers, hinstalled, fun name => ?_⟩
      rw [hloaded name]
      simp [hsucceeds]
    | true =>
      obtain ⟨-, htriggers', hinstalled', env, hloaded'⟩ :=
        load_of_succeeds h hsucceeds hhead p.1
      obtain ⟨htriggers, hinstalled, hloaded⟩ := ih htriggers' htail hrest
      refine ⟨htriggers, hinstalled.trans hinstalled', fun name => ?_⟩
      show ((l.foldl _ (w.load p.1 (some p.2)).1).loaded name).isSome ↔ _
      rw [hloaded name, hloaded']
      by_cases heq : name = p.1
      · rw [heq, update_self]
        simp [hsucceeds]
      · rw [update_of_ne heq]
        simp [Ne.symm heq]

theorem triggers_restarted (w : World) : Triggers w.restarted [] where
  registered := by
    intro r
    constructor
    · intro hr
      cases r <;> exact absurd hr (Finset.notMem_empty _)
    · rintro (hnil | ⟨name, env, hname, -⟩)
      · cases hnil
      · cases hname
  apart := by
    intro name env r hname
    cases hname
  disjoint := by
    intro name name' env env' r hname
    cases hname

theorem boot {predefined enabled : List (Name × List Setup)}
    (he : Enabled w (.boot predefined enabled)) (hsound : Sound w (.boot predefined enabled)) :
    Inv (w.boot predefined enabled) := by
  obtain ⟨hnames, halong⟩ := he
  obtain ⟨hpredefined, henabled⟩ := hsound
  have hclean : ∀ p ∈ predefined ++ enabled, clean (some p.2) = true := by
    intro p hp
    rcases List.mem_append.mp hp with hp | hp
    · exact (hpredefined p hp).1
    · have hsucceeds : p.2.all (·.effect.success) = true := henabled p hp
      rw [clean, hsucceeds, Bool.true_or]
  obtain ⟨htriggers, hinstalled, hloaded⟩ := boot_loads (triggers_restarted w) halong hclean
  refine ⟨htriggers, ?_⟩
  intro name set hset
  have hset' : w.installed name = some set := by
    rw [← hset]
    exact (congrFun hinstalled name).symm
  rw [World.boot, hloaded name]
  constructor
  · rintro (hsome | ⟨p, hp, rfl, hsucceeds⟩)
    · cases hsome
    · rcases List.mem_append.mp hp with hp | hp
      · have hne := (hpredefined p hp).2 hsucceeds
        cases set with
        | false => exact absurd hset' hne
        | true => rfl
      · have htrue := (hnames p.1).mpr (List.mem_map_of_mem hp)
        rw [htrue] at hset'
        exact (Option.some.inj hset').symm
  · rintro rfl
    obtain ⟨p, hp, rfl⟩ := List.mem_map.mp ((hnames name).mp hset')
    exact .inr ⟨p, List.mem_append_right _ hp, rfl, henabled p hp⟩

theorem step (h : Inv w) {e : Event} (he : Enabled w e) (hsound : Sound w e) :
    Inv (step w e) := by
  cases e with
  | load name script => exact h.load he hsound.1 hsound.2
  | unload name => exact h.unload hsound
  | install name isFile copied enable script => exact h.install he hsound
  | uninstall name => exact h.uninstall name
  | enable name set script => exact h.enable he hsound
  | boot predefined enabled => exact boot he hsound

end Inv

/-! ## Failures -/

section Failures

variable {w : World}

theorem Unchanged.refl (w : World) : Unchanged w w := ⟨rfl, fun _ => Iff.rfl⟩

theorem Unchanged.persist (w : World) (name : Name) (flag : Option Bool) :
    Unchanged w (w.persist name flag) :=
  ⟨rfl, fun r => by cases r <;> exact Iff.rfl⟩

theorem load_unchanged (h : Triggers w []) {name : Name} {script : Script}
    (hfeasible : FeasibleScript w script) (hclean : clean script = true)
    (hfails : (w.load name script).2 ≠ .ok) : (w.load name script).1 = w := by
  cases hsucceeds : succeeds script with
  | false => rw [load_of_fails hclean hsucceeds]
  | true => exact absurd (load_of_succeeds h hsucceeds hfeasible name).1 hfails

/-- A script that cannot be enabled leaves the world as it is. -/
theorem enable_unchanged (h : Triggers w []) {name : Name} {set : Bool} {script : Script}
    (hfeasible : FeasibleScript w script)
    (hclean : w.installed name = some false → set = true → clean script = true)
    (hfails : (w.enable name set script).2 ≠ .ok) : (w.enable name set script).1 = w := by
  rw [World.enable] at hfails ⊢
  cases hflag : w.installed name with
  | none => rfl
  | some status =>
    rw [hflag] at hfails
    revert hfails
    dsimp only
    split
    · intro hfails
      exact absurd rfl hfails
    split
    · next hon =>
      split
      · intro hfails
        exact absurd rfl hfails
      · next hload =>
        intro _
        have hstatus : status = false := by simpa using hon.1
        exact load_unchanged h hfeasible (hclean (by rw [hflag, hstatus]) hon.2) hload
    · intro hfails
      exact absurd rfl hfails

theorem failed_unchanged (h : Inv w) {e : Event} (he : Enabled w e) (hsound : Sound w e)
    (hfails : (operation w e).2 ≠ .ok) : Unchanged w (operation w e).1 := by
  cases e with
  | load name script =>
    have hsame := load_unchanged h.triggers he hsound.1 hfails
    show Unchanged w (w.load name script).1
    rw [hsame]
    exact .refl w
  | unload name =>
    show Unchanged w (w.unload name).1
    have hfails' : (w.unload name).2 ≠ .ok := hfails
    rw [World.unload] at hfails' ⊢
    split
    · exact .refl w
    · next env henv =>
      rw [henv] at hfails'
      exact absurd rfl hfails'
  | install name isFile copied enable script =>
    show Unchanged w (w.install name isFile copied enable script).1
    have hfails' : (w.install name isFile copied enable script).2 ≠ .ok := hfails
    rw [World.install] at hfails' ⊢
    split
    · exact .refl w
    · next hfile =>
      rw [if_neg hfile] at hfails'
      split
      · exact .refl w
      · next hcopied =>
        rw [if_neg hcopied] at hfails'
        have hsame := enable_unchanged (h.triggers.persist name (some false))
          (feasible_persist he name (some false))
          (fun _ hset => (hsound (not_not.mp hfile) (not_not.mp hcopied)).1 hset) hfails'
        rw [hsame]
        exact .persist w name (some false)
  | uninstall name => exact absurd rfl hfails
  | enable name set script =>
    have hsame := enable_unchanged h.triggers he hsound hfails
    show Unchanged w (w.enable name set script).1
    rw [hsame]
    exact .refl w
  | boot predefined enabled => exact absurd rfl hfails

end Failures

/-! ## Runs -/

theorem inv_blank : Inv blank where
  triggers := Inv.triggers_restarted blank
  flags := by
    intro name set hset
    cases hset

/-- After any run whose operations meet their conditions, the scripts that run are those
enabled, what is registered is theirs, and an operation that fails changes neither. -/
theorem scripts_exact {w : World}
    (h : Runs step (fun w e => Enabled w e ∧ Sound w e) blank w) :
    Exact w ∧ ∀ e, Enabled w e → Sound w e → (operation w e).2 ≠ .ok →
      Unchanged w (operation w e).1 := by
  have hinv : Inv w := h.invariant (fun _ _ he hw => hw.step he.1 he.2) inv_blank
  exact ⟨hinv.exact, fun e he hsound hfails => failed_unchanged hinv he hsound hfails⟩

/-- A script is installed, replaced by another one, and disabled; one is loaded by hand. -/
theorem scripts_exact_replaced :
    let es : List Event := [
      .install "a" true true true (some [.onhold 0 1 .done, .onboot 0]),
      .install "a" true true true (some [.onperiod 2]),
      .load "b" (some [.onchange 3 .done]),
      .enable "a" false none]
    Exact (es.foldl step blank) := by
  intro es
  refine (scripts_exact (Along.runs ?_)).1
  refine ⟨⟨?_, ?_⟩, ⟨?_, ?_⟩, ⟨?_, ?_⟩, ⟨trivial, ?_⟩, trivial⟩
  · show Feasible _ _
    decide
  · exact fun _ _ => ⟨fun _ => rfl, fun _ => rfl⟩
  · show Feasible _ _
    decide
  · exact fun _ _ => ⟨fun _ => rfl, fun hnot => absurd ⟨rfl, rfl⟩ hnot⟩
  · show Feasible _ _
    decide
  · refine ⟨rfl, fun _ => ?_⟩
    decide
  · intro _ hset
    cases hset

/-- A running script is replaced by one that is not enabled: it goes on running, though the
flag of its name is false. -/
theorem replaced_script_runs :
    let es : List Event := [
      .install "a" true true true (some [.onperiod 0]),
      .install "a" true true false (some [])]
    Along step Enabled blank es ∧ (es.foldl step blank).installed "a" = some false ∧
      (es.foldl step blank).loaded "a" = some [.timer 0] ∧ ¬ Exact (es.foldl step blank) := by
  intro es
  have hinstalled : (es.foldl step blank).installed "a" = some false := by decide
  have hloaded : (es.foldl step blank).loaded "a" = some [.timer 0] := by decide
  refine ⟨⟨?_, ?_, trivial⟩, hinstalled, hloaded, ?_⟩
  · show Feasible _ _
    decide
  · show Feasible _ _
    decide
  · intro h
    have hflag := (h.flags "a" false hinstalled).mp (by rw [hloaded]; rfl)
    cases hflag

end Mihini.Monitoring
