import Mihini.Lib.Run
import Mathlib.Logic.Function.Basic

/-!
# The life of a task

`sched.run` and `sched.step`, and what `sched.kill` does to a task that has not started, is
ready, waits, runs or is dead.  What a signal finds in its queues, and the outcome of the code
of tasks and hooks, are inputs of the events.
-/

namespace Mihini.Sched.Life

open Mihini.Lib Function List

/-- `coroutine.status`; Lua calls the first two `"suspended"`. -/
inductive Status where
  | created
  | suspended
  | active
  | dead
  deriving DecidableEq

inductive Resumer where
  | step
  | kill
  deriving DecidableEq

inductive Frame where
  /-- The loop of `step`, with the thread it has just resumed. -/
  | step (resumed : Option Nat)
  /-- `kill`, past its call of `coroutine.resume`. -/
  | kill (x : Nat)
  /-- A call of `coroutine.resume`: the body of a task runs. -/
  | resume (r : Resumer) (thread : Nat)
  /-- `signal`, with the tasks it is to reschedule. -/
  | signal (wokenup : List Nat)
  | hook
  deriving DecidableEq

/-- The frame of a resumer when `coroutine.resume` has returned. -/
def Resumer.returned : Resumer → Nat → Frame
  | .step, t => .step (some t)
  | .kill, t => .kill t

structure World where
  ready : List Nat
  running : Option Nat
  threads : Nat
  status : Nat → Status
  cells : Nat → Option Nat
  fresh : Nat
  cell : Nat → Option Nat
  stack : List Frame
  killed : Nat → Bool
  /-- The threads of which a statement was executed after that. -/
  late : Nat → Bool
  dies : Nat → Nat

def init : World where
  ready := []
  running := none
  threads := 0
  status := fun _ => .created
  cells := fun _ => none
  fresh := 0
  cell := fun _ => none
  stack := []
  killed := fun _ => false
  late := fun _ => false
  dies := fun _ => 0

namespace World

def executes (s : World) : Prop :=
  match s.stack with
  | [] => True
  | .hook :: _ => True
  | .resume _ _ :: _ => True
  | _ => False

def body (s : World) : World :=
  match s.stack with
  | .resume _ t :: _ => { s with late := update s.late t (s.late t || s.killed t) }
  | _ => s

def run (s : World) : World :=
  { s with
    ready := s.ready ++ [s.threads]
    threads := s.threads + 1
    status := update s.status s.threads .created }

def signal (s : World) : World := { s with stack := .signal [] :: s.stack }

def emitDie (s : World) (t : Nat) : World :=
  signal { s with dies := update s.dies t (s.dies t + 1) }

/-- `registered` is false for a call without emitter or with 0. -/
def wait (s : World) (registered : Bool) : World :=
  match s.running with
  | none => s -- the call raises an error
  | some current =>
    let cells := if registered then update s.cells s.fresh (some current) else s.cells
    let ready := if registered then s.ready else s.ready ++ [current]
    let s' := { s with cells := cells, ready := ready, fresh := s.fresh + 1, running := none }
    match s.stack with
    | .resume r t :: fs =>
      { s' with
        status := update s.status t .suspended
        cell := update s.cell t (some s.fresh)
        stack := r.returned t :: fs }
    | _ => s' -- a hook cannot yield: an error is raised here

def finish (s : World) : World :=
  match s.stack with
  | .resume r t :: fs =>
    { s with status := update s.status t .dead, stack := r.returned t :: fs }
  | .hook :: fs => { s with stack := fs }
  | _ => s

/-- `caught` tells whether the code that gets the error `KILL_TOKEN` catches it. -/
def kill (s : World) (x : Nat) (caught : Bool) : World :=
  let s := { s with killed := update s.killed x true }
  if s.running = some x then
    if caught then s else s.finish
  else
    match s.status x with
    | .created =>
      { s with status := update s.status x .active, stack := .resume .kill x :: s.stack }
    | .suspended =>
      let cells := match s.cell x with
        | some c => update s.cells c none
        | none => s.cells
      if caught then
        { s with
          cells := cells
          status := update s.status x .active
          stack := .resume .kill x :: s.stack }
      else
        { s with
          cells := cells
          status := update s.status x .dead
          stack := .kill x :: s.stack }
    -- `coroutine.resume` fails
    | .active => { s with stack := .kill x :: s.stack }
    | .dead => { s with stack := .kill x :: s.stack }

def step (s : World) : World :=
  if s.running.isSome then s else { s with stack := .step none :: s.stack }

def expire (s : World) (c : Nat) : World :=
  match s.cells c with
  | some t => { s with ready := s.ready ++ [t], cells := update s.cells c none }
  | none => s

def runcell (s : World) (c : Nat) : World :=
  match s.stack, s.cells c with
  | .signal wokenup :: fs, some t =>
    { s with
      cells := update s.cells c none
      stack := .signal (wokenup ++ [t]) :: fs }
  | _, _ => s

def runHook (s : World) : World :=
  match s.stack with
  | .signal _ :: _ => { s with stack := .hook :: s.stack }
  | _ => s

def advance (s : World) : World :=
  match s.stack with
  | .signal wokenup :: fs => { s with ready := s.ready ++ wokenup, stack := fs }
  | .kill x :: fs => { s with stack := fs }.emitDie x
  | .step (some t) :: fs =>
    if s.status t = .dead then { s with stack := .step none :: fs }.emitDie t
    else { s with stack := .step none :: fs }
  | .step none :: fs =>
    match s.ready with
    | [] => { s with running := none, stack := fs }
    | t :: ts =>
      let s := { s with ready := ts, running := some t }
      match s.status t with
      | .created =>
        { s with status := update s.status t .active, stack := .resume .step t :: fs }
      | .suspended =>
        { s with status := update s.status t .active, stack := .resume .step t :: fs }
      -- `coroutine.resume` fails
      | .active => { s with stack := .step (some t) :: fs }
      | .dead => { s with stack := .step (some t) :: fs }
  | _ => s

end World

inductive Event where
  | exec
  | run
  | signal
  | wait (registered : Bool)
  | kill (x : Nat) (caught : Bool)
  | step
  | expire (c : Nat)
  | finish
  | runcell (c : Nat)
  | runHook
  | advance

def step (s : World) : Event → World
  | .exec => s.body
  | .run => s.body.run
  | .signal => s.body.signal
  | .wait registered => s.body.wait registered
  | .kill x caught => s.body.kill x caught
  | .step => s.body.step
  | .expire c => s.body.expire c
  | .finish => s.finish
  | .runcell c => s.runcell c
  | .runHook => s.runHook
  | .advance => s.advance

/-- The code that has the control does it; `kill` is called on a thread that exists. -/
def Enabled (s : World) : Event → Prop
  | .kill x _ => s.executes ∧ x < s.threads
  | .finish => s.executes
  | .runcell _ => True
  | .runHook => True
  | .advance => True
  | _ => s.executes

def World.waits (s : World) (x : Nat) : Prop :=
  s.status x = .suspended ∧ ∃ c, s.cell x = some c ∧ s.cells c = some x

/-- `kill` is applied to a task that waits or, by the task itself, to the running one, which
does not catch the error; and a hook does not call `wait`. -/
def KillSafe (s : World) : Event → Prop
  | .kill x caught => caught = false ∧
      (s.waits x ∨ s.running = some x ∧ ∃ r, s.stack.head? = some (.resume r x))
  | .wait _ => s.stack.head? = some .hook → s.running = none
  | _ => True

/-! ## The stack -/

def Frame.loops : Frame → Bool
  | .step _ => true
  | .resume .step _ => true
  | _ => false

/-- The frame is a call whose code is not that of a task, nor the loop of `step`. -/
def Frame.calls : Frame → Bool
  | .kill _ => true
  | .signal _ => true
  | .hook => true
  | _ => false

def World.Outside (s : World) : Prop := ∀ o, s.stack.head? ≠ some (.step o)

structure StackInv (s : World) : Prop where
  oneLoop : s.stack.countP Frame.loops ≤ 1
  resumed : ∀ t, .resume .step t ∈ s.stack → s.running = some t ∧ s.status t = .active
  notByKill : ∀ t, .resume .kill t ∉ s.stack
  returned : ∀ t, .step (some t) ∉ s.stack.tail
  ended : ∀ t, .step (some t) ∈ s.stack → s.status t = .dead → s.running ≠ none
  busy : .step none ∈ s.stack.tail → s.running ≠ none
  active : ∀ t, s.status t = .active → .resume .step t ∈ s.stack
  begun : ∀ t, s.running = some t → s.status t = .active ∨ s.status t = .dead
  idle : s.stack.countP Frame.loops = 0 → s.running = none

section Stack

variable {s s' : World} {f g : Frame} {fs : List Frame}

theorem outside_of_executes (h : s.executes) : s.Outside := by
  intro o ho
  unfold World.executes at h
  cases hs : s.stack with
  | nil =>
    rw [hs] at ho
    cases ho
  | cons f fs =>
    rw [hs] at ho h
    cases ho
    exact h

theorem Frame.loops_of_calls (h : f.calls = true) : f.loops = false := by
  cases f with
  | step o => cases h
  | resume r t => cases h
  | kill x => rfl
  | signal w => rfl
  | hook => rfl

theorem mem_of_calls (hg : g.calls = true) (hf : f.calls = false) (h : f ∈ g :: fs) :
    f ∈ fs := by
  rcases mem_cons.mp h with rfl | h
  · rw [hg] at hf
    cases hf
  · exact h

variable {o : Option Nat}

theorem step_mem_tail (ho : s.Outside) (h : .step o ∈ s.stack) :
    .step o ∈ s.stack.tail := by
  cases hs : s.stack with
  | nil =>
    rw [hs] at h
    cases h
  | cons g gs =>
    rw [hs] at h
    rcases mem_cons.mp h with rfl | h
    · exact absurd (by rw [hs]; rfl) (ho o)
    · exact h

/-- Code that is not the loop of `step` runs above a loop only for a running task. -/
theorem StackInv.running (h : StackInv s) (ho : s.Outside) (hf : f ∈ s.stack)
    (hl : f.loops = true) : s.running ≠ none := by
  cases f with
  | step o =>
    cases o with
    | none => exact h.busy (step_mem_tail ho hf)
    | some t => exact absurd (step_mem_tail ho hf) (h.returned t)
  | resume r t =>
    cases r with
    | step =>
      rw [(h.resumed t hf).1]
      simp
    | kill => cases hl
  | kill x => cases hl
  | signal w => cases hl
  | hook => cases hl

/-- A call begins: a loop of `step` below it is one in which a task runs. -/
theorem StackInv.call (h : StackInv s) (hreturned : ∀ t, .step (some t) ∉ s.stack)
    (hbusy : .step none ∈ s.stack → s.running ≠ none) (hf : f.calls = true)
    (hstack : s'.stack = f :: s.stack) (hrunning : s'.running = s.running)
    (hactive : ∀ t, s'.status t = .active ↔ s.status t = .active)
    (hdead : ∀ t, s.status t = .dead → s'.status t = .dead) : StackInv s' := by
  constructor
  · rw [hstack, countP_cons, Frame.loops_of_calls hf]
    exact h.oneLoop
  · intro t ht
    rw [hstack] at ht
    rw [hrunning, hactive]
    exact h.resumed t (mem_of_calls hf rfl ht)
  · intro t ht
    rw [hstack] at ht
    exact h.notByKill t (mem_of_calls hf rfl ht)
  · rw [hstack]
    exact hreturned
  · intro t ht
    rw [hstack] at ht
    exact absurd (mem_of_calls hf rfl ht) (hreturned t)
  · rw [hstack, hrunning]
    exact hbusy
  · intro t ht
    rw [hstack]
    exact mem_cons_of_mem _ (h.active t ((hactive t).mp ht))
  · intro t ht
    rw [hrunning] at ht
    exact (h.begun t ht).imp (hactive t).mpr (hdead t)
  · rw [hstack, countP_cons, Frame.loops_of_calls hf, hrunning]
    exact h.idle

/-- Code outside the loop of `step` calls. -/
theorem StackInv.push (h : StackInv s) (ho : s.Outside) (hf : f.calls = true)
    (hstack : s'.stack = f :: s.stack) (hrunning : s'.running = s.running)
    (hactive : ∀ t, s'.status t = .active ↔ s.status t = .active)
    (hdead : ∀ t, s.status t = .dead → s'.status t = .dead) : StackInv s' :=
  h.call (fun t ht => h.returned t (step_mem_tail ho ht)) (fun ht => h.busy (step_mem_tail ho ht))
    hf hstack hrunning hactive hdead

theorem StackInv.pop (h : StackInv s) (hs : s.stack = f :: fs) (hf : f.calls = true)
    (hstack : s'.stack = fs) (hrunning : s'.running = s.running)
    (hstatus : s'.status = s.status) : StackInv s' := by
  obtain ⟨h1, h2, h3, h4, h5, h6, h7, h8, h9⟩ := h
  rw [hs] at h1 h2 h3 h4 h5 h6 h7 h9
  constructor
  · rw [hstack]
    rw [countP_cons, Frame.loops_of_calls hf] at h1
    exact h1
  · intro t ht
    rw [hstack] at ht
    rw [hrunning, hstatus]
    exact h2 t (mem_cons_of_mem _ ht)
  · intro t ht
    rw [hstack] at ht
    exact h3 t (mem_cons_of_mem _ ht)
  · intro t ht
    rw [hstack] at ht
    exact h4 t (mem_of_mem_tail ht)
  · intro t ht
    rw [hstack] at ht
    exact absurd ht (h4 t)
  · intro ht
    rw [hstack] at ht
    rw [hrunning]
    exact h6 (mem_of_mem_tail ht)
  · intro t ht
    rw [hstack]
    rw [hstatus] at ht
    exact mem_of_calls hf rfl (h7 t ht)
  · rw [hrunning, hstatus]
    exact h8
  · rw [hstack, hrunning]
    rw [countP_cons, Frame.loops_of_calls hf] at h9
    exact h9

theorem StackInv.swap (h : StackInv s) (hs : s.stack = f :: fs) (hf : f.calls = true)
    (hg : g.calls = true) (hstack : s'.stack = g :: fs) (hrunning : s'.running = s.running)
    (hstatus : s'.status = s.status) : StackInv s' := by
  have hpop : StackInv { s with stack := fs } := h.pop hs hf rfl rfl rfl
  have hreturned := h.returned
  have hbusy := h.busy
  rw [hs] at hreturned hbusy
  apply hpop.call hreturned hbusy hg hstack hrunning
  · intro t
    rw [hstatus]
  · intro t ht
    rw [hstatus]
    exact ht

theorem StackInv.below (h : StackInv s) (hs : s.stack = f :: fs) (hf : f.loops = true) :
    fs.countP Frame.loops = 0 := by
  have hone := h.oneLoop
  rw [hs, countP_cons, if_pos hf] at hone
  omega

theorem not_mem_of_countP (h : fs.countP Frame.loops = 0) (hf : f.loops = true) : f ∉ fs := by
  intro hmem
  have := countP_eq_zero.mp h f hmem
  exact this hf

theorem eq_of_loops (h : fs.countP Frame.loops = 0) (hg : g.loops = true) (hmem : g ∈ f :: fs) :
    g = f :=
  (mem_cons.mp hmem).resolve_right (not_mem_of_countP h hg)

/-- The loop of `step` is the last call: a thread is active if it is the one resumed. -/
theorem StackInv.top (hbelow : fs.countP Frame.loops = 0) (hnot : ∀ t, .resume .kill t ∉ fs)
    (hf : f.loops = true) (hstack : s'.stack = f :: fs)
    (hresumed : ∀ t, f = .resume .step t → s'.running = some t)
    (hended : ∀ t, f = .step (some t) → s'.status t = .dead → s'.running ≠ none)
    (hactive : ∀ t, s'.status t = .active ↔ f = .resume .step t)
    (hbegun : ∀ t, s'.running = some t → s'.status t = .active ∨ s'.status t = .dead) :
    StackInv s' := by
  constructor
  · rw [hstack, countP_cons, hbelow, if_pos hf] <;> omega
  · intro t ht
    rw [hstack] at ht
    have heq := (eq_of_loops hbelow rfl ht).symm
    exact ⟨hresumed t heq, (hactive t).mpr heq⟩
  · intro t ht
    rw [hstack] at ht
    rcases mem_cons.mp ht with rfl | h1
    · cases hf
    · exact hnot t h1
  · intro t ht
    rw [hstack] at ht
    exact not_mem_of_countP hbelow rfl ht
  · intro t ht
    rw [hstack] at ht
    exact hended t (eq_of_loops hbelow rfl ht).symm
  · intro ht
    rw [hstack] at ht
    exact absurd ht (not_mem_of_countP hbelow rfl)
  · intro t ht
    rw [hstack, (hactive t).mp ht]
    exact mem_cons_self
  · exact hbegun
  · rw [hstack, countP_cons, if_pos hf]
    intro hzero
    omega

theorem StackInv.notBelow (h : StackInv s) (hs : s.stack = f :: fs) (t : Nat) :
    .resume .kill t ∉ fs :=
  fun hmem => h.notByKill t (hs ▸ mem_cons_of_mem _ hmem)

variable {t : Nat}

theorem StackInv.eq_of_active (h : StackInv s) (hs : s.stack = f :: fs) (hf : f.loops = true)
    (ht : s.status t = .active) : .resume .step t = f :=
  eq_of_loops (h.below hs hf) rfl (hs ▸ h.active t ht)

theorem StackInv.yield (h : StackInv s) (hs : s.stack = .resume .step t :: fs)
    {status : Status} (hne : status ≠ .active)
    (hstack : s'.stack = .step (some t) :: fs)
    (hrunning : s'.running = none ∧ status ≠ .dead ∨ s'.running = some t ∧ status = .dead)
    (hstatus : s'.status = update s.status t status) : StackInv s' := by
  apply StackInv.top (h.below hs rfl) (h.notBelow hs) rfl hstack
  · intro t' ht'
    cases ht'
  · intro t' ht' hdead
    cases ht'
    rw [hstatus, update_self] at hdead
    rcases hrunning with ⟨-, hne'⟩ | ⟨hrun, -⟩
    · exact absurd hdead hne'
    · rw [hrun]
      simp
  · intro t'
    constructor
    · intro ht'
      rw [hstatus] at ht'
      by_cases heq : t' = t
      · subst heq
        rw [update_self] at ht'
        exact absurd ht' hne
      · rw [update_of_ne heq] at ht'
        cases h.eq_of_active hs rfl ht'
        exact absurd rfl heq
    · intro ht'
      cases ht'
  · intro t' ht'
    rcases hrunning with ⟨hrun, -⟩ | ⟨hrun, hd⟩
    · rw [hrun] at ht'
      cases ht'
    · rw [hrun] at ht'
      cases ht'
      rw [hstatus, update_self]
      exact Or.inr hd

/-- `step` goes on, with no thread resumed. -/
theorem StackInv.loop (hbelow : fs.countP Frame.loops = 0) (hnot : ∀ t, .resume .kill t ∉ fs)
    (hactive : ∀ t, s'.status t ≠ .active) (hstack : s'.stack = .step none :: fs)
    (hbegun : ∀ t, s'.running = some t → s'.status t = .active ∨ s'.status t = .dead) :
    StackInv s' := by
  apply StackInv.top hbelow hnot rfl hstack
  · intro t ht
    cases ht
  · intro t ht
    cases ht
  · intro t
    exact ⟨fun ht => absurd ht (hactive t), nofun⟩
  · exact hbegun

theorem StackInv.next (h : StackInv s) (hs : s.stack = .step o :: fs)
    (hstack : s'.stack = .step none :: fs) (hrunning : s'.running = s.running)
    (hstatus : s'.status = s.status) : StackInv s' := by
  apply StackInv.loop (h.below hs rfl) (h.notBelow hs) ?_ hstack
  · rw [hrunning, hstatus]
    exact h.begun
  · intro t ht
    rw [hstatus] at ht
    cases h.eq_of_active hs rfl ht

theorem StackInv.die (h : StackInv s) (hs : s.stack = .step (some t) :: fs)
    (hdead : s.status t = .dead) (hstack : s'.stack = .signal [] :: .step none :: fs)
    (hrunning : s'.running = s.running) (hstatus : s'.status = s.status) : StackInv s' := by
  have hrun : s.running ≠ none := h.ended t (hs ▸ mem_cons_self) hdead
  have hnext : StackInv { s with stack := .step none :: fs } := h.next hs rfl rfl rfl
  apply hnext.call ?_ (fun _ => hrun) rfl hstack hrunning
  · intro t
    rw [hstatus]
  · intro t ht
    rw [hstatus]
    exact ht
  · intro t ht
    cases eq_of_loops (h.below hs rfl) rfl ht

theorem StackInv.leave (h : StackInv s) (hs : s.stack = .step o :: fs)
    (hstack : s'.stack = fs) (hrunning : s'.running = none) (hstatus : s'.status = s.status) :
    StackInv s' := by
  have hbelow := h.below hs rfl
  constructor
  · rw [hstack, hbelow]
    exact Nat.zero_le _
  · intro t ht
    rw [hstack] at ht
    exact absurd ht (not_mem_of_countP hbelow rfl)
  · intro t ht
    rw [hstack] at ht
    exact h.notByKill t (hs ▸ mem_cons_of_mem _ ht)
  · intro t ht
    rw [hstack] at ht
    exact not_mem_of_countP hbelow rfl (mem_of_mem_tail ht)
  · intro t ht
    rw [hstack] at ht
    exact absurd ht (not_mem_of_countP hbelow rfl)
  · intro ht
    rw [hstack] at ht
    exact absurd (mem_of_mem_tail ht) (not_mem_of_countP hbelow rfl)
  · intro t ht
    rw [hstatus] at ht
    have := h.active t ht
    rw [hs] at this
    rcases mem_cons.mp this with h1 | h1
    · cases h1
    · exact absurd h1 (not_mem_of_countP hbelow rfl)
  · intro t ht
    rw [hrunning] at ht
    cases ht
  · intro _
    exact hrunning

theorem StackInv.resume (h : StackInv s) (hs : s.stack = .step none :: fs)
    (hstack : s'.stack = .resume .step t :: fs) (hrunning : s'.running = some t)
    (hstatus : s'.status = update s.status t .active) : StackInv s' := by
  apply StackInv.top (h.below hs rfl) (h.notBelow hs) rfl hstack
  · intro t' ht'
    cases ht'
    exact hrunning
  · intro t' ht'
    cases ht'
  · intro t'
    rw [hstatus]
    by_cases heq : t' = t
    · subst heq
      simp
    rw [update_of_ne heq]
    constructor
    · intro ht'
      cases h.eq_of_active hs rfl ht'
    · intro ht'
      cases ht'
      exact absurd rfl heq
  · intro t' ht'
    rw [hrunning] at ht'
    cases ht'
    rw [hstatus, update_self]
    exact Or.inl rfl

theorem StackInv.enter (h : StackInv s) (ho : s.Outside) (hrun : s.running = none)
    (hstack : s'.stack = .step none :: s.stack) (hrunning : s'.running = s.running)
    (hstatus : s'.status = s.status) : StackInv s' := by
  have hbelow : s.stack.countP Frame.loops = 0 := by
    rw [countP_eq_zero]
    intro f hf hl
    exact h.running ho hf hl hrun
  apply StackInv.loop hbelow h.notByKill ?_ hstack
  · rw [hrunning, hstatus]
    exact h.begun
  · intro t ht
    rw [hstatus] at ht
    exact not_mem_of_countP hbelow rfl (h.active t ht)

end Stack

/-! ## The signals `'die'` -/

def owed (stack : List Frame) (t : Nat) : Nat :=
  stack.count (.step (some t)) + stack.count (.kill t)

structure DieInv (s : World) : Prop where
  dead : ∀ t, s.status t = .dead → s.dies t + owed s.stack t = 1
  alive : ∀ t, s.status t ≠ .dead → s.dies t = 0 ∧ .kill t ∉ s.stack
  killed : ∀ t, s.killed t = true → s.status t = .dead
  late : ∀ t, s.late t = false

section Die

variable {s s' : World} {f : Frame} {fs : List Frame} {t : Nat}

theorem owed_cons_of_ne (hstep : f ≠ .step (some t)) (hkill : f ≠ .kill t) :
    owed (f :: fs) t = owed fs t := by
  simp only [owed]
  rw [count_cons_of_ne hstep, count_cons_of_ne hkill]

theorem owed_step (fs : List Frame) (t : Nat) : owed (.step (some t) :: fs) t = owed fs t + 1 := by
  simp only [owed]
  rw [count_cons_self, count_cons_of_ne (by simp)]
  omega

theorem owed_kill (fs : List Frame) (t : Nat) : owed (.kill t :: fs) t = owed fs t + 1 := by
  simp only [owed]
  rw [count_cons_self, count_cons_of_ne (by simp)]
  omega

theorem DieInv.move (h : DieInv s) (hstatus : ∀ t, s'.status t = .dead ↔ s.status t = .dead)
    (hsum : ∀ t, s.status t = .dead →
      s'.dies t + owed s'.stack t = s.dies t + owed s.stack t)
    (halive : ∀ t, s.status t ≠ .dead → s'.dies t = s.dies t)
    (hkill : ∀ t, .kill t ∈ s'.stack → .kill t ∈ s.stack)
    (hkilled : s'.killed = s.killed) (hlate : s'.late = s.late) : DieInv s' := by
  constructor
  · intro t ht
    have hd := (hstatus t).mp ht
    rw [hsum t hd]
    exact h.dead t hd
  · intro t ht
    have hd : s.status t ≠ .dead := fun hd => ht ((hstatus t).mpr hd)
    obtain ⟨h1, h2⟩ := h.alive t hd
    exact ⟨by rw [halive t hd, h1], fun hmem => h2 (hkill t hmem)⟩
  · intro t ht
    rw [hkilled] at ht
    exact (hstatus t).mpr (h.killed t ht)
  · rw [hlate]
    exact h.late

/-- A thread dies, and one call is to signal it. -/
theorem DieInv.dies (h : DieInv s) (ht : s.status t ≠ .dead)
    (hstatus : s'.status = update s.status t .dead) (hdies : s'.dies = s.dies)
    (howed : owed s'.stack t = 1) (hothers : ∀ t', t' ≠ t → owed s'.stack t' = owed s.stack t')
    (hkill : ∀ t', t' ≠ t → .kill t' ∈ s'.stack → .kill t' ∈ s.stack)
    (hkilled : ∀ t', t' ≠ t → s'.killed t' = s.killed t') (hlate : s'.late = s.late) :
    DieInv s' := by
  have hself : s'.status t = .dead := by rw [hstatus, update_self]
  have hother : ∀ t', t' ≠ t → s'.status t' = s.status t' := by
    intro t' hne
    rw [hstatus, update_of_ne hne]
  constructor
  · intro t' hd
    rw [hdies]
    by_cases heq : t' = t
    · subst heq
      rw [(h.alive t' ht).1, howed]
    · rw [hother t' heq] at hd
      rw [hothers t' heq]
      exact h.dead t' hd
  · intro t' hd
    have heq : t' ≠ t := by
      rintro rfl
      exact hd hself
    rw [hother t' heq] at hd
    obtain ⟨h1, h2⟩ := h.alive t' hd
    exact ⟨by rw [hdies, h1], fun hmem => h2 (hkill t' heq hmem)⟩
  · intro t' hk
    by_cases heq : t' = t
    · rw [heq, hself]
    · rw [hkilled t' heq] at hk
      rw [hother t' heq]
      exact h.killed t' hk
  · rw [hlate]
    exact h.late

end Die

/-! ## Ready and waiting threads -/

def Frame.wokenup : Frame → List Nat
  | .signal wokenup => wokenup
  | _ => []

/-- The threads that are ready, or are so when the calls of `signal` have returned. -/
def World.queued (s : World) : List Nat := s.ready ++ s.stack.flatMap Frame.wokenup

structure QueueInv (s : World) : Prop where
  unborn : ∀ t, s.threads ≤ t → s.status t = .created
  nodup : s.queued.Nodup
  queued : ∀ t ∈ s.queued, t < s.threads ∧ (s.status t = .created ∨ s.status t = .suspended)
  cells : ∀ c t, s.cells c = some t →
    c < s.fresh ∧ s.status t = .suspended ∧ s.cell t = some c ∧ t ∉ s.queued

section Queue

variable {s s' : World} {t : Nat}

theorem QueueInv.congr (h : QueueInv s) (hthreads : s'.threads = s.threads)
    (hstatus : s'.status = s.status) (hqueued : s'.queued = s.queued)
    (hcells : s'.cells = s.cells) (hfresh : s'.fresh = s.fresh) (hcell : s'.cell = s.cell) :
    QueueInv s' := by
  constructor
  · rw [hthreads, hstatus]
    exact h.unborn
  · rw [hqueued]
    exact h.nodup
  · rw [hqueued, hthreads, hstatus]
    exact h.queued
  · rw [hcells, hfresh, hstatus, hcell, hqueued]
    exact h.cells

theorem QueueInv.setStatus (h : QueueInv s) (ht : t < s.threads) (hq : t ∉ s.queued)
    (hc : ∀ c, s'.cells c ≠ some t) {status : Status}
    (hstatus : s'.status = update s.status t status)
    (hthreads : s'.threads = s.threads) (hqueued : s'.queued = s.queued)
    (hcells : ∀ c t', s'.cells c = some t' → s.cells c = some t')
    (hfresh : s'.fresh = s.fresh) (hcell : s'.cell = s.cell) : QueueInv s' := by
  have hother : ∀ t', t' ≠ t → s'.status t' = s.status t' := by
    intro t' hne
    rw [hstatus, update_of_ne hne]
  constructor
  · intro t' hle
    rw [hthreads] at hle
    rw [hother t' (by omega)]
    exact h.unborn t' hle
  · rw [hqueued]
    exact h.nodup
  · intro t' hmem
    rw [hqueued] at hmem
    have hne : t' ≠ t := by
      rintro rfl
      exact hq hmem
    rw [hthreads, hother t' hne]
    exact h.queued t' hmem
  · intro c t' hct
    have hne : t' ≠ t := by
      rintro rfl
      exact hc c hct
    rw [hfresh, hother t' hne, hcell, hqueued]
    exact h.cells c t' (hcells c t' hct)

theorem QueueInv.enqueue (h : QueueInv s) (hq : t ∉ s.queued) (ht : t < s'.threads)
    (hstatus : ∀ t', t' ≠ t → s'.status t' = s.status t')
    (hself : s'.status t = .created ∨ s'.status t = .suspended)
    (hperm : s'.queued.Perm (t :: s.queued)) (hle : s.threads ≤ s'.threads)
    (hc : ∀ c, s'.cells c ≠ some t) (hcells : ∀ c t', s'.cells c = some t' → s.cells c = some t')
    (hfresh : s.fresh ≤ s'.fresh) (hcell : ∀ t', t' ≠ t → s'.cell t' = s.cell t') :
    QueueInv s' := by
  constructor
  · intro t' hle'
    rw [hstatus t' (by omega)]
    exact h.unborn t' (Nat.le_trans hle hle')
  · rw [hperm.nodup_iff]
    exact nodup_cons.mpr ⟨hq, h.nodup⟩
  · intro t' hmem
    rcases mem_cons.mp (hperm.mem_iff.mp hmem) with rfl | hmem
    · exact ⟨ht, hself⟩
    · have hne : t' ≠ t := by
        rintro rfl
        exact hq hmem
      obtain ⟨h1, h2⟩ := h.queued t' hmem
      rw [hstatus t' hne]
      exact ⟨by omega, h2⟩
  · intro c t' hct
    have hne : t' ≠ t := by
      rintro rfl
      exact hc c hct
    obtain ⟨h1, h2, h3, h4⟩ := h.cells c t' (hcells c t' hct)
    refine ⟨by omega, ?_, ?_, ?_⟩
    · rw [hstatus t' hne, h2]
    · rw [hcell t' hne, h3]
    · intro hmem
      rcases mem_cons.mp (hperm.mem_iff.mp hmem) with heq | hmem
      · exact hne heq
      · exact h4 hmem

theorem QueueInv.emptied (h : QueueInv s) {c : Nat} (hc : s.cells c = some t) (c' : Nat) :
    update s.cells c none c' ≠ some t := by
  by_cases heq : c' = c
  · subst heq
    rw [update_self]
    simp
  rw [update_of_ne heq]
  intro hc'
  have h1 := (h.cells c t hc).2.2.1
  have h2 := (h.cells c' t hc').2.2.1
  rw [h1] at h2
  cases h2
  exact heq rfl

theorem of_emptied {c c' : Nat} (h : update s.cells c none c' = some t) :
    s.cells c' = some t := by
  by_cases heq : c' = c
  · subst heq
    rw [update_self] at h
    cases h
  · rwa [update_of_ne heq] at h

end Queue

/-! ## Steps -/

structure Sound (s : World) : Prop where
  stack : StackInv s
  die : DieInv s
  queue : QueueInv s

theorem sound_init : Sound init where
  stack := by
    constructor
    · decide
    · intro t h
      cases h
    · intro t h
      cases h
    · intro t h
      cases h
    · intro t h
      cases h
    · intro h
      cases h
    · intro t h
      cases h
    · intro t h
      cases h
    · intro _
      rfl
  die := by
    constructor
    · intro t h
      cases h
    · intro t _
      exact ⟨rfl, by intro h; cases h⟩
    · intro t h
      cases h
    · intro t
      rfl
  queue := by
    constructor
    · intro t _
      rfl
    · exact nodup_nil
    · intro t h
      cases h
    · intro c t h
      cases h

section Steps

variable {s : World}

variable {t : Nat}

theorem Sound.alive_of_resumed (h : Sound s) (hmem : .resume .step t ∈ s.stack) :
    s.status t = .active := (h.stack.resumed t hmem).2

theorem Sound.body (h : Sound s) : s.body = s := by
  unfold World.body
  split
  · rename_i r t fs hstack
    cases r with
    | kill => exact absurd (hstack ▸ mem_cons_self) (h.stack.notByKill t)
    | step =>
      have hact : s.status t = .active := h.alive_of_resumed (hstack ▸ mem_cons_self)
      have hk : s.killed t = false := by
        by_contra hk
        have := h.die.killed t (by simpa using hk)
        rw [hact] at this
        cases this
      have heq : update s.late t (s.late t || s.killed t) = s.late := by
        rw [hk, Bool.or_false, update_eq_self]
      rw [heq]
  · rfl

theorem Sound.active_apart (h : Sound s) (ht : s.status t = .active) :
    t < s.threads ∧ t ∉ s.queued ∧ ∀ c, s.cells c ≠ some t := by
  refine ⟨?_, ?_, ?_⟩
  · by_contra hge
    have := h.queue.unborn t (Nat.le_of_not_lt hge)
    rw [ht] at this
    cases this
  · intro hmem
    rcases (h.queue.queued t hmem).2 with h1 | h1
    · rw [ht] at h1
      cases h1
    · rw [ht] at h1
      cases h1
  · intro c hc
    have := (h.queue.cells c t hc).2.1
    rw [ht] at this
    cases this

theorem Sound.push (h : Sound s) (ho : s.Outside) {f : Frame} (hf : f = .signal [] ∨ f = .hook) :
    Sound { s with stack := f :: s.stack } := by
  have hne : ∀ t, f ≠ .step (some t) ∧ f ≠ .kill t := by
    intro t
    rcases hf with rfl | rfl
    · simp
    · simp
  refine ⟨h.stack.push ho ?_ rfl rfl (fun _ => Iff.rfl) (fun _ hd => hd), ?_, ?_⟩
  · rcases hf with rfl | rfl
    · rfl
    · rfl
  · refine h.die.move (fun _ => Iff.rfl) ?_ (fun _ _ => rfl) ?_ rfl rfl
    · intro t _
      rw [owed_cons_of_ne (hne t).1 (hne t).2]
    · intro t ht
      exact (mem_cons.mp ht).resolve_left (hne t).2.symm
  · refine h.queue.congr rfl rfl ?_ rfl rfl rfl
    rcases hf with rfl | rfl
    · rfl
    · rfl

theorem Sound.run (h : Sound s) : Sound s.run := by
  have hcreated : s.status s.threads = .created := h.queue.unborn _ (Nat.le_refl _)
  have hstatus : s.run.status = s.status := by
    show update s.status s.threads .created = s.status
    rw [← hcreated, update_eq_self]
  refine ⟨?_, ?_, ?_⟩
  · obtain ⟨h1, h2, h3, h4, h5, h6, h7, h8, h9⟩ := h.stack
    rw [← hstatus] at h2 h5 h7 h8
    exact ⟨h1, h2, h3, h4, h5, h6, h7, h8, h9⟩
  · exact h.die.move (fun t => by rw [hstatus]) (fun _ _ => rfl) (fun _ _ => rfl)
      (fun _ ht => ht) rfl rfl
  · refine h.queue.enqueue (t := s.threads) ?_ (Nat.lt_succ_self _) ?_ ?_ ?_ (Nat.le_succ _) ?_
      (fun _ _ hc => hc) (Nat.le_refl _) (fun _ _ => rfl)
    · intro hmem
      exact absurd (h.queue.queued _ hmem).1 (Nat.lt_irrefl _)
    · intro t' _
      rw [hstatus]
    · rw [hstatus]
      exact Or.inl hcreated
    · simp only [World.queued, World.run, append_assoc]
      exact perm_middle
    · intro c hc
      have := (h.queue.cells c _ hc).2.1
      rw [hcreated] at this
      cases this

variable {fs : List Frame}

theorem wait_of_resumed (hstack : s.stack = .resume .step t :: fs)
    (hrun : s.running = some t) (registered : Bool) :
    s.wait registered = { s with
      cells := if registered then update s.cells s.fresh (some t) else s.cells
      ready := if registered then s.ready else s.ready ++ [t]
      fresh := s.fresh + 1
      running := none
      status := update s.status t .suspended
      cell := update s.cell t (some s.fresh)
      stack := .step (some t) :: fs } := by
  simp only [World.wait, hrun, hstack]
  rfl

theorem Sound.yield (h : Sound s)
    (hstack : s.stack = .resume .step t :: fs) (registered : Bool) :
    Sound (s.wait registered) := by
  have hmem : .resume .step t ∈ s.stack := hstack ▸ mem_cons_self
  obtain ⟨hrun, hact⟩ := h.stack.resumed t hmem
  obtain ⟨hlt, hq, hc⟩ := h.active_apart hact
  rw [wait_of_resumed hstack hrun]
  have hqueued : s.queued = s.ready ++ fs.flatMap Frame.wokenup := by
    simp [World.queued, hstack, Frame.wokenup]
  have hself : update s.status t .suspended t = .suspended := update_self _ _ _
  refine ⟨h.stack.yield hstack (by decide) rfl (Or.inl ⟨rfl, by decide⟩) rfl, ?_, ?_⟩
  · refine h.die.move ?_ ?_ (fun _ _ => rfl) ?_ rfl rfl
    · intro t'
      dsimp only
      by_cases heq : t' = t
      · subst heq
        rw [hself, hact]
        simp
      · rw [update_of_ne heq]
    · intro t' hd
      have hne : t' ≠ t := by
        rintro rfl
        rw [hact] at hd
        cases hd
      dsimp only
      have hstep : Frame.step (some t) ≠ .step (some t') := by
        intro heq
        cases heq
        exact hne rfl
      rw [owed_cons_of_ne hstep (by simp), hstack, owed_cons_of_ne (by simp) (by simp)]
    · intro t' ht'
      rw [hstack]
      rcases mem_cons.mp ht' with h1 | h1
      · cases h1
      · exact mem_cons_of_mem _ h1
  · cases registered with
    | false =>
      refine h.queue.enqueue (t := t) hq hlt ?_ (Or.inr hself) ?_ (Nat.le_refl _) hc
        (fun _ _ h' => h') (Nat.le_succ _) ?_
      · intro t' hne
        exact update_of_ne hne _ _
      · rw [hqueued]
        simp only [World.queued, flatMap_cons, Frame.wokenup, Bool.false_eq_true, if_false,
          nil_append, append_assoc]
        exact perm_middle
      · intro t' hne
        exact update_of_ne hne _ _
    | true =>
      have hqueued' : World.queued { s with
          cells := update s.cells s.fresh (some t)
          fresh := s.fresh + 1
          running := none
          status := update s.status t .suspended
          cell := update s.cell t (some s.fresh)
          stack := .step (some t) :: fs } = s.queued := by
        rw [hqueued]
        rfl
      constructor
      · intro t' hle
        have hne : t' ≠ t := by
          rintro rfl
          exact absurd hlt (Nat.not_lt_of_le hle)
        dsimp only
        rw [update_of_ne hne]
        exact h.queue.unborn t' hle
      · exact hqueued' ▸ h.queue.nodup
      · intro t' ht'
        have ht'' : t' ∈ s.queued := hqueued' ▸ ht'
        have hne : t' ≠ t := by
          rintro rfl
          exact hq ht''
        dsimp only
        rw [update_of_ne hne]
        exact h.queue.queued t' ht''
      · intro c t' hct
        simp only [if_true] at hct
        by_cases hcf : c = s.fresh
        · subst hcf
          rw [update_self] at hct
          cases hct
          refine ⟨Nat.lt_succ_self _, hself, update_self _ _ _, ?_⟩
          intro hmem'
          exact hq (hqueued' ▸ hmem')
        · rw [update_of_ne hcf] at hct
          have hne : t' ≠ t := by
            rintro rfl
            exact hc c hct
          obtain ⟨h1, h2, h3, h4⟩ := h.queue.cells c t' hct
          refine ⟨Nat.lt_succ_of_lt h1, ?_, ?_, ?_⟩
          · dsimp only
            rw [update_of_ne hne, h2]
          · dsimp only
            rw [update_of_ne hne, h3]
          · intro hmem'
            exact h4 (hqueued' ▸ hmem')

theorem Sound.end_task (h : Sound s)
    (hstack : s.stack = .resume .step t :: fs) {killed : Nat → Bool}
    (hkilled : ∀ t', t' ≠ t → killed t' = s.killed t') :
    Sound { s with
      killed := killed
      status := update s.status t .dead
      stack := .step (some t) :: fs } := by
  have hmem : .resume .step t ∈ s.stack := hstack ▸ mem_cons_self
  have hact := h.alive_of_resumed hmem
  obtain ⟨hlt, hq, hc⟩ := h.active_apart hact
  have halive : s.status t ≠ .dead := by
    rw [hact]
    simp
  have hnone : owed fs t = 0 := by
    have hstep : .step (some t) ∉ fs := not_mem_of_countP (h.stack.below hstack rfl) rfl
    have hkill : .kill t ∉ fs := fun hm =>
      (h.die.alive t halive).2 (hstack ▸ mem_cons_of_mem _ hm)
    simp only [owed]
    rw [count_eq_zero_of_not_mem hstep, count_eq_zero_of_not_mem hkill]
  have hrun : s.running = some t := (h.stack.resumed t hmem).1
  refine ⟨h.stack.yield hstack (by decide) rfl (Or.inr ⟨hrun, rfl⟩) rfl, ?_, ?_⟩
  · refine h.die.dies halive rfl rfl ?_ ?_ ?_ hkilled rfl
    · rw [owed_step, hnone]
    · intro t' hne
      have hstep : Frame.step (some t) ≠ .step (some t') := by
        intro heq
        cases heq
        exact hne rfl
      rw [owed_cons_of_ne hstep (by simp), hstack, owed_cons_of_ne (by simp) (by simp)]
    · intro t' _ ht'
      rw [hstack]
      rcases mem_cons.mp ht' with h1 | h1
      · cases h1
      · exact mem_cons_of_mem _ h1
  · refine h.queue.setStatus hlt hq hc rfl rfl ?_ (fun _ _ h' => h') rfl rfl
    simp [World.queued, hstack, Frame.wokenup]

theorem Sound.pop (h : Sound s) {f : Frame} (hstack : s.stack = f :: fs)
    (hf : f = .hook ∨ ∃ w, f = .signal w) :
    Sound { s with ready := s.ready ++ f.wokenup, stack := fs } := by
  have hne : ∀ t, f ≠ .step (some t) ∧ f ≠ .kill t := by
    intro t
    rcases hf with rfl | ⟨w, rfl⟩
    · simp
    · simp
  refine ⟨h.stack.pop hstack ?_ rfl rfl rfl, ?_, ?_⟩
  · rcases hf with rfl | ⟨w, rfl⟩
    · rfl
    · rfl
  · refine h.die.move (fun _ => Iff.rfl) ?_ (fun _ _ => rfl) ?_ rfl rfl
    · intro t _
      rw [hstack, owed_cons_of_ne (hne t).1 (hne t).2]
    · intro t ht
      rw [hstack]
      exact mem_cons_of_mem _ ht
  · refine h.queue.congr rfl rfl ?_ rfl rfl rfl
    simp [World.queued, hstack]

theorem Sound.finish (h : Sound s) : Sound s.finish := by
  unfold World.finish
  split
  · rename_i r t fs hstack
    cases r with
    | kill => exact absurd (hstack ▸ mem_cons_self) (h.stack.notByKill t)
    | step => exact h.end_task hstack (fun _ _ => rfl)
  · rename_i fs hstack
    have := h.pop hstack (Or.inl rfl)
    simpa only [Frame.wokenup, append_nil] using this
  · exact h

theorem Sound.kill_waiting (h : Sound s) (ho : s.Outside) {x c : Nat}
    (hs : s.status x = .suspended) (hc : s.cells c = some x) :
    Sound { s with
      killed := update s.killed x true
      cells := update s.cells c none
      status := update s.status x .dead
      stack := .kill x :: s.stack } := by
  have halive : s.status x ≠ .dead := by
    rw [hs]
    simp
  obtain ⟨hzero, hkill⟩ := h.die.alive x halive
  obtain ⟨-, -, -, hq⟩ := h.queue.cells c x hc
  have hlt : x < s.threads := by
    by_contra hge
    have := h.queue.unborn x (Nat.le_of_not_lt hge)
    rw [hs] at this
    cases this
  have hnone : owed s.stack x = 0 := by
    have hstep : .step (some x) ∉ s.stack := fun hm => h.stack.returned x (step_mem_tail ho hm)
    simp only [owed]
    rw [count_eq_zero_of_not_mem hstep, count_eq_zero_of_not_mem hkill]
  refine ⟨h.stack.push ho (f := .kill x) rfl rfl rfl ?_ ?_, ?_, ?_⟩
  · intro t
    dsimp only
    by_cases heq : t = x
    · subst heq
      rw [update_self, hs]
      simp
    · rw [update_of_ne heq]
  · intro t hd
    dsimp only
    have hne : t ≠ x := by
      rintro rfl
      exact halive hd
    rw [update_of_ne hne, hd]
  · refine h.die.dies halive rfl rfl ?_ ?_ ?_ ?_ rfl
    · rw [owed_kill, hnone]
    · intro t' hne
      have hk : Frame.kill x ≠ .kill t' := by
        intro heq
        cases heq
        exact hne rfl
      rw [owed_cons_of_ne (by simp) hk]
    · intro t' hne ht'
      rcases mem_cons.mp ht' with h1 | h1
      · cases h1
        exact absurd rfl hne
      · exact h1
    · intro t' hne
      exact update_of_ne hne _ _
  · exact h.queue.setStatus hlt hq (h.queue.emptied hc) rfl rfl rfl (fun _ _ h' => of_emptied h')
      rfl rfl

theorem Sound.kill (h : Sound s) (ho : s.Outside) {x : Nat}
    (hx : s.waits x ∨ s.running = some x ∧ ∃ r, s.stack.head? = some (.resume r x)) :
    Sound (s.kill x false) := by
  rcases hx with ⟨hs, c, hcell, hc⟩ | ⟨hrun, r, hhead⟩
  · have hnotRunning : s.running ≠ some x := by
      intro hrun
      rcases h.stack.begun x hrun with h1 | h1
      · rw [hs] at h1
        cases h1
      · rw [hs] at h1
        cases h1
    have hk : s.kill x false = { s with
        killed := update s.killed x true
        cells := update s.cells c none
        status := update s.status x .dead
        stack := .kill x :: s.stack } := by
      simp [World.kill, hnotRunning, hs, hcell]
    rw [hk]
    exact h.kill_waiting ho hs hc
  · obtain ⟨fs, hstack⟩ : ∃ fs, s.stack = .resume r x :: fs := by
      cases hstk : s.stack with
      | nil =>
        rw [hstk] at hhead
        cases hhead
      | cons f fs =>
        rw [hstk] at hhead
        cases hhead
        exact ⟨fs, rfl⟩
    cases r with
    | kill => exact absurd (hstack ▸ mem_cons_self) (h.stack.notByKill x)
    | step =>
      have hk : s.kill x false = { s with
          killed := update s.killed x true
          status := update s.status x .dead
          stack := .step (some x) :: fs } := by
        simp [World.kill, hrun, World.finish, hstack, Resumer.returned]
      rw [hk]
      exact h.end_task hstack (fun t' hne => update_of_ne hne _ _)

theorem Sound.step (h : Sound s) (ho : s.Outside) : Sound s.step := by
  unfold World.step
  split
  · exact h
  rename_i hrun
  have hnone : s.running = none := by simpa using hrun
  refine ⟨h.stack.enter ho hnone rfl rfl rfl, ?_, h.queue.congr rfl rfl rfl rfl rfl rfl⟩
  refine h.die.move (fun _ => Iff.rfl) ?_ (fun _ _ => rfl) ?_ rfl rfl
  · intro t _
    rw [owed_cons_of_ne (by simp) (by simp)]
  · intro t ht
    rcases mem_cons.mp ht with h1 | h1
    · cases h1
    · exact h1

theorem QueueInv.wake {s' : World} (h : QueueInv s) {c t : Nat} (hc : s.cells c = some t)
    (hthreads : s'.threads = s.threads) (hstatus : s'.status = s.status)
    (hperm : s'.queued.Perm (t :: s.queued))
    (hcells : s'.cells = update s.cells c none) (hfresh : s'.fresh = s.fresh)
    (hcell : s'.cell = s.cell) : QueueInv s' := by
  obtain ⟨-, hs, -, hq⟩ := h.cells c t hc
  have hlt : t < s.threads := by
    by_contra hge
    have := h.unborn t (Nat.le_of_not_lt hge)
    rw [hs] at this
    cases this
  refine h.enqueue hq (hthreads ▸ hlt) ?_ ?_ hperm (Nat.le_of_eq hthreads.symm) ?_ ?_
    (Nat.le_of_eq hfresh.symm) ?_
  · intro t' _
    rw [hstatus]
  · rw [hstatus, hs]
    exact Or.inr rfl
  · rw [hcells]
    exact h.emptied hc
  · intro c' t' hc'
    rw [hcells] at hc'
    exact of_emptied hc'
  · intro t' _
    rw [hcell]

theorem Sound.expire (h : Sound s) (c : Nat) : Sound (s.expire c) := by
  unfold World.expire
  split
  · rename_i t hc
    refine ⟨{ h.stack with }, { h.die with }, h.queue.wake hc rfl rfl ?_ rfl rfl rfl⟩
    simp only [World.queued, append_assoc]
    exact perm_middle
  · exact h

theorem Sound.runcell (h : Sound s) (c : Nat) : Sound (s.runcell c) := by
  unfold World.runcell
  split
  · rename_i w fs t hstack hc
    refine ⟨h.stack.swap hstack rfl rfl rfl rfl rfl, ?_, h.queue.wake hc rfl rfl ?_ rfl rfl rfl⟩
    · refine h.die.move (fun _ => Iff.rfl) ?_ (fun _ _ => rfl) ?_ rfl rfl
      · intro t' _
        rw [owed_cons_of_ne (by simp) (by simp), hstack, owed_cons_of_ne (by simp) (by simp)]
      · intro t' ht'
        rw [hstack]
        rcases mem_cons.mp ht' with h1 | h1
        · cases h1
        · exact mem_cons_of_mem _ h1
    · simp only [World.queued, hstack, flatMap_cons, Frame.wokenup]
      rw [append_assoc w, ← append_assoc s.ready, ← append_assoc s.ready]
      exact perm_middle
  · exact h

theorem Sound.runHook (h : Sound s) : Sound s.runHook := by
  unfold World.runHook
  split
  · rename_i w fs hstack
    refine h.push ?_ (Or.inr rfl)
    intro o ho
    rw [hstack] at ho
    cases ho
  · exact h

/-- `kill` signals that the thread is dead. -/
theorem Sound.kill_die (h : Sound s) {x : Nat} (hstack : s.stack = .kill x :: fs) :
    Sound ({ s with stack := fs }.emitDie x) := by
  have hdead : s.status x = .dead := by
    by_contra hne
    exact (h.die.alive x hne).2 (hstack ▸ mem_cons_self)
  refine ⟨h.stack.swap hstack rfl rfl rfl rfl rfl, ?_, ?_⟩
  · refine h.die.move (fun _ => Iff.rfl) ?_ ?_ ?_ rfl rfl
    · intro t _
      show update s.dies x (s.dies x + 1) t + owed (.signal [] :: fs) t = _
      rw [hstack, owed_cons_of_ne (by simp) (by simp)]
      by_cases heq : t = x
      · subst heq
        rw [update_self, owed_kill]
        omega
      have hk : Frame.kill x ≠ .kill t := by
        intro h'
        cases h'
        exact heq rfl
      rw [update_of_ne heq, owed_cons_of_ne (by simp) hk]
    · intro t ht
      have hne : t ≠ x := by
        rintro rfl
        exact ht hdead
      exact update_of_ne hne _ _
    · intro t ht
      rw [hstack]
      rcases mem_cons.mp ht with h1 | h1
      · cases h1
      · exact mem_cons_of_mem _ h1
  · refine h.queue.congr rfl rfl ?_ rfl rfl rfl
    simp [World.queued, World.emitDie, World.signal, hstack, Frame.wokenup]

/-- `step` signals that the thread it has resumed is dead. -/
theorem Sound.step_die (h : Sound s)
    (hstack : s.stack = .step (some t) :: fs) (hdead : s.status t = .dead) :
    Sound ({ s with stack := .step none :: fs }.emitDie t) := by
  refine ⟨h.stack.die hstack hdead rfl rfl rfl, ?_, ?_⟩
  · refine h.die.move (fun _ => Iff.rfl) ?_ ?_ ?_ rfl rfl
    · intro t' _
      show update s.dies t (s.dies t + 1) t' +
        owed (.signal [] :: .step none :: fs) t' = _
      rw [hstack, owed_cons_of_ne (by simp) (by simp), owed_cons_of_ne (by simp) (by simp)]
      by_cases heq : t' = t
      · subst heq
        rw [update_self, owed_step]
        omega
      have hstep : Frame.step (some t) ≠ .step (some t') := by
        intro h'
        cases h'
        exact heq rfl
      rw [update_of_ne heq, owed_cons_of_ne hstep (by simp)]
    · intro t' ht'
      have hne : t' ≠ t := by
        rintro rfl
        exact ht' hdead
      exact update_of_ne hne _ _
    · intro t' ht'
      rw [hstack]
      rcases mem_cons.mp ht' with h1 | h1
      · cases h1
      · rcases mem_cons.mp h1 with h1 | h1
        · cases h1
        · exact mem_cons_of_mem _ h1
  · refine h.queue.congr rfl rfl ?_ rfl rfl rfl
    simp [World.queued, World.emitDie, World.signal, hstack, Frame.wokenup]

/-- `step` resumes the first ready thread. -/
theorem Sound.resume (h : Sound s) {ts : List Nat}
    (hstack : s.stack = .step none :: fs) (hready : s.ready = t :: ts) :
    Sound { s with
      ready := ts
      running := some t
      status := update s.status t .active
      stack := .resume .step t :: fs } := by
  have hqueued : s.queued = t :: (ts ++ fs.flatMap Frame.wokenup) := by
    simp [World.queued, hstack, hready, Frame.wokenup]
  have hmem : t ∈ s.queued := by
    rw [hqueued]
    exact mem_cons_self
  obtain ⟨hlt, hs⟩ := h.queue.queued t hmem
  have halive : s.status t ≠ .dead := by
    rcases hs with hs | hs
    · simp [hs]
    · simp [hs]
  have hnodup := h.queue.nodup
  rw [hqueued, nodup_cons] at hnodup
  have hother : ∀ t', t' ≠ t → update s.status t .active t' = s.status t' :=
    fun t' hne => update_of_ne hne _ _
  have hlater : World.queued { s with
      ready := ts
      running := some t
      status := update s.status t .active
      stack := .resume .step t :: fs } = ts ++ fs.flatMap Frame.wokenup := rfl
  refine ⟨h.stack.resume hstack rfl rfl rfl, ?_, ?_⟩
  · refine h.die.move ?_ ?_ (fun _ _ => rfl) ?_ rfl rfl
    · intro t'
      dsimp only
      by_cases heq : t' = t
      · subst heq
        rw [update_self]
        simpa using halive
      · rw [hother t' heq]
    · intro t' _
      rw [owed_cons_of_ne (by simp) (by simp), hstack, owed_cons_of_ne (by simp) (by simp)]
    · intro t' ht'
      rw [hstack]
      rcases mem_cons.mp ht' with h1 | h1
      · cases h1
      · exact mem_cons_of_mem _ h1
  · constructor
    · intro t' hle
      have hne : t' ≠ t := by
        rintro rfl
        exact absurd hlt (Nat.not_lt_of_le hle)
      dsimp only
      rw [hother t' hne]
      exact h.queue.unborn t' hle
    · rw [hlater]
      exact hnodup.2
    · intro t' ht'
      rw [hlater] at ht'
      have hne : t' ≠ t := by
        rintro rfl
        exact hnodup.1 ht'
      dsimp only
      rw [hother t' hne]
      exact h.queue.queued t' (by rw [hqueued]; exact mem_cons_of_mem _ ht')
    · intro c t' hct
      obtain ⟨h1, h2, h3, h4⟩ := h.queue.cells c t' hct
      have hne : t' ≠ t := by
        rintro rfl
        exact h4 hmem
      refine ⟨h1, ?_, h3, ?_⟩
      · dsimp only
        rw [hother t' hne, h2]
      · rw [hlater]
        intro ht'
        exact h4 (by rw [hqueued]; exact mem_cons_of_mem _ ht')

theorem Sound.advance (h : Sound s) : Sound s.advance := by
  unfold World.advance
  split
  · rename_i w fs hstack
    exact h.pop hstack (Or.inr ⟨w, rfl⟩)
  · rename_i x fs hstack
    exact h.kill_die hstack
  · rename_i t fs hstack
    split
    · rename_i hdead
      exact h.step_die hstack hdead
    rename_i halive
    refine ⟨h.stack.next hstack rfl rfl rfl, ?_, ?_⟩
    · refine h.die.move (fun _ => Iff.rfl) ?_ (fun _ _ => rfl) ?_ rfl rfl
      · intro t' hd
        have hstep : Frame.step (some t) ≠ .step (some t') := by
          intro h'
          cases h'
          exact halive hd
        rw [owed_cons_of_ne (by simp) (by simp), hstack, owed_cons_of_ne hstep (by simp)]
      · intro t' ht'
        rw [hstack]
        rcases mem_cons.mp ht' with h1 | h1
        · cases h1
        · exact mem_cons_of_mem _ h1
    · refine h.queue.congr rfl rfl ?_ rfl rfl rfl
      simp [World.queued, hstack, Frame.wokenup]
  · rename_i fs hstack
    split
    · rename_i hready
      refine ⟨h.stack.leave hstack rfl rfl rfl, ?_, ?_⟩
      · refine h.die.move (fun _ => Iff.rfl) ?_ (fun _ _ => rfl) ?_ rfl rfl
        · intro t _
          rw [hstack, owed_cons_of_ne (by simp) (by simp)]
        · intro t ht
          rw [hstack]
          exact mem_cons_of_mem _ ht
      · refine h.queue.congr rfl rfl ?_ rfl rfl rfl
        simp [World.queued, hstack, Frame.wokenup]
    · rename_i t ts hready
      have hmem : t ∈ s.queued := by
        simp [World.queued, hready]
      dsimp only
      rcases (h.queue.queued t hmem).2 with hs | hs
      · rw [hs]
        exact h.resume hstack hready
      · rw [hs]
        exact h.resume hstack hready
  · exact h

end Steps

theorem step_sound (s : World) (e : Event) (he : Enabled s e ∧ KillSafe s e) (h : Sound s) :
    Sound (step s e) := by
  obtain ⟨hen, hsafe⟩ := he
  cases e with
  | exec =>
    show Sound s.body
    rw [h.body]
    exact h
  | run =>
    show Sound s.body.run
    rw [h.body]
    exact h.run
  | signal =>
    show Sound s.body.signal
    rw [h.body]
    exact h.push (outside_of_executes hen) (Or.inl rfl)
  | wait registered =>
    show Sound (s.body.wait registered)
    rw [h.body]
    cases hrun : s.running with
    | none =>
      unfold World.wait
      rw [hrun]
      exact h
    | some t =>
      obtain ⟨r, t', fs, hstack⟩ : ∃ r t' fs, s.stack = .resume r t' :: fs := by
        have hexec : s.executes := hen
        unfold World.executes at hexec
        split at hexec
        · rename_i hnil
          have := h.stack.idle (by rw [hnil]; rfl)
          rw [hrun] at this
          cases this
        · rename_i fs hhook
          have := hsafe (by rw [hhook]; rfl)
          rw [hrun] at this
          cases this
        · rename_i r t' fs hstack
          exact ⟨r, t', fs, hstack⟩
        · exact hexec.elim
      cases r with
      | kill => exact absurd (hstack ▸ mem_cons_self) (h.stack.notByKill t')
      | step => exact h.yield hstack registered
  | kill x caught =>
    show Sound (s.body.kill x caught)
    rw [h.body, hsafe.1]
    exact h.kill (outside_of_executes hen.1) hsafe.2
  | step =>
    show Sound s.body.step
    rw [h.body]
    exact h.step (outside_of_executes hen)
  | expire c =>
    show Sound (s.body.expire c)
    rw [h.body]
    exact h.expire c
  | finish => exact h.finish
  | runcell c => exact h.runcell c
  | runHook => exact h.runHook
  | advance => exact h.advance

/-- In every run in which `kill` is only applied to tasks that wait and, by itself, to the
running task, where the task does not catch the error, and in which no hook calls `wait`: no
statement of a task is executed after it was killed, a task that was killed is dead, and the
`'die'` signal of a task is emitted once when it is dead and never before. -/
theorem dies_once {s : World} (h : Runs step (fun s e => Enabled s e ∧ KillSafe s e) init s)
    (t : Nat) :
    s.late t = false ∧ (s.killed t = true → s.status t = .dead) ∧
    (s.status t ≠ .dead → s.dies t = 0) ∧ s.dies t ≤ 1 ∧
    (s.status t = .dead → .step (some t) ∉ s.stack → .kill t ∉ s.stack → s.dies t = 1) := by
  have hsound : Sound s := Runs.invariant step_sound h sound_init
  refine ⟨hsound.die.late t, hsound.die.killed t, fun ht => (hsound.die.alive t ht).1, ?_, ?_⟩
  · by_cases hd : s.status t = .dead
    · have := hsound.die.dead t hd
      omega
    · rw [(hsound.die.alive t hd).1]
      exact Nat.zero_le _
  · intro hd hstep hkill
    have hsum := hsound.die.dead t hd
    simp only [owed] at hsum
    rw [count_eq_zero_of_not_mem hstep, count_eq_zero_of_not_mem hkill] at hsum
    exact hsum

def killWaiting : List Event :=
  [.run, .step, .advance, .wait true, .advance, .advance, .kill 0 false, .advance, .advance]

theorem dies_once_waiting :
    (killWaiting.foldl step init).killed 0 = true ∧ (killWaiting.foldl step init).dies 0 = 1 := by
  have hrun : Along step (fun s e => Enabled s e ∧ KillSafe s e) init killWaiting := by
    refine ⟨⟨trivial, trivial⟩, ⟨trivial, trivial⟩, ⟨trivial, trivial⟩, ⟨trivial, ?_⟩,
      ⟨trivial, trivial⟩, ⟨trivial, trivial⟩, ⟨⟨trivial, by decide⟩, rfl, Or.inl ⟨by decide, 0, ?_⟩⟩,
      ⟨trivial, trivial⟩, ⟨trivial, trivial⟩, trivial⟩
    · intro hhook
      cases hhook
    · decide
  have hkilled : (killWaiting.foldl step init).killed 0 = true := by decide
  obtain ⟨-, hdead, -, -, honce⟩ := dies_once hrun.runs 0
  exact ⟨hkilled, honce (hdead hkilled) (by decide) (by decide)⟩

def killReady : List Event :=
  [.run, .step, .advance, .wait true, .advance, .advance, .signal, .runcell 0, .advance,
    .kill 0 false, .advance, .advance, .step, .advance, .advance]

/-- The `'die'` signal of a task that was ready when it was killed is emitted twice. -/
theorem ready_task_dies_twice :
    ¬ ∀ s, Runs step Enabled init s → ∀ t, s.dies t ≤ 1 := by
  intro hall
  have hrun : Along step Enabled init killReady :=
    ⟨trivial, trivial, trivial, trivial, trivial, trivial, trivial, trivial, trivial,
      ⟨trivial, by decide⟩, trivial, trivial, trivial, trivial, trivial, trivial⟩
  have hdies : (killReady.foldl step init).dies 0 = 2 := by decide
  have := hall _ hrun.runs 0
  omega

end Mihini.Sched.Life
