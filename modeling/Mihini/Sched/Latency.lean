import Mathlib.Algebra.Order.Ring.Rat
import Mathlib.Logic.Function.Basic
import Mathlib.Tactic.Linarith
import Mihini.Lib.Run

/-!
# Execution within a latency

`latencyExec` of `src/luafwk/timer.lua`, with the timers it arms and the tasks it runs.
-/

namespace Mihini.Sched.Latency

open Mihini.Lib List

/-! ## The jobs -/

/-- What `latencyjobs` has for a function. -/
structure Entry where
  hook : Nat
  date : ℚ
  deriving DecidableEq

structure Timer where
  hook : Nat
  due : ℚ
  deriving DecidableEq

structure Request where
  date : ℚ
  latency : ℚ
  deriving DecidableEq

structure Job where
  entry : Option Entry
  armed : List Timer
  /-- How many tasks are to run `dofunc` and have not begun. -/
  ready : Nat
  /-- The requests since the function was last started. -/
  requests : List Request
  deriving DecidableEq

namespace Job

def init : Job := ⟨none, [], 0, []⟩

/-- `sched.kill`, of a hook; one that is dead is left alone. -/
def kill (j : Job) (hook : Nat) : Job := { j with armed := j.armed.filter (·.hook ≠ hook) }

/-- `sched.kill(latencyjobs[func].hook)`, if there is an entry -/
def killEntry (j : Job) : Job :=
  match j.entry with
  | none => j
  | some e => j.kill e.hook

/-- The local function `dofunc`, which starts the function -/
def dofunc (j : Job) : Job := { j with entry := none, requests := [] }

/-- `latencyjobs[func] = {hook = sched.sigrunonce("timer", latency, dofunc), date = next}` -/
def arm (j : Job) (hook : Nat) (next : ℚ) : Job :=
  { j with entry := some ⟨hook, next⟩, armed := ⟨hook, next⟩ :: j.armed }

def request (j : Job) (date latency : ℚ) : Job := { j with requests := ⟨date, latency⟩ :: j.requests }

def latencyExec (j : Job) (now : ℚ) (hook : Nat) : Option ℚ → Job
  | none => j.killEntry.dofunc
  | some latency =>
    if latency < 0 then j
    else
      let next := now + latency
      let j := j.request now latency
      if latency = 0 then { j.killEntry with ready := j.ready + 1 }
      else
        match j.entry with
        | none => j.arm hook next
        | some e => if next + 1 < e.date then (j.kill e.hook).arm hook next else j

/-- The timer of a hook expires: the hook is detached, and runs `dofunc` in a task. -/
def expire (j : Job) (hook : Nat) : Job := { j.kill hook with ready := j.ready + 1 }

def start (j : Job) : Job := { j with ready := j.ready - 1 }.dofunc

def pending (j : Job) : Nat := j.armed.length + j.ready

def Covered (j : Job) (r : Request) : Prop :=
  0 < j.ready ∨ ∃ t ∈ j.armed, t.due ≤ r.date + r.latency + 1

end Job

/-! ## Runs -/

variable {φ : Type} [DecidableEq φ]

structure World (φ : Type) where
  clock : ℚ
  fresh : Nat
  jobs : φ → Job

inductive Event (φ : Type) where
  | latencyExec (func : φ) (latency : Option ℚ)
  | elapse (clock : ℚ)
  | expire (func : φ) (hook : Nat)
  | start (func : φ)

namespace World

def init (clock : ℚ) : World φ := ⟨clock, 0, fun _ => .init⟩

def update (w : World φ) (func : φ) (j : Job) : World φ :=
  { w with jobs := Function.update w.jobs func j }

end World

def step (w : World φ) : Event φ → World φ
  | .latencyExec func latency =>
    { w.update func ((w.jobs func).latencyExec w.clock w.fresh latency) with fresh := w.fresh + 1 }
  | .elapse clock => { w with clock := clock }
  | .expire func hook => w.update func ((w.jobs func).expire hook)
  | .start func => w.update func (w.jobs func).start

/-- A timer that expires is armed and due, and a task that begins is ready. -/
def Enabled (w : World φ) : Event φ → Prop
  | .latencyExec _ _ => True
  | .elapse clock => w.clock ≤ clock
  | .expire func hook => ∃ t ∈ (w.jobs func).armed, t.hook = hook ∧ t.due ≤ w.clock
  | .start func => 0 < (w.jobs func).ready

instance (w : World φ) : DecidablePred (Enabled w)
  | .latencyExec _ _ => isTrue trivial
  | .elapse _ => inferInstanceAs (Decidable (_ ≤ _))
  | .expire _ _ => inferInstanceAs (Decidable (∃ t ∈ _, _ ∧ _))
  | .start _ => inferInstanceAs (Decidable (_ < _))

/-- While a task has not begun, no call runs another one or arms a timer. -/
def Job.Sound (j : Job) (now : ℚ) : Option ℚ → Prop
  | none => True
  | some latency =>
    0 ≤ latency → j.ready = 0 ∨ (latency ≠ 0 ∧ ∃ e ∈ j.entry, e.date ≤ now + latency + 1)

instance (j : Job) (now : ℚ) : DecidablePred (j.Sound now)
  | none => isTrue trivial
  | some _ => inferInstanceAs (Decidable (_ ≤ _ → _ ∨ _ ∧ ∃ e ∈ _, _ ≤ _))

def Sound (w : World φ) : Event φ → Prop
  | .latencyExec func latency => (w.jobs func).Sound w.clock latency
  | _ => True

instance (w : World φ) : DecidablePred (Sound w)
  | .latencyExec func latency => inferInstanceAs (Decidable ((w.jobs func).Sound w.clock latency))
  | .elapse _ | .expire _ _ | .start _ => isTrue trivial

/-! ## Requests are covered -/

structure Held (fresh : Nat) (j : Job) : Prop where
  old : ∀ t ∈ j.armed, t.hook < fresh
  unique : ∀ t ∈ j.armed, ∀ t' ∈ j.armed, t.hook = t'.hook → t = t'
  live : ∀ e ∈ j.entry, 0 < j.ready ∨ ∃ t ∈ j.armed, t.hook = e.hook ∧ t.due = e.date
  covered : ∀ r ∈ j.requests, j.Covered r

theorem armed_killEntry {j : Job} {t : Timer} (h : t ∈ j.killEntry.armed) : t ∈ j.armed := by
  unfold Job.killEntry at h
  split at h
  · exact h
  · exact (mem_filter.mp h).1

theorem ready_killEntry (j : Job) : j.killEntry.ready = j.ready := by
  unfold Job.killEntry
  split <;> rfl

namespace Held

variable {fresh : Nat} {j : Job}

theorem init : Held 0 Job.init := ⟨nofun, nofun, nofun, nofun⟩

theorem later (h : Held fresh j) : Held (fresh + 1) j :=
  ⟨fun t ht => Nat.lt_succ_of_lt (h.old t ht), h.unique, h.live, h.covered⟩

theorem of_ready {j' : Job} (h : Held fresh j) (hsub : ∀ t ∈ j'.armed, t ∈ j.armed)
    (hready : 0 < j'.ready) : Held fresh j' :=
  ⟨fun t ht => h.old t (hsub t ht), fun t ht t' ht' => h.unique t (hsub t ht) t' (hsub t' ht'),
    fun _ _ => .inl hready, fun _ _ => .inl hready⟩

theorem of_dofunc {j' : Job} (h : Held fresh j) (hsub : ∀ t ∈ j'.armed, t ∈ j.armed) :
    Held fresh j'.dofunc :=
  ⟨fun t ht => h.old t (hsub t ht), fun t ht t' ht' => h.unique t (hsub t ht) t' (hsub t' ht'),
    nofun, nofun⟩

theorem arm (h : Held fresh j) {j' : Job} (hsub : ∀ t ∈ j'.armed, t ∈ j.armed) {next : ℚ}
    (hcovered : ∀ r ∈ j'.requests, j'.Covered r ∨ next ≤ r.date + r.latency + 1) :
    Held (fresh + 1) (j'.arm fresh next) where
  old t ht := by
    rcases mem_cons.mp ht with rfl | ht
    · exact Nat.lt_succ_self fresh
    · exact Nat.lt_succ_of_lt (h.old t (hsub t ht))
  unique t ht t' ht' heq := by
    rcases mem_cons.mp ht with rfl | ht <;> rcases mem_cons.mp ht' with rfl | ht'
    · rfl
    · exact absurd heq.symm (Nat.ne_of_lt (h.old t' (hsub t' ht')))
    · exact absurd heq (Nat.ne_of_lt (h.old t (hsub t ht)))
    · exact h.unique t (hsub t ht) t' (hsub t' ht') heq
  live e he := by
    obtain rfl := Option.mem_some_iff.mp he
    exact .inr ⟨_, mem_cons_self .., rfl, rfl⟩
  covered r hr := by
    rcases hcovered r hr with (hready | ⟨t, ht, hdue⟩) | hdue
    · exact .inl hready
    · exact .inr ⟨t, mem_cons_of_mem _ ht, hdue⟩
    · exact .inr ⟨_, mem_cons_self .., hdue⟩

theorem covered_kill (h : Held fresh j) {e : Entry} (he : e ∈ j.entry) {next : ℚ}
    (hlt : next + 1 < e.date) {r : Request} (hr : j.Covered r) :
    (j.kill e.hook).Covered r ∨ next ≤ r.date + r.latency + 1 := by
  rcases hr with hready | ⟨t, ht, hdue⟩
  · exact .inl (.inl hready)
  · by_cases hhook : t.hook = e.hook
    · rcases h.live e he with hready | ⟨t', ht', hhook', hdue'⟩
      · exact .inl (.inl hready)
      · have heq := h.unique t ht t' ht' (hhook.trans hhook'.symm)
        rw [heq, hdue'] at hdue
        exact .inr (by linarith)
    · exact .inl (.inr ⟨t, mem_filter.mpr ⟨ht, decide_eq_true hhook⟩, hdue⟩)

theorem latencyExec (h : Held fresh j) (now : ℚ) (latency : Option ℚ) :
    Held (fresh + 1) (j.latencyExec now fresh latency) := by
  cases latency with
  | none =>
    show Held (fresh + 1) j.killEntry.dofunc
    exact h.later.of_dofunc fun t ht => armed_killEntry ht
  | some latency =>
    rw [Job.latencyExec]
    split
    · exact h.later
    simp only
    split
    · refine h.later.of_ready (fun t ht => ?_) (Nat.succ_pos _)
      exact armed_killEntry (j := j.request now latency) ht
    cases hentry : (j.request now latency).entry with
    | none =>
      simp only
      refine @Held.arm _ _ h (j.request now latency) (fun t ht => ht) _ fun r hr => ?_
      rcases mem_cons.mp hr with rfl | hr
      · exact .inr (by linarith)
      · exact .inl (h.covered r hr)
    | some e =>
      have he : e ∈ j.entry := hentry
      simp only
      split
      · rename_i hlt
        refine h.arm (fun t ht => (mem_filter.mp ht).1) fun r hr => ?_
        rcases mem_cons.mp hr with rfl | hr
        · exact .inr (by linarith)
        · exact h.covered_kill he hlt (h.covered r hr)
      · rename_i hge
        refine ⟨h.later.old, h.unique, h.live, fun r hr => ?_⟩
        rcases mem_cons.mp hr with rfl | hr
        · rcases h.live e he with hready | ⟨t, ht, -, hdue⟩
          · exact .inl hready
          · refine .inr ⟨t, ht, ?_⟩
            rw [hdue]
            exact not_lt.mp hge
        · exact h.covered r hr

theorem expire (h : Held fresh j) (hook : Nat) : Held fresh (j.expire hook) :=
  h.of_ready (fun _ ht => (mem_filter.mp ht).1) (Nat.succ_pos _)

theorem start (h : Held fresh j) : Held fresh j.start := h.of_dofunc fun _ ht => ht

end Held

/-! ## One execution is pending -/

structure Merged (j : Job) : Prop where
  single : j.pending ≤ 1
  named : ∀ t ∈ j.armed, ∃ e ∈ j.entry, e.hook = t.hook

namespace Merged

variable {j : Job}

theorem init : Merged Job.init := ⟨Nat.zero_le _, nofun⟩

theorem of_nil {j' : Job} (harmed : j'.armed = []) (hready : j'.ready ≤ 1) : Merged j' := by
  refine ⟨?_, fun t ht => ?_⟩
  · rw [Job.pending, harmed]
    exact Nat.le_trans (Nat.le_of_eq (Nat.zero_add _)) hready
  · rw [harmed] at ht
    cases ht

/-- The only timer is that of the entry. -/
theorem kill (h : Merged j) {e : Entry} (he : j.entry = some e) : (j.kill e.hook).armed = [] := by
  refine filter_eq_nil_iff.mpr fun t ht hne => ?_
  obtain ⟨e', he', hhook⟩ := h.named t ht
  rw [he, Option.mem_some_iff] at he'
  rw [← he'] at hhook
  exact (of_decide_eq_true hne) hhook.symm

theorem armed_nil (h : Merged j) (he : j.entry = none) : j.armed = [] := by
  refine eq_nil_iff_forall_not_mem.mpr fun t ht => ?_
  obtain ⟨e, he', -⟩ := h.named t ht
  rw [he] at he'
  cases he'

theorem killEntry (h : Merged j) : j.killEntry.armed = [] := by
  unfold Job.killEntry
  split
  · exact h.armed_nil (by assumption)
  · exact h.kill (by assumption)

theorem armed_of_ready (h : Merged j) (hready : 0 < j.ready) : j.armed = [] := by
  have hsingle := h.single
  rw [Job.pending] at hsingle
  exact length_eq_zero_iff.mp (by omega)

theorem ready_le (h : Merged j) : j.ready ≤ 1 := by
  have hsingle := h.single
  rw [Job.pending] at hsingle
  omega

theorem arm {j' : Job} (harmed : j'.armed = []) (hready : j'.ready = 0) (hook : Nat) (next : ℚ) :
    Merged (j'.arm hook next) := by
  refine ⟨?_, fun t ht => ⟨_, rfl, ?_⟩⟩
  · rw [Job.pending]
    show (_ :: j'.armed).length + j'.ready ≤ 1
    rw [harmed, hready]
    exact Nat.le_refl 1
  · have ht' : t ∈ Timer.mk hook next :: j'.armed := ht
    rw [harmed, mem_singleton] at ht'
    rw [ht']

theorem request (h : Merged j) (now latency : ℚ) : Merged (j.request now latency) := ⟨h.single, h.named⟩

theorem latencyExec (h : Merged j) {now : ℚ} {latency : Option ℚ} (hs : j.Sound now latency)
    (hook : Nat) : Merged (j.latencyExec now hook latency) := by
  cases latency with
  | none =>
    exact @of_nil j.killEntry.dofunc h.killEntry
      (Nat.le_trans (Nat.le_of_eq (ready_killEntry j)) h.ready_le)
  | some latency =>
    have hreq := h.request now latency
    rw [Job.latencyExec]
    split
    · exact h
    rename_i hneg
    simp only
    rcases hs (not_lt.mp hneg) with hready | ⟨hne, e, he, hdate⟩
    · split
      · exact of_nil hreq.killEntry (Nat.le_of_eq (congrArg (· + 1) hready))
      · cases hentry : (j.request now latency).entry with
        | none => exact arm (hreq.armed_nil hentry) hready hook _
        | some e =>
          simp only
          split
          · exact arm (hreq.kill hentry) hready hook _
          · exact hreq
    · have hentry : (j.request now latency).entry = some e := he
      rw [if_neg hne, hentry]
      simp only
      rw [if_neg (not_lt.mpr hdate)]
      exact hreq

theorem expire (h : Merged j) {hook : Nat} {t : Timer} (ht : t ∈ j.armed) (hhook : t.hook = hook) :
    Merged (j.expire hook) := by
  obtain ⟨e, he, heq⟩ := h.named t ht
  have hpos : 0 < j.armed.length := length_pos_of_mem ht
  have hsingle := h.single
  rw [Job.pending] at hsingle
  refine of_nil ?_ ?_
  · rw [← hhook, ← heq]
    exact h.kill he
  · show j.ready + 1 ≤ 1
    omega

theorem start (h : Merged j) (hready : 0 < j.ready) : Merged j.start := by
  refine of_nil (h.armed_of_ready hready) ?_
  have hle := h.ready_le
  show j.ready - 1 ≤ 1
  omega

end Merged

theorem two_pending {j : Job} {now : ℚ} {latency : Option ℚ} (hs : ¬ j.Sound now latency)
    (hook : Nat) : 2 ≤ (j.latencyExec now hook latency).pending := by
  cases latency with
  | none => exact absurd trivial hs
  | some latency =>
    obtain ⟨hpos, hs⟩ := Classical.not_imp.mp hs
    obtain ⟨hready, hentry⟩ := not_or.mp hs
    rw [Job.latencyExec, if_neg (not_lt.mpr hpos)]
    simp only
    split
    · show 2 ≤ _ + (j.ready + 1)
      omega
    rename_i hne
    have harm : ∀ armed : List Timer, ∀ t : Timer, 2 ≤ (t :: armed).length + j.ready := by
      intro armed t
      rw [length_cons]
      omega
    cases he : (j.request now latency).entry with
    | none => exact harm _ _
    | some e =>
      simp only
      rw [if_pos (not_le.mp fun hdate => hentry ⟨hne, e, he, hdate⟩)]
      exact harm _ _

/-! ## Every run -/

def Honoured (w : World φ) : Prop := ∀ func, ∀ r ∈ (w.jobs func).requests, (w.jobs func).Covered r

def Single (w : World φ) : Prop := ∀ func, (w.jobs func).pending ≤ 1

theorem jobs_update (w : World φ) {P : Job → Prop} (h : ∀ func, P (w.jobs func)) {func : φ} {j : Job}
    (hj : P j) (func' : φ) : P ((w.update func j).jobs func') := by
  show P (Function.update w.jobs func j func')
  by_cases heq : func' = func
  · rw [heq, Function.update_self]
    exact hj
  · rw [Function.update_of_ne heq]
    exact h func'

variable {w : World φ}

theorem held_step (h : ∀ func, Held w.fresh (w.jobs func)) (e : Event φ) (func : φ) :
    Held (step w e).fresh ((step w e).jobs func) := by
  cases e with
  | latencyExec func' latency =>
    exact jobs_update w (P := Held (w.fresh + 1)) (fun func => (h func).later)
      ((h func').latencyExec w.clock latency) func
  | elapse clock => exact h func
  | expire func' hook => exact jobs_update w h ((h func').expire hook) func
  | start func' => exact jobs_update w h (h func').start func

theorem merged_step (h : ∀ func, Merged (w.jobs func)) {e : Event φ}
    (he : Enabled w e) (hs : Sound w e) (func : φ) : Merged ((step w e).jobs func) := by
  cases e with
  | latencyExec func' latency => exact jobs_update w h ((h func').latencyExec hs w.fresh) func
  | elapse clock => exact h func
  | expire func' hook =>
    obtain ⟨t, ht, hhook, -⟩ := he
    exact jobs_update w h ((h func').expire ht hhook) func
  | start func' => exact jobs_update w h ((h func').start he) func

theorem sound_of_single {e : Event φ} (h : Single (step w e)) : Sound w e := by
  cases e with
  | latencyExec func latency =>
    by_contra hs
    have hle := h func
    have hjob : (step w (.latencyExec func latency)).jobs func =
        (w.jobs func).latencyExec w.clock w.fresh latency := Function.update_self ..
    rw [hjob] at hle
    have htwo := two_pending hs w.fresh
    omega
  | elapse _ | expire _ _ | start _ => trivial

/-- In every run all requests are covered.  When no call runs a task or arms a timer while a task has
not begun, at most one execution is pending, and any other call breaks that. -/
theorem latency_honoured (clock : ℚ) :
    (∀ w : World φ, Runs step Enabled (.init clock) w → Honoured w) ∧
    ∀ w : World φ, Runs step (fun w e => Enabled w e ∧ Sound w e) (.init clock) w →
      Single w ∧ ∀ e, Enabled w e → (Single (step w e) ↔ Sound w e) := by
  constructor
  · intro w h func
    have hheld := h.invariant (I := fun w => ∀ func, Held w.fresh (w.jobs func))
      (fun _ e _ hi => held_step hi e) fun _ => .init
    exact (hheld func).covered
  · intro w h
    have hmerged := h.invariant (I := fun w => ∀ func, Merged (w.jobs func))
      (fun _ _ he hi => merged_step hi he.1 he.2) fun _ => .init
    exact ⟨fun func => (hmerged func).single, fun e he =>
      ⟨sound_of_single, fun hs func => (merged_step hmerged he hs func).single⟩⟩

theorem latency_honoured_expired :
    let w := [Event.latencyExec () (some 10), .elapse 3, .latencyExec () (some 2), .elapse 5,
      .expire () 1].foldl step (.init 0)
    Honoured w ∧ Single w := by
  have halong : Along step (fun w e => Enabled w e ∧ Sound w e) (.init 0)
      [Event.latencyExec () (some 10), .elapse 3, .latencyExec () (some 2), .elapse 5,
        .expire () 1] := by decide +kernel
  have hruns := halong.runs
  exact ⟨(latency_honoured 0).1 _ (hruns.mono fun _ _ h => h.1), ((latency_honoured 0).2 _ hruns).1⟩

/-- Two calls with no latency, before the first task begins. -/
theorem called_twice_pending :
    let events : List (Event Unit) := [.latencyExec () (some 0), .latencyExec () (some 0)]
    Along step Enabled (.init 0) events ∧ ((events.foldl step (.init 0)).jobs ()).pending = 2 := by
  decide +kernel

end Mihini.Sched.Latency
