import Mathlib.Logic.Function.Basic
import Mihini.Lib.LuaArray
import Mihini.Lib.Run

/-!
# The shell

`src/luafwk/shell/shell/telnet.lua`: the action loop with its events, the tasks that run lines, and the
job table.
-/

namespace Mihini.Shell

open Mihini.Lib List

abbrev Str := List Char

abbrev Task := Nat

/-! ## The state -/

inductive Key where
  | number (n : Nat)
  | task (t : Task)
  deriving DecidableEq

abbrev Table := Key → Option Key

def Table.array (jobs : Table) : LuaArray Key := fun n => jobs (.number n)

structure Line where
  id : Nat
  text : Str
  deriving DecidableEq

/-- An event for the action loop.  `received` is the number of lines received before. -/
inductive Item where
  | line (l : Line)
  | done
  | interrupt (received : Nat)
  | suspend (received : Nat)
  deriving DecidableEq

structure State where
  fifo : List Item
  linebuf : List Line
  lines : List Str
  foreground : Option Task
  runningjobs : Table
  hooked : List Task
  fresh : Task
  received : Nat
  used : List Nat
  dropped : List (Nat × Nat)
  background : List Task

inductive Loaded where
  | incomplete
  | error
  | code
  deriving DecidableEq

/-- What becomes of a task that is killed: it survives when it has not begun, or catches the kill; else it
has ended, and its results can be shown or not. -/
inductive Outcome where
  | survives
  | ends (shown : Bool)
  deriving DecidableEq

namespace State

def init : State := ⟨[], [], [], none, fun _ => none, [], 0, 0, [], [], []⟩

/-! ## Tasks -/

def signal (s : State) (ev : Item) : State := { s with fifo := s.fifo ++ [ev] }

def putInBackground (s : State) (border : Nat) : State :=
  match s.foreground with
  | none => s
  | some t =>
    let i := border + 1
    { s with
      runningjobs := Function.update (Function.update s.runningjobs (.number i) (some (.task t)))
        (.task t) (some (.number i))
      foreground := none
      background := t :: s.background }

/-- The hook on `die`; no results when the task has set none.  The hook fails when there are no results,
and when they cannot be shown. -/
def die (s : State) (t : Task) (results : Option Bool) : State :=
  if t ∈ s.hooked then
    let s := { s with hooked := s.hooked.erase t }
    if s.foreground = some t then
      let s := { s with foreground := none }
      if results = some true then s.signal .done else s
    else
      match results, s.runningjobs (.task t) with
      | some _, some i =>
        { s with
          runningjobs := Function.update (Function.update s.runningjobs i none) (.task t) none }.signal
            .done
      | _, _ => s
  else s

/-- `sched.kill`, of a task that is not running -/
def kill (s : State) (t : Task) : Outcome → State
  | .survives => s.die t none
  | .ends shown => s.die t (some shown)

/-! ## Lines -/

/-- The pattern `^%s*([&=:])(.*)` -/
def special (line : Str) : Option (Char × Str) :=
  match line.dropWhile (·.isWhitespace) with
  | c :: rest => if c ∈ ['&', '=', ':'] then some (c, rest) else none
  | [] => none

def firstLine (line : Str) : Str :=
  match special line with
  | some ('&', rest) => rest
  | some (_, rest) => "return ".toList ++ rest
  | none => line

def tryToCompileAndRun (load : List Str → Loaded) (s : State) (border : Nat) : State :=
  let background := (s.lines.head?.bind special).any (·.1 = '&')
  let s := { s with lines := s.lines.modifyHead firstLine }
  match load s.lines with
  | .incomplete => s
  | .error => { s with lines := [] }
  | .code =>
    let task := s.fresh
    let s := { s with fresh := task + 1, foreground := some task }
    let s := if background then s.putInBackground border else s
    { s with lines := [], hooked := task :: s.hooked }

/-- What `interrupt` and `suspend` do at last. -/
def clear (s : State) (received : Nat) : State :=
  { s with
    lines := []
    linebuf := []
    dropped := s.linebuf.map (·.id, received) ++ s.dropped }

/-- A turn of `actionloop` for an event; `outcome` is that of the task killed, if there is one. -/
def handle (load : List Str → Loaded) (s : State) (border : Nat) (outcome : Outcome) : Item → State
  | .line l =>
    if s.foreground = none then
      { s with lines := s.lines ++ [l.text], used := s.used ++ [l.id] }.tryToCompileAndRun load border
    else { s with linebuf := s.linebuf ++ [l] }
  | .done => { s with fifo := s.fifo ++ s.linebuf.map .line, linebuf := [] }
  | .interrupt received =>
    let s := match s.foreground with
      | none => s
      | some t => { s.kill t outcome with foreground := none }
    s.clear received
  | .suspend received => (s.putInBackground border).clear received

end State

/-! ## Runs -/

inductive Event where
  | receive (text : Str)
  | interrupt
  | suspend
  | turn (border : Nat) (outcome : Outcome)
  | finish (t : Task) (shown : Bool)
  /-- A task calls `killjob`. -/
  | killjob (jobid : Nat) (outcome : Outcome)
  deriving DecidableEq

open State

def step (load : List Str → Loaded) (s : State) : Event → State
  | .receive text =>
    { s with received := s.received + 1 }.signal (.line ⟨s.received, text⟩)
  | .interrupt => s.signal (.interrupt s.received)
  | .suspend => s.signal (.suspend s.received)
  | .turn border outcome =>
    match s.fifo with
    | [] => s
    | item :: fifo => { s with fifo := fifo }.handle load border outcome item
  | .finish t shown => s.die t (some shown)
  | .killjob jobid outcome =>
    match s.runningjobs (.number jobid) with
    | some (.task t) => s.kill t outcome
    | _ => s

def Enabled (s : State) : Event → Prop
  | .turn border _ => s.runningjobs.array.IsBorder border
  | _ => True

instance (s : State) : DecidablePred (Enabled s)
  | .turn _ _ => inferInstanceAs (Decidable (LuaArray.IsBorder _ _))
  | .receive _ | .interrupt | .suspend | .finish _ _ | .killjob _ _ => isTrue trivial

/-! ## What ends a task -/

namespace State

/-- The task of the foreground is forgotten, a job is taken off the table, or the hook fails. -/
theorem die_cases (s : State) (t : Task) (results : Option Bool) :
    (t ∉ s.hooked ∧ s.die t results = s) ∨
    (t ∈ s.hooked ∧ s.foreground = some t ∧ s.die t results =
      { s with
        hooked := s.hooked.erase t
        foreground := none
        fifo := s.fifo ++ if results = some true then [.done] else [] }) ∨
    (t ∈ s.hooked ∧ s.foreground ≠ some t ∧ results ≠ none ∧
      ∃ i, s.runningjobs (.task t) = some i ∧ s.die t results =
        { s with
          hooked := s.hooked.erase t
          runningjobs := Function.update (Function.update s.runningjobs i none) (.task t) none
          fifo := s.fifo ++ [.done] }) ∨
    (t ∈ s.hooked ∧ s.foreground ≠ some t ∧ (results = none ∨ s.runningjobs (.task t) = none) ∧
      s.die t results = { s with hooked := s.hooked.erase t }) := by
  by_cases hhooked : t ∈ s.hooked
  · refine .inr ?_
    rw [die, if_pos hhooked]
    by_cases hforeground : s.foreground = some t
    · refine .inl ⟨hhooked, hforeground, ?_⟩
      simp only
      rw [if_pos hforeground]
      by_cases hshown : results = some true
      · rw [if_pos hshown, if_pos hshown]
        rfl
      · rw [if_neg hshown, if_neg hshown, append_nil]
    · refine .inr ?_
      simp only
      rw [if_neg hforeground]
      cases results with
      | none => exact .inr ⟨hhooked, hforeground, .inl rfl, rfl⟩
      | some shown =>
        cases hjob : s.runningjobs (.task t) with
        | none => exact .inr ⟨hhooked, hforeground, .inr rfl, rfl⟩
        | some i => exact .inl ⟨hhooked, hforeground, nofun, i, rfl, rfl⟩
  · exact .inl ⟨hhooked, if_neg hhooked⟩

theorem foreground_die {s : State} {t : Task} (hfg : s.foreground = some t) (hhooked : t ∈ s.hooked)
    (results : Option Bool) : (s.die t results).foreground = none := by
  rcases s.die_cases t results with ⟨hnot, -⟩ | ⟨-, -, heq⟩ | ⟨-, hne, -⟩ | ⟨-, hne, -⟩
  · exact absurd hhooked hnot
  · rw [heq]
  · exact absurd hfg hne
  · exact absurd hfg hne

theorem foreground_kill {s : State} {t : Task} (hfg : s.foreground = some t) (hhooked : t ∈ s.hooked)
    (outcome : Outcome) : (s.kill t outcome).foreground = none := by
  cases outcome with
  | survives => exact foreground_die hfg hhooked _
  | ends shown => exact foreground_die hfg hhooked _

theorem tryToCompileAndRun_cases (load : List Str → Loaded) (s : State) (border : Nat) :
    (∃ lines, s.tryToCompileAndRun load border = { s with lines := lines }) ∨
    (s.tryToCompileAndRun load border =
      { s with
        lines := []
        fresh := s.fresh + 1
        foreground := some s.fresh
        hooked := s.fresh :: s.hooked }) ∨
    s.tryToCompileAndRun load border =
      { s with
        lines := []
        fresh := s.fresh + 1
        foreground := none
        runningjobs := Function.update (Function.update s.runningjobs (.number (border + 1))
          (some (.task s.fresh))) (.task s.fresh) (some (.number (border + 1)))
        background := s.fresh :: s.background
        hooked := s.fresh :: s.hooked } := by
  unfold tryToCompileAndRun
  simp only
  split
  · exact .inl ⟨_, rfl⟩
  · exact .inl ⟨_, rfl⟩
  · cases (s.lines.head?.bind special).any (·.1 = '&') with
    | false => exact .inr (.inl rfl)
    | true => exact .inr (.inr rfl)

end State

/-! ## Tasks of the shell -/

structure Tasks (s : State) : Prop where
  old : ∀ t ∈ s.hooked, t < s.fresh
  old_background : ∀ t ∈ s.background, t < s.fresh
  nodup : s.hooked.Nodup
  foreground : ∀ t, s.foreground = some t → t ∈ s.hooked ∧ t ∉ s.background
  single : ∀ t ∈ s.hooked, t ∉ s.background → s.foreground = some t

namespace Tasks

variable {s : State}

theorem init : Tasks .init := ⟨nofun, nofun, .nil, nofun, nofun⟩

theorem congr {s' : State} (h : Tasks s) (hhooked : s'.hooked = s.hooked) (hfresh : s'.fresh = s.fresh)
    (hbackground : s'.background = s.background) (hforeground : s'.foreground = s.foreground) :
    Tasks s' := by
  constructor <;> simp only [hhooked, hfresh, hbackground, hforeground]
  · exact h.old
  · exact h.old_background
  · exact h.nodup
  · exact h.foreground
  · exact h.single

theorem die (h : Tasks s) (t : Task) (results : Option Bool) : Tasks (s.die t results) := by
  have hold : ∀ t' ∈ s.hooked.erase t, t' < s.fresh := fun t' ht => h.old t' (mem_of_mem_erase ht)
  have hother : s.foreground ≠ some t → ∀ t', s.foreground = some t' →
      t' ∈ s.hooked.erase t ∧ t' ∉ s.background := by
    intro hne t' ht'
    obtain ⟨hhooked, hback⟩ := h.foreground t' ht'
    have htt : t' ≠ t := by
      rintro rfl
      exact hne ht'
    exact ⟨(mem_erase_of_ne htt).mpr hhooked, hback⟩
  have hsingle : ∀ t' ∈ s.hooked.erase t, t' ∉ s.background → s.foreground = some t' :=
    fun t' ht => h.single t' (mem_of_mem_erase ht)
  rcases s.die_cases t results with ⟨-, heq⟩ | ⟨-, hfg, heq⟩ | ⟨-, hne, -, i, -, heq⟩ | ⟨-, hne, -, heq⟩
  · rwa [heq]
  · rw [heq]
    refine ⟨hold, h.old_background, h.nodup.erase t, nofun, fun t' ht' hback => ?_⟩
    have htt := Option.some.inj (hfg.symm.trans (hsingle t' ht' hback))
    exact absurd htt.symm (h.nodup.mem_erase_iff.mp ht').1
  · rw [heq]
    exact ⟨hold, h.old_background, h.nodup.erase t, hother hne, hsingle⟩
  · rw [heq]
    exact ⟨hold, h.old_background, h.nodup.erase t, hother hne, hsingle⟩

theorem kill (h : Tasks s) (t : Task) (outcome : Outcome) : Tasks (s.kill t outcome) := by
  cases outcome with
  | survives => exact h.die t _
  | ends shown => exact h.die t _

theorem putInBackground (h : Tasks s) (border : Nat) : Tasks (s.putInBackground border) := by
  unfold State.putInBackground
  cases hfg : s.foreground with
  | none => exact h
  | some t =>
    obtain ⟨hhooked, -⟩ := h.foreground t hfg
    refine ⟨h.old, ?_, h.nodup, nofun, ?_⟩
    · intro t' ht'
      rcases mem_cons.mp ht' with rfl | ht'
      · exact h.old _ hhooked
      · exact h.old_background t' ht'
    · intro t' ht' hback
      have hsingle := h.single t' ht' (not_mem_of_not_mem_cons hback)
      exact absurd (Option.some.inj (hfg.symm.trans hsingle)).symm (ne_of_not_mem_cons hback)

theorem tryToCompileAndRun (h : Tasks s) (hfg : s.foreground = none) (load : List Str → Loaded)
    (border : Nat) : Tasks (s.tryToCompileAndRun load border) := by
  have hnone : ∀ t ∈ s.hooked, t ∈ s.background := by
    intro t ht
    by_contra hback
    rw [h.single t ht hback] at hfg
    cases hfg
  have hold : ∀ t ∈ s.fresh :: s.hooked, t < s.fresh + 1 := by
    intro t ht
    rcases mem_cons.mp ht with rfl | ht
    · exact Nat.lt_succ_self _
    · exact Nat.lt_succ_of_lt (h.old t ht)
  have hnodup : (s.fresh :: s.hooked).Nodup :=
    nodup_cons.mpr ⟨fun hmem => Nat.lt_irrefl _ (h.old _ hmem), h.nodup⟩
  rcases s.tryToCompileAndRun_cases load border with ⟨lines, heq⟩ | heq | heq
  · rw [heq]
    exact h.congr rfl rfl rfl rfl
  · rw [heq]
    refine ⟨hold, fun t ht => Nat.lt_succ_of_lt (h.old_background t ht), hnodup, ?_, ?_⟩
    · intro t ht
      obtain rfl := Option.some.inj ht
      exact ⟨mem_cons_self .., fun hmem => Nat.lt_irrefl _ (h.old_background _ hmem)⟩
    · intro t ht hback
      rcases mem_cons.mp ht with rfl | ht
      · rfl
      · exact absurd (hnone t ht) hback
  · rw [heq]
    refine ⟨hold, ?_, hnodup, nofun, ?_⟩
    · intro t ht
      rcases mem_cons.mp ht with rfl | ht
      · exact Nat.lt_succ_self _
      · exact Nat.lt_succ_of_lt (h.old_background t ht)
    · intro t ht hback
      rcases mem_cons.mp ht with rfl | ht
      · exact absurd rfl (ne_of_not_mem_cons hback)
      · exact absurd (hnone t ht) (not_mem_of_not_mem_cons hback)

theorem handle (h : Tasks s) (load : List Str → Loaded) (border : Nat) (outcome : Outcome)
    (item : Item) : Tasks (s.handle load border outcome item) := by
  cases item with
  | line l =>
    unfold State.handle
    simp only
    split
    · rename_i hfg
      have hused : Tasks { s with lines := s.lines ++ [l.text], used := s.used ++ [l.id] } :=
        h.congr rfl rfl rfl rfl
      exact tryToCompileAndRun hused hfg load border
    · exact h.congr rfl rfl rfl rfl
  | done => exact h.congr rfl rfl rfl rfl
  | interrupt received =>
    unfold State.handle
    simp only
    cases hfg : s.foreground with
    | none => exact h.congr rfl rfl rfl rfl
    | some t =>
      have hnone := State.foreground_kill hfg (h.foreground t hfg).1 outcome
      exact (h.kill t outcome).congr rfl rfl rfl hnone.symm
  | suspend received => exact (h.putInBackground border).congr rfl rfl rfl rfl

theorem step (h : Tasks s) (load : List Str → Loaded) (e : Event) : Tasks (step load s e) := by
  cases e with
  | receive _ | interrupt | suspend => exact h.congr rfl rfl rfl rfl
  | turn border outcome =>
    unfold Shell.step
    cases s.fifo with
    | nil => exact h
    | cons item fifo =>
      have hrest : Tasks { s with fifo := fifo } := h.congr rfl rfl rfl rfl
      exact handle hrest load border outcome item
  | finish t shown => exact h.die t _
  | killjob jobid outcome =>
    unfold Shell.step
    simp only
    split
    · exact h.kill _ outcome
    · exact h

end Tasks

end Mihini.Shell
