import Mihini.Lib.Run
import Mihini.Sched.Pipe

/-!
# Tasks on pipes

Any number of tasks send to and receive from any number of pipes.  An operation that
cannot proceed registers a cell for the `'state'` signal of its pipe and starts again when
it is resumed; a change of the state word takes all these cells at once.  Hooks run while
such a signal is delivered, and may use the pipes as well, as long as they do not block.
-/

set_option linter.unusedSectionVars false

namespace Mihini.Sched.PipeTasks

open Mihini.Lib Function List

variable {ι τ α : Type}

inductive Task (ι α : Type) where
  | outside
  | blocked (i : ι) (op : PipeOp α) (timed : Bool)
  | dead

inductive Wake where
  | state
  | timeout
deriving DecidableEq, Repr

structure Frame (τ : Type) where
  todo : List τ
  wokenup : List τ

structure World (ι τ α : Type) where
  pipes : ι → Pipe α
  waiting : ι → List τ
  signals : List (Frame τ)
  ready : List (τ × Wake)
  tasks : τ → Task ι α
  log : ι → List (PipeOp α × PipeResult α)

def init (maxlength : ι → Option ℚ) : World ι τ α where
  pipes i := Pipe.new (maxlength i)
  waiting _ := []
  signals := []
  ready := []
  tasks _ := .outside
  log _ := []

inductive Event (ι τ α : Type) where
  /-- A task calls an operation; `timed` when it gives a timeout, `expired` when that
  timeout is not positive, `border` what `#content` gives. -/
  | call (t : τ) (i : ι) (op : PipeOp α) (timed expired : Bool) (border : Nat)
  /-- A hook or a timer callback calls an operation. -/
  | callback (i : ι) (op : PipeOp α) (border : Nat)
  | deliver
  | finish
  /-- `sched.step` resumes the first ready task. -/
  | resume (expired : Bool) (border : Nat)
  | timeout (t : τ)
  | kill (t : τ)

variable [DecidableEq ι] [DecidableEq τ]

namespace World

variable (s : World ι τ α)

def commit (i : ι) (op : PipeOp α) (p : Pipe α) (signal : Option PipeState)
    (r : PipeResult α) : World ι τ α :=
  { s with
    pipes := update s.pipes i p
    log := update s.log i (s.log i ++ [(op, r)])
    waiting := if signal.isSome then update s.waiting i [] else s.waiting
    signals := if signal.isSome then ⟨s.waiting i, []⟩ :: s.signals else s.signals }

def leave (t : τ) (a : Task ι α) : World ι τ α :=
  { s with tasks := update s.tasks t a }

/-- One pass of task `t` through the loop of an operation. -/
def attempt (t : τ) (i : ι) (op : PipeOp α) (timed expired : Bool) (border : Nat) :
    World ι τ α :=
  match (s.pipes i).run border op with
  | .done p signal r => (s.commit i op p signal r).leave t .outside
  | .wait =>
    if timed && expired then s.leave t .outside
    else
      { s.leave t (.blocked i op timed) with
        waiting := update s.waiting i (s.waiting i ++ [t]) }
  | .refused _ => s.leave t .outside
  | .raised _ => s.leave t .outside

def dropCell (t : τ) : World ι τ α :=
  { s with
    waiting := fun i => (s.waiting i).filter (· ≠ t)
    signals := s.signals.map fun f => { f with todo := f.todo.filter (· ≠ t) } }

end World

def step (s : World ι τ α) : Event ι τ α → World ι τ α
  | .call t i op timed expired border => s.attempt t i op timed expired border
  | .callback i op border =>
    match (s.pipes i).run border op with
    | .done p signal r => s.commit i op p signal r
    | _ => s
  | .deliver =>
    match s.signals with
    | ⟨t :: todo, wokenup⟩ :: fs => { s with signals := ⟨todo, wokenup ++ [t]⟩ :: fs }
    | _ => s
  | .finish =>
    match s.signals with
    | ⟨[], wokenup⟩ :: fs =>
      { s with signals := fs, ready := s.ready ++ wokenup.map (·, Wake.state) }
    | _ => s
  | .resume expired border =>
    match s.ready with
    | [] => s
    | (t, w) :: ready =>
      let s := { s with ready := ready }
      match s.tasks t with
      | .blocked i op timed =>
        if w = .timeout then s.leave t .outside else s.attempt t i op timed expired border
      | _ => s
  | .timeout t => { s.dropCell t with ready := s.ready ++ [(t, .timeout)] }
  | .kill t => (s.dropCell t).leave t .dead

/-- The operation an event runs, with what `#content` gives in it. -/
def operation (s : World ι τ α) : Event ι τ α → Option (ι × PipeOp α × Nat)
  | .call _ i op _ _ border => some (i, op, border)
  | .callback i op border => some (i, op, border)
  | .resume _ border =>
    match s.ready with
    | [] => none
    | (t, w) :: _ =>
      match s.tasks t with
      | .blocked i op _ => if w = .timeout then none else some (i, op, border)
      | _ => none
  | _ => none

/-- What the interpreter and the scheduler grant: tasks run when no signal is being
delivered, a callback does not block, only a wait with a timeout has a timer, and the
length operator gives a border. -/
def Enabled (s : World ι τ α) (e : Event ι τ α) : Prop :=
  (∀ i op border, operation s e = some (i, op, border) →
    LuaArray.IsBorder ((s.pipes i).measured op) border) ∧
  match e with
  | .call t _ _ _ _ _ => s.signals = [] ∧ s.tasks t = .outside
  | .callback i op border => (s.pipes i).run border op ≠ .wait
  | .deliver => True
  | .finish => True
  | .resume _ _ => s.signals = []
  | .timeout t => s.signals = [] ∧ ∃ i op, s.tasks t = .blocked i op true ∧ t ∈ s.waiting i
  | .kill _ => True

/-- What a step does to the pipes: nothing, or the operation of the event returns. -/
theorem step_pipes (s : World ι τ α) (e : Event ι τ α) :
    ((step s e).pipes = s.pipes ∧ (step s e).log = s.log) ∨
    ∃ i op border p signal r, operation s e = some (i, op, border) ∧
      (s.pipes i).run border op = .done p signal r ∧
      (step s e).pipes = update s.pipes i p ∧
      (step s e).log = update s.log i (s.log i ++ [(op, r)]) := by
  have hattempt : ∀ (s : World ι τ α) t i op timed expired border,
      ((s.attempt t i op timed expired border).pipes = s.pipes ∧
        (s.attempt t i op timed expired border).log = s.log) ∨
      ∃ p signal r, (s.pipes i).run border op = .done p signal r ∧
        (s.attempt t i op timed expired border).pipes = update s.pipes i p ∧
        (s.attempt t i op timed expired border).log =
          update s.log i (s.log i ++ [(op, r)]) := by
    intro s t i op timed expired border
    simp only [World.attempt]
    split
    · rename_i p signal r hrun
      exact Or.inr ⟨p, signal, r, hrun, rfl, rfl⟩
    · split <;> exact Or.inl ⟨rfl, rfl⟩
    · exact Or.inl ⟨rfl, rfl⟩
    · exact Or.inl ⟨rfl, rfl⟩
  cases e with
  | call t i op timed expired border =>
    rcases hattempt s t i op timed expired border with h | ⟨p, signal, r, h⟩
    · exact Or.inl h
    · exact Or.inr ⟨i, op, border, p, signal, r, rfl, h⟩
  | callback i op border =>
    simp only [step]
    split
    · rename_i p signal r hrun
      exact Or.inr ⟨i, op, border, p, signal, r, rfl, hrun, rfl, rfl⟩
    · exact Or.inl ⟨rfl, rfl⟩
  | deliver =>
    simp only [step]
    split <;> exact Or.inl ⟨rfl, rfl⟩
  | finish =>
    simp only [step]
    split <;> exact Or.inl ⟨rfl, rfl⟩
  | resume expired border =>
    simp only [step, operation]
    split
    · exact Or.inl ⟨rfl, rfl⟩
    rename_i t w ready hready
    split
    · rename_i i op timed htask
      split
      · exact Or.inl ⟨rfl, rfl⟩
      · rcases hattempt { s with ready := ready } t i op timed expired border with
          h | ⟨p, signal, r, h⟩
        · exact Or.inl h
        · exact Or.inr ⟨i, op, border, p, signal, r, rfl, h⟩
    · exact Or.inl ⟨rfl, rfl⟩
  | timeout t => exact Or.inl ⟨rfl, rfl⟩
  | kill t => exact Or.inl ⟨rfl, rfl⟩

/-! ## The pipes are queues -/

/-- Every reset finds an untouched or recompacted pipe, every maximum is whole. -/
def Meets (s : World ι τ α) (e : Event ι τ α) : Prop :=
  ∀ i op border, operation s e = some (i, op, border) → (s.pipes i).Meets op

/-- A pipe holds the pending values of the queue that made the operations of the log, and
the log has the results of that queue. -/
structure Refines (p : Pipe α) (log : List (PipeOp α × PipeResult α)) : Prop where
  holds : p.Holds (Fifo.run (log.map Prod.fst)).1
  results : log.map Prod.snd = (Fifo.run (log.map Prod.fst)).2

theorem Refines.snoc {p p' : Pipe α} {log : List (PipeOp α × PipeResult α)} {border : Nat}
    {op : PipeOp α} {signal : Option PipeState} {r : PipeResult α} (h : Refines p log)
    (hb : LuaArray.IsBorder (p.measured op) border) (hm : p.Meets op)
    (hrun : p.run border op = .done p' signal r) : Refines p' (log ++ [(op, r)]) := by
  obtain ⟨hr, hholds⟩ := Pipe.run_holds h.holds hb hm hrun
  constructor
  · rw [map_append, map_singleton, Fifo.run_snoc]
    exact hholds
  · rw [map_append, map_append, map_singleton, map_singleton,
      Fifo.run_snoc, h.results, hr]

theorem step_refines (s : World ι τ α) (e : Event ι τ α) (he : Enabled s e ∧ Meets s e)
    (h : ∀ i, Refines (s.pipes i) (s.log i)) (i : ι) :
    Refines ((step s e).pipes i) ((step s e).log i) := by
  rcases step_pipes s e with ⟨hp, hl⟩ | ⟨j, op, border, p, signal, r, hop, hrun, hp, hl⟩
  · rw [hp, hl]
    exact h i
  · rw [hp, hl]
    by_cases hij : i = j
    · subst hij
      rw [update_self, update_self]
      exact (h i).snoc (he.1.1 i op border hop) (he.2 i op border hop) hrun
    · rw [update_of_ne hij, update_of_ne hij]
      exact h i

/-- In every run whose resets find an empty table and whose maxima are whole numbers, the
results of the operations on a pipe are those of the queue, `length` is the number of
pending values, and it does not exceed the maximum. -/
theorem pipes_refine_fifo (maxlength : ι → Option ℚ) (hmax : ∀ i, Pipe.WholeMax (maxlength i))
    {s : World ι τ α}
    (h : Runs step (fun s e => Enabled s e ∧ Meets s e) (init maxlength) s) (i : ι) :
    (s.log i).map Prod.snd = (Fifo.run ((s.log i).map Prod.fst)).2 ∧
    (s.pipes i).length = (Fifo.run ((s.log i).map Prod.fst)).1.length ∧
    ∀ m, (s.pipes i).maxlength = some m → ((s.pipes i).length : ℚ) ≤ m := by
  have hinv : ∀ i, Refines (s.pipes i) (s.log i) :=
    Runs.invariant (I := fun s : World ι τ α => ∀ i, Refines (s.pipes i) (s.log i))
      step_refines h (fun i => ⟨Pipe.Holds.new (hmax i), rfl⟩)
  have hlen := (hinv i).holds.stores.length_eq
  refine ⟨(hinv i).results, hlen, ?_⟩
  intro m hm
  rw [hlen]
  exact (hinv i).holds.bounded.le m hm

theorem isBorder_zero {t : LuaArray (Slot α)} (h : t 1 = none) : LuaArray.IsBorder t 0 :=
  ⟨Or.inl rfl, h⟩

def echo : List (Event Unit Unit Nat) :=
  [.call () () .reset false false 0, .call () () (.send 5) false false 0, .finish,
    .call () () .receive false false 1]

theorem pipes_refine_fifo_echo :
    ((echo.foldl step (init fun _ => some 1)).log ()).map Prod.fst =
      [.reset, .send 5, .receive] ∧
    ((echo.foldl step (init fun _ => some 1)).log ()).map Prod.snd =
      (Fifo.run [.reset, .send 5, .receive]).2 := by
  refine ⟨rfl, (pipes_refine_fifo (fun _ => some 1) ?_ (Along.runs ?_) ()).1⟩
  · intro i x hx
    cases hx
    exact ⟨1, Nat.le_refl 1, by norm_num⟩
  · refine ⟨⟨⟨?_, rfl, rfl⟩, ?_⟩, ⟨⟨?_, rfl, rfl⟩, ?_⟩, ⟨⟨?_, trivial⟩, ?_⟩,
      ⟨⟨?_, rfl, rfl⟩, ?_⟩, trivial⟩
    · rintro i op border ⟨⟩
      exact isBorder_zero rfl
    · rintro i op border ⟨⟩
      exact ⟨rfl, rfl⟩
    · rintro i op border ⟨⟩
      exact isBorder_zero rfl
    · rintro i op border ⟨⟩
      trivial
    · rintro i op border ⟨⟩
    · rintro i op border ⟨⟩
    · rintro i op border ⟨⟩
      exact ⟨Or.inr rfl, rfl⟩
    · rintro i op border ⟨⟩
      trivial

/-- After a value is sent, `reset` returns it and the pipe still counts it. -/
theorem reset_keeps_length :
    ¬ ∀ s : World Unit Unit Nat, Runs step Enabled (init fun _ => none) s → ∀ i,
      (s.log i).map Prod.snd = (Fifo.run ((s.log i).map Prod.fst)).2 ∧
      (s.pipes i).length = (Fifo.run ((s.log i).map Prod.fst)).1.length ∧
      ∀ m, (s.pipes i).maxlength = some m → ((s.pipes i).length : ℚ) ≤ m := by
  intro hall
  have hrun : Along step Enabled (init fun _ => none : World Unit Unit Nat)
      [.call () () (.send 7) false false 0, .finish, .call () () .reset false false 1] := by
    refine ⟨⟨?_, rfl, rfl⟩, ⟨?_, trivial⟩, ⟨?_, rfl, rfl⟩, trivial⟩
    · rintro i op border ⟨⟩
      exact isBorder_zero rfl
    · rintro i op border ⟨⟩
    · rintro i op border ⟨⟩
      exact ⟨Or.inr rfl, rfl⟩
  have hlen := (hall _ hrun.runs ()).2.1
  have hone : ∀ n, n = 1 → n ≠ 0 := by omega
  exact hone _ rfl hlen

/-! ## No task is forgotten -/

def Listed (s : World ι τ α) (t : τ) : Prop :=
  ∀ i op timed, s.tasks t = .blocked i op timed →
    t ∈ s.waiting i ∨ (∃ f ∈ s.signals, t ∈ f.todo ∨ t ∈ f.wokenup) ∨ ∃ w, (t, w) ∈ s.ready

/-- The cells that are registered are those of operations that still have to wait. -/
structure Sound (s : World ι τ α) : Prop where
  synced : ∀ i, (s.pipes i).Synced
  waits : ∀ t i op timed, t ∈ s.waiting i → s.tasks t = .blocked i op timed →
    Pipe.Waits (s.pipes i).state op

variable {s : World ι τ α}

theorem Sound.leave (h : Sound s) {t : τ} {a : Task ι α}
    (ha : ∀ i op timed, a = .blocked i op timed → Pipe.Waits (s.pipes i).state op) :
    Sound (s.leave t a) := by
  refine ⟨h.synced, ?_⟩
  intro t' i op timed hmem htask
  by_cases ht : t' = t
  · subst ht
    simp only [World.leave, update_self] at htask
    exact ha i op timed htask
  · simp only [World.leave, update_of_ne ht] at htask
    exact h.waits t' i op timed hmem htask

variable {t t' : τ}

theorem Listed.leave {a : Task ι α}
    (ha : ∀ i op timed, a ≠ .blocked i op timed) (h : t' ≠ t → Listed s t') :
    Listed (s.leave t a) t' := by
  intro i op timed htask
  by_cases ht : t' = t
  · subst ht
    simp only [World.leave, update_self] at htask
    exact absurd htask (ha i op timed)
  · simp only [World.leave, update_of_ne ht] at htask
    exact h ht i op timed htask

theorem Sound.commit (h : Sound s) {i : ι} {op : PipeOp α} {p : Pipe α}
    {signal : Option PipeState} {r : PipeResult α}
    (ha : Pipe.Announced (s.pipes i) p signal) : Sound (s.commit i op p signal r) := by
  constructor
  · intro j
    by_cases hj : j = i
    · subst hj
      simp only [World.commit, update_self]
      exact ha.synced
    · simp only [World.commit, update_of_ne hj]
      exact h.synced j
  · intro t j op' timed hmem htask
    by_cases hj : j = i
    · subst hj
      simp only [World.commit, update_self]
      cases signal with
      | none =>
        rw [ha.silent rfl]
        exact h.waits t j op' timed hmem htask
      | some w => simp [World.commit] at hmem
    · simp only [World.commit, update_of_ne hj]
      apply h.waits t j op' timed _ htask
      cases signal with
      | none => exact hmem
      | some w => simpa [World.commit, update_of_ne hj] using hmem

theorem Listed.commit {t : τ} (h : Listed s t) (i : ι) (op : PipeOp α)
    (p : Pipe α) (signal : Option PipeState) (r : PipeResult α) :
    Listed (s.commit i op p signal r) t := by
  cases signal with
  | none => exact h
  | some w =>
    intro j op' timed htask
    rcases h j op' timed htask with hmem | ⟨f, hf, hft⟩ | hready
    · by_cases hj : j = i
      · subst hj
        exact Or.inr (Or.inl ⟨⟨s.waiting j, []⟩, mem_cons_self, Or.inl hmem⟩)
      · left
        simpa [World.commit, update_of_ne hj] using hmem
    · exact Or.inr (Or.inl ⟨f, mem_cons_of_mem _ hf, hft⟩)
    · exact Or.inr (Or.inr hready)

theorem Sound.attempt (h : Sound s) (t : τ) (i : ι) (op : PipeOp α)
    (timed expired : Bool) (border : Nat) :
    Sound (s.attempt t i op timed expired border) := by
  have hout : Sound (s.leave t .outside) := h.leave (by intro i op timed hne; cases hne)
  simp only [World.attempt]
  split
  · rename_i p signal r hrun
    apply (h.commit (Pipe.run_announced (h.synced i) hrun)).leave
    intro j op' timed' hne
    cases hne
  · rename_i hrun
    split
    · exact hout
    have hblocked := h.leave (t := t) (a := .blocked i op timed) (by
      rintro j op' timed' ⟨⟩
      exact Pipe.run_wait (h.synced i) hrun)
    refine ⟨h.synced, ?_⟩
    intro t' j op' timed' hmem htask
    by_cases ht : t' = t
    · subst ht
      simp only [World.leave, update_self] at htask
      cases htask
      exact Pipe.run_wait (h.synced i) hrun
    · apply hblocked.waits t' j op' timed' _ htask
      by_cases hj : j = i
      · subst hj
        simpa [ht, World.leave] using hmem
      · simpa [World.leave, update_of_ne hj] using hmem
  · exact hout
  · exact hout

theorem Listed.attempt (h : t' ≠ t → Listed s t') (i : ι)
    (op : PipeOp α) (timed expired : Bool) (border : Nat) :
    Listed (s.attempt t i op timed expired border) t' := by
  have hout : Listed (s.leave t .outside) t' := Listed.leave (by intro i op timed; simp) h
  simp only [World.attempt]
  split
  · rename_i p signal r hrun
    exact Listed.leave (by intro i op timed; simp) (fun ht => (h ht).commit i op p signal r)
  · split
    · exact hout
    · intro j op' timed' htask
      by_cases ht : t' = t
      · subst ht
        simp only [World.leave, update_self] at htask
        cases htask
        left
        simp
      · simp only [World.leave, update_of_ne ht] at htask
        rcases h ht j op' timed' htask with hmem | hrest
        · left
          by_cases hj : j = i
          · subst hj
            simp [hmem]
          · simpa [update_of_ne hj] using hmem
        · exact Or.inr hrest
  · exact hout
  · exact hout

theorem Sound.dropCell (h : Sound s) (t : τ) : Sound (s.dropCell t) := by
  refine ⟨h.synced, ?_⟩
  intro t' i op timed hmem htask
  exact h.waits t' i op timed (mem_filter.mp hmem).1 htask

theorem Listed.dropCell (ht : t' ≠ t) (h : Listed s t') :
    Listed (s.dropCell t) t' := by
  intro i op timed htask
  rcases h i op timed htask with hmem | ⟨f, hf, hft⟩ | hready
  · exact Or.inl (mem_filter.mpr ⟨hmem, by simpa using ht⟩)
  · refine Or.inr (Or.inl ⟨_, mem_map_of_mem hf, ?_⟩)
    rcases hft with htodo | hwoken
    · exact Or.inl (mem_filter.mpr ⟨htodo, by simpa using ht⟩)
    · exact Or.inr hwoken
  · exact Or.inr (Or.inr hready)

theorem step_sound (s : World ι τ α) (e : Event ι τ α) (h : Sound s) : Sound (step s e) := by
  cases e with
  | call t i op timed expired border => exact h.attempt t i op timed expired border
  | callback i op border =>
    simp only [step]
    split
    · rename_i p signal r hrun
      exact h.commit (Pipe.run_announced (h.synced i) hrun)
    · exact h
  | deliver =>
    simp only [step]
    split
    · exact ⟨h.synced, h.waits⟩
    · exact h
  | finish =>
    simp only [step]
    split
    · exact ⟨h.synced, h.waits⟩
    · exact h
  | resume expired border =>
    simp only [step]
    split
    · exact h
    rename_i t w ready hready
    have hs : Sound { s with ready := ready } := ⟨h.synced, h.waits⟩
    split
    · rename_i i op timed htask
      split
      · exact hs.leave (by intro i op timed hne; cases hne)
      · exact hs.attempt t i op timed expired border
    · exact hs
  | timeout t =>
    have hs := h.dropCell t
    exact ⟨hs.synced, hs.waits⟩
  | kill t => exact (h.dropCell t).leave (by intro i op timed hne; cases hne)

theorem step_listed (s : World ι τ α) (e : Event ι τ α) (h : ∀ t, Listed s t) (t' : τ) :
    Listed (step s e) t' := by
  cases e with
  | call t i op timed expired border =>
    exact Listed.attempt (fun _ => h t') i op timed expired border
  | callback i op border =>
    simp only [step]
    split
    · exact (h t').commit i op _ _ _
    · exact h t'
  | deliver =>
    simp only [step]
    split
    · rename_i t todo wokenup fs hsig
      intro i op timed htask
      rcases h t' i op timed htask with hmem | ⟨f, hf, hft⟩ | hready
      · exact Or.inl hmem
      · right
        left
        rw [hsig] at hf
        rcases mem_cons.mp hf with rfl | hfs
        · refine ⟨_, mem_cons_self, ?_⟩
          rcases hft with htodo | hwoken
          · rcases mem_cons.mp htodo with rfl | htail
            · right
              simp
            · exact Or.inl htail
          · right
            simp [hwoken]
        · exact ⟨f, mem_cons_of_mem _ hfs, hft⟩
      · exact Or.inr (Or.inr hready)
    · exact h t'
  | finish =>
    simp only [step]
    split
    · rename_i wokenup fs hsig
      intro i op timed htask
      rcases h t' i op timed htask with hmem | ⟨f, hf, hft⟩ | ⟨w, hw⟩
      · exact Or.inl hmem
      · right
        rw [hsig] at hf
        rcases mem_cons.mp hf with rfl | hfs
        · right
          refine ⟨.state, ?_⟩
          simpa using Or.inr hft
        · exact Or.inl ⟨f, hfs, hft⟩
      · exact Or.inr (Or.inr ⟨w, mem_append_left _ hw⟩)
    · exact h t'
  | resume expired border =>
    simp only [step]
    split
    · exact h t'
    rename_i t w ready hready
    -- only the resumed task loses its entry
    have hs : t' ≠ t → Listed { s with ready := ready } t' := by
      intro ht i op timed htask
      rcases h t' i op timed htask with hmem | hsig | ⟨w', hw⟩
      · exact Or.inl hmem
      · exact Or.inr (Or.inl hsig)
      · rw [hready] at hw
        rcases mem_cons.mp hw with heq | hw
        · exact absurd (congrArg Prod.fst heq) ht
        · exact Or.inr (Or.inr ⟨w', hw⟩)
    split
    · rename_i i op timed htask
      split
      · exact Listed.leave (by intro i op timed; simp) hs
      · exact Listed.attempt hs i op timed expired border
    · rename_i hblocked
      by_cases ht : t' = t
      · subst ht
        intro i op timed htask
        exact absurd htask (hblocked i op timed)
      · exact hs ht
  | timeout t =>
    by_cases ht : t' = t
    · subst ht
      intro i op timed htask
      exact Or.inr (Or.inr ⟨.timeout, by simp [step]⟩)
    intro i op timed htask
    rcases (h t').dropCell ht i op timed htask with hmem | hsig | ⟨w, hw⟩
    · exact Or.inl hmem
    · exact Or.inr (Or.inl hsig)
    · exact Or.inr (Or.inr ⟨w, mem_append_left _ hw⟩)
  | kill t => exact Listed.leave (by intro i op timed; simp) (fun ht => (h t').dropCell ht)

/-- When no task is ready and no signal is being delivered, a task blocked in `receive`
faces an empty pipe and one blocked in `send` a full one. -/
theorem blocked_on_unusable (maxlength : ι → Option ℚ) {s : World ι τ α}
    (h : Runs step Enabled (init maxlength) s) (hready : s.ready = [])
    (hsignals : s.signals = []) (t : τ) (i : ι) (timed : Bool) :
    (s.tasks t = .blocked i .receive timed → (s.pipes i).length = 0) ∧
    ∀ x, s.tasks t = .blocked i (.send x) timed →
      (s.pipes i).maxlength = some ((s.pipes i).length : ℚ) := by
  have hsound : Sound s := Runs.invariant (fun s e _ => step_sound s e) h
    ⟨fun i => Pipe.Synced.new (maxlength i), by intro t i op timed hmem; cases hmem⟩
  have hlisted : ∀ t, Listed s t :=
    Runs.invariant (I := fun s : World ι τ α => ∀ t, Listed s t)
      (fun s e _ => step_listed s e) h (by intro t i op timed htask; cases htask)
  have hwaits : ∀ op, s.tasks t = .blocked i op timed →
      Pipe.Waits (s.pipes i).state op := by
    intro op htask
    rcases hlisted t i op timed htask with hmem | ⟨f, hf, -⟩ | ⟨w, hw⟩
    · exact hsound.waits t i op timed hmem htask
    · rw [hsignals] at hf
      cases hf
    · rw [hready] at hw
      cases hw
  have hp := hsound.synced i
  constructor
  · intro htask
    have hidx := hp.state_empty.mp (hwaits .receive htask)
    rw [Pipe.length, hidx, Nat.sub_self]
  · intro x htask
    exact hp.state_full (hwaits (.send x) htask)

def standstill : List (Event Bool Bool Nat) :=
  [.call false false .receive false false 1, .call true true (.send 1) false false 0, .finish,
    .call true true (.send 2) false false 1]

theorem blocked_on_unusable_standstill :
    (standstill.foldl step (init fun _ => some 1)).tasks false =
      .blocked false .receive false ∧
    ((standstill.foldl step (init fun _ => some 1)).pipes false).length = 0 := by
  have hrun : Along step Enabled (init fun _ => some 1) standstill := by
    refine ⟨⟨?_, rfl, rfl⟩, ⟨?_, rfl, rfl⟩, ⟨?_, trivial⟩, ⟨?_, rfl, rfl⟩, trivial⟩
    · rintro i op border ⟨⟩
      exact ⟨Or.inr rfl, rfl⟩
    · rintro i op border ⟨⟩
      exact isBorder_zero rfl
    · rintro i op border ⟨⟩
    · rintro i op border ⟨⟩
      exact ⟨Or.inr rfl, rfl⟩
  refine ⟨rfl, ?_⟩
  exact (blocked_on_unusable (fun _ => some 1) hrun.runs rfl rfl false false false).1 rfl

end Mihini.Sched.PipeTasks
