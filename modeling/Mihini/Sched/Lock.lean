import Mathlib.Data.Finset.Basic
import Mihini.Lib.Run

/-!
# Locks

`sched/lock.lua`: any number of tasks acquire and release any number of locks, end, fail
and are killed.  The locks are those made by `new` and those `lock(object)` attaches to
objects; `unlock(object)` is `release` without an argument, and a synchronized function
acquires, runs and releases.
-/

set_option linter.unusedSectionVars false

namespace Mihini.Sched.Lock

open Mihini.Lib Function

variable {ι τ : Type}

/-- The values of the field `owner`. -/
inductive Owner (τ : Type) where
  | task (t : τ)
  | destroyed
deriving DecidableEq, Repr

/-- A task is outside of the lock library, suspended in `acquire`, resumable in `acquire`
after a signal, or dead. -/
inductive Task (ι : Type) where
  | outside
  | waiting (l : ι)
  | woken (l : ι)
  | dead
deriving DecidableEq, Repr

structure World (ι τ : Type) where
  owner : ι → Option (Owner τ)
  wt : ι → Finset τ
  /-- The locks in `hooks[thread]`. -/
  hooks : τ → Finset ι
  tasks : τ → Task ι
  /-- The tasks whose `acquire` has returned `"ok"` and whose hold has not ended. -/
  inside : ι → List τ

def init : World ι τ where
  owner _ := none
  wt _ := ∅
  hooks _ := ∅
  tasks _ := .outside
  inside _ := []

variable [DecidableEq ι] [DecidableEq τ]

namespace World

variable (s : World ι τ)

def signal (l : ι) (t : τ) : World ι τ :=
  if s.tasks t = .waiting l then { s with tasks := update s.tasks t (.woken l) } else s

/-- `LOCK:release(thread)`; `next` is what `next(self.wt)` gives.  An assertion fails when
the lock is not owned by `thread`. -/
def release (l : ι) (thread : τ) (next : Option τ) : World ι τ :=
  if s.owner l = some (.task thread) then
    let free :=
      { s with
        owner := update s.owner l none
        hooks := update s.hooks thread ((s.hooks thread).erase l)
        inside := update s.inside l ((s.inside l).filter (· ≠ thread)) }
    match next with
    | some t => free.signal l t
    | none => free
  else s

def acquireLoop (t : τ) (l : ι) : World ι τ :=
  match s.owner l with
  | none =>
    { s with
      owner := update s.owner l (some (.task t))
      wt := update s.wt l ((s.wt l).erase t)
      tasks := update s.tasks t .outside
      inside := update s.inside l (s.inside l ++ [t]) }
  | some _ =>
    { s with
      wt := update s.wt l (insert t (s.wt l))
      tasks := update s.tasks t (.waiting l) }

def protectdie (l : ι) (t : τ) : World ι τ :=
  { s with hooks := update s.hooks t (insert l (s.hooks t)) }

def acquire (t : τ) (l : ι) (nonblocking : Bool) : World ι τ :=
  -- the two assertions
  if s.owner l = some (.task t) ∨ s.owner l = some .destroyed then s
  else if nonblocking ∧ s.owner l ≠ none then s
  else (s.protectdie l t).acquireLoop t l

def resume (t : τ) : World ι τ :=
  match s.tasks t with
  | .woken l =>
    if s.owner l = some .destroyed then
      { s with tasks := update s.tasks t .outside }
    else s.acquireLoop t l
  | _ => s

def autoreleaseOne (thread : τ) (l : ι) (next : Option τ) : World ι τ :=
  if s.owner l = some (.task thread) then s.release l thread next
  else { s with wt := update s.wt l ((s.wt l).erase thread) }

/-- The death of a task; `order` is the traversal of `hooks[thread]`, with what
`next(self.wt)` gives in each release. -/
def die (t : τ) (order : List (ι × Option τ)) : World ι τ :=
  let left := order.foldl (fun s e => s.autoreleaseOne t e.1 e.2) s
  { left with
    hooks := update left.hooks t ∅
    tasks := update left.tasks t .dead
    inside := fun l => (left.inside l).filter (· ≠ t) }

def destroy (l : ι) : World ι τ :=
  { s with
    owner := update s.owner l (some .destroyed)
    wt := update s.wt l ∅
    tasks := fun t => if t ∈ s.wt l ∧ s.tasks t = .waiting l then .woken l else s.tasks t }

end World

inductive Event (ι τ : Type) where
  | acquire (t : τ) (l : ι) (nonblocking : Bool)
  /-- Task `t` releases, by default in its own name. -/
  | release (t : τ) (thread : Option τ) (l : ι) (next : Option τ)
  | destroy (t : τ) (l : ι)
  | resume (t : τ)
  | die (t : τ) (order : List (ι × Option τ))

def step (s : World ι τ) : Event ι τ → World ι τ
  | .acquire t l nonblocking => s.acquire t l nonblocking
  | .release t thread l next => s.release l (thread.getD t) next
  | .destroy _ l => s.destroy l
  | .resume t => s.resume t
  | .die t order => s.die t order

/-- `next` gives some key of a table, and `nil` for the empty one only. -/
def NextFits (wt : Finset τ) : Option τ → Prop
  | some t => t ∈ wt
  | none => wt = ∅

/-- What the interpreter and the scheduler grant: a task that is outside may call, a woken
one resumes, and a traversal visits the keys there are. -/
def Enabled (s : World ι τ) : Event ι τ → Prop
  | .acquire t _ _ => s.tasks t = .outside
  | .release t _ l next => s.tasks t = .outside ∧ NextFits (s.wt l) next
  | .destroy t _ => s.tasks t = .outside
  | .resume t => ∃ l, s.tasks t = .woken l
  | .die t order => s.tasks t ≠ .dead ∧ (∀ l, l ∈ order.map Prod.fst ↔ l ∈ s.hooks t) ∧
      Along (fun s e => s.autoreleaseOne t e.1 e.2) (fun s e => NextFits (s.wt e.1) e.2) s order

/-- A task that dies is not the only woken one in the queue of a free lock that others
wait for. -/
def Meets (s : World ι τ) : Event ι τ → Prop
  | .die t _ => ∀ l, s.tasks t = .woken l → s.owner l = none →
      ∀ u ∈ s.wt l, u ≠ t → ∃ v ∈ s.wt l, v ≠ t ∧ s.tasks v = .woken l
  | _ => True

/-! ## Invariants -/

/-- The tasks of a queue are in `acquire`, nobody waits for a lock of its own, death finds
every lock a task owns or waits for, and only the owner is inside. -/
structure Core (s : World ι τ) : Prop where
  queued : ∀ l, ∀ t ∈ s.wt l, s.tasks t = .waiting l ∨ s.tasks t = .woken l
  foreign : ∀ l t, s.tasks t = .waiting l ∨ s.tasks t = .woken l →
    s.owner l ≠ some (.task t)
  hookedOwner : ∀ l t, s.owner l = some (.task t) → l ∈ s.hooks t
  hookedWaiter : ∀ l t, s.tasks t = .waiting l ∨ s.tasks t = .woken l → l ∈ s.hooks t
  insideFree : ∀ l, s.owner l = none → s.inside l = []
  insideOwned : ∀ l t, s.owner l = some (.task t) → s.inside l = [t]
  insideOne : ∀ l, (s.inside l).length ≤ 1
  destroyedEmpty : ∀ l, s.owner l = some .destroyed → s.wt l = ∅

variable {s : World ι τ}

theorem Core.inside_owner (h : Core s) (l : ι) (t : τ) (ht : t ∈ s.inside l) :
    s.owner l = some (.task t) ∨ s.owner l = some .destroyed := by
  match ho : s.owner l with
  | none =>
    rw [h.insideFree l ho] at ht
    cases ht
  | some (.task u) =>
    rw [h.insideOwned l u ho, List.mem_singleton] at ht
    exact Or.inl (by rw [ht])
  | some .destroyed => exact Or.inr rfl

def Served (P : τ → Prop) (s : World ι τ) : Prop :=
  ∀ l, s.owner l = none → ∀ u ∈ s.wt l, P u → ∃ v ∈ s.wt l, P v ∧ s.tasks v = .woken l

theorem core_init : Core (init : World ι τ) where
  queued := by intro l t ht; cases ht
  foreign := by intro l t h; rcases h with h | h <;> cases h
  hookedOwner := by intro l t h; cases h
  hookedWaiter := by intro l t h; rcases h with h | h <;> cases h
  insideFree := by intro l h; rfl
  insideOwned := by intro l t h; cases h
  insideOne := by intro l; simp [init]
  destroyedEmpty := by intro l h; rfl

/-! ## Signals -/

section Signal

variable (s : World ι τ) (l : ι) (t : τ)

@[simp] theorem signal_owner : (s.signal l t).owner = s.owner := by
  unfold World.signal
  split <;> rfl

@[simp] theorem signal_wt : (s.signal l t).wt = s.wt := by
  unfold World.signal
  split <;> rfl

@[simp] theorem signal_hooks : (s.signal l t).hooks = s.hooks := by
  unfold World.signal
  split <;> rfl

@[simp] theorem signal_inside : (s.signal l t).inside = s.inside := by
  unfold World.signal
  split <;> rfl

theorem signal_tasks (u : τ) : (s.signal l t).tasks u = s.tasks u ∨
    s.tasks u = .waiting l ∧ (s.signal l t).tasks u = .woken l := by
  unfold World.signal
  split
  · rename_i hw
    by_cases hu : u = t
    · subst hu
      exact Or.inr ⟨hw, update_self _ _ _⟩
    · exact Or.inl (update_of_ne hu _ _)
  · exact Or.inl rfl

theorem signal_woken (h : s.tasks t = .waiting l ∨ s.tasks t = .woken l) :
    (s.signal l t).tasks t = .woken l := by
  unfold World.signal
  split
  · exact update_self _ _ _
  · rename_i hw
    exact h.resolve_left hw

theorem signal_acquiring (u : τ) (k : ι) :
    ((s.signal l t).tasks u = .waiting k ∨ (s.signal l t).tasks u = .woken k) ↔
      (s.tasks u = .waiting k ∨ s.tasks u = .woken k) := by
  rcases signal_tasks s l t u with h | ⟨h, h'⟩
  · rw [h]
  · rw [h, h']
    simp

end Signal

theorem Core.signal (h : Core s) (l : ι) (t : τ) : Core (s.signal l t) where
  queued := by
    intro k u hu
    rw [signal_wt] at hu
    exact (signal_acquiring s l t u k).mpr (h.queued k u hu)
  foreign := by
    intro k u hu
    rw [signal_owner]
    exact h.foreign k u ((signal_acquiring s l t u k).mp hu)
  hookedOwner := by
    rw [signal_owner, signal_hooks]
    exact h.hookedOwner
  hookedWaiter := by
    intro k u hu
    rw [signal_hooks]
    exact h.hookedWaiter k u ((signal_acquiring s l t u k).mp hu)
  insideFree := by
    rw [signal_owner, signal_inside]
    exact h.insideFree
  insideOwned := by
    rw [signal_owner, signal_inside]
    exact h.insideOwned
  insideOne := by
    rw [signal_inside]
    exact h.insideOne
  destroyedEmpty := by
    rw [signal_owner, signal_wt]
    exact h.destroyedEmpty

/-! ## Releases -/

/-- The lock as `release` leaves it before it wakes a task. -/
def freed (s : World ι τ) (l : ι) (thread : τ) : World ι τ :=
  { s with
    owner := update s.owner l none
    hooks := update s.hooks thread ((s.hooks thread).erase l)
    inside := update s.inside l ((s.inside l).filter (· ≠ thread)) }

variable {l : ι} {thread : τ}

theorem release_eq (s : World ι τ) (next : Option τ)
    (h : s.owner l = some (.task thread)) :
    s.release l thread next =
      match next with
      | some t => (freed s l thread).signal l t
      | none => freed s l thread := by
  rw [World.release, if_pos h]
  rfl

theorem Core.freed (h : Core s)
    (howner : s.owner l = some (.task thread)) : Core (freed s l thread) where
  queued := h.queued
  foreign := by
    intro k u hu
    by_cases hk : k = l
    · subst hk
      simp [Lock.freed]
    · simp only [Lock.freed, update_of_ne hk]
      exact h.foreign k u hu
  hookedOwner := by
    intro k u hu
    by_cases hk : k = l
    · subst hk
      simp [Lock.freed] at hu
    simp only [Lock.freed, update_of_ne hk] at hu
    have hmem := h.hookedOwner k u hu
    by_cases hut : u = thread
    · subst hut
      simpa [Lock.freed, hk] using hmem
    · simpa [Lock.freed, update_of_ne hut] using hmem
  hookedWaiter := by
    intro k u hu
    have hmem := h.hookedWaiter k u hu
    by_cases hut : u = thread
    · subst hut
      -- the owner does not wait for this lock
      have hk : k ≠ l := by
        intro hk
        subst hk
        exact h.foreign k u hu howner
      simpa [Lock.freed, hk] using hmem
    · simpa [Lock.freed, update_of_ne hut] using hmem
  insideFree := by
    intro k hk
    by_cases hkl : k = l
    · subst hkl
      simp [Lock.freed, h.insideOwned k thread howner]
    · simp only [Lock.freed, update_of_ne hkl] at hk ⊢
      exact h.insideFree k hk
  insideOwned := by
    intro k u hu
    by_cases hkl : k = l
    · subst hkl
      simp [Lock.freed] at hu
    · simp only [Lock.freed, update_of_ne hkl] at hu ⊢
      exact h.insideOwned k u hu
  insideOne := by
    intro k
    by_cases hkl : k = l
    · subst hkl
      simp [Lock.freed, h.insideOwned k thread howner]
    · simp only [Lock.freed, update_of_ne hkl]
      exact h.insideOne k
  destroyedEmpty := by
    intro k hk
    by_cases hkl : k = l
    · subst hkl
      simp [Lock.freed] at hk
    · simp only [Lock.freed, update_of_ne hkl] at hk
      exact h.destroyedEmpty k hk

theorem Core.release (h : Core s) (l : ι) (thread : τ) (next : Option τ) :
    Core (s.release l thread next) := by
  by_cases howner : s.owner l = some (.task thread)
  · rw [release_eq s next howner]
    cases next with
    | some t => exact (h.freed howner).signal l t
    | none => exact h.freed howner
  · rw [World.release, if_neg howner]
    exact h

/-- A release serves the queue it leaves behind. -/
theorem Served.release {P : τ → Prop} (h : Served P s) (hcore : Core s)
    {next : Option τ} (hnext : NextFits (s.wt l) next)
    (hP : s.owner l = some (.task thread) → ∀ u ∈ s.wt l, P u) :
    Served P (s.release l thread next) := by
  by_cases howner : s.owner l = some (.task thread)
  · rw [release_eq s next howner]
    intro k hk u hu hPu
    cases next with
    | none =>
      by_cases hkl : k = l
      · subst hkl
        have hu' : u ∈ s.wt k := hu
        have hempty : s.wt k = ∅ := hnext
        rw [hempty] at hu'
        cases hu'
      · simp only [freed, update_of_ne hkl] at hk
        exact h k hk u hu hPu
    | some t =>
      simp only [signal_owner, signal_wt] at hk hu ⊢
      by_cases hkl : k = l
      · subst hkl
        have ht : t ∈ s.wt k := hnext
        refine ⟨t, ht, hP howner t ht, ?_⟩
        exact signal_woken _ k t (hcore.queued k t ht)
      · simp only [freed, update_of_ne hkl] at hk
        obtain ⟨v, hv, hPv, hwoken⟩ := h k hk u hu hPu
        refine ⟨v, hv, hPv, ?_⟩
        rcases signal_tasks (freed s l thread) l t v with htask | ⟨hwait, -⟩
        · rw [htask]
          exact hwoken
        · have hwait' : s.tasks v = .waiting l := hwait
          rw [hwoken] at hwait'
          cases hwait'
  · rw [World.release, if_neg howner]
    exact h

/-! ## Acquisitions -/

/-- What `acquire` has ensured when it tests the owner: the lock is neither owned by the
task nor destroyed, death will find it, and the task is in no other queue. -/
structure Entering (s : World ι τ) (t : τ) (l : ι) : Prop where
  owner : s.owner l ≠ some (.task t)
  alive : s.owner l ≠ some .destroyed
  hooked : l ∈ s.hooks t
  queue : ∀ k, t ∈ s.wt k → k = l

variable {t : τ}

theorem acquireLoop_free (hfree : s.owner l = none) :
    s.acquireLoop t l =
      { s with
        owner := update s.owner l (some (.task t))
        wt := update s.wt l ((s.wt l).erase t)
        tasks := update s.tasks t .outside
        inside := update s.inside l (s.inside l ++ [t]) } := by
  simp [World.acquireLoop, hfree]

theorem acquireLoop_owned (howned : s.owner l ≠ none) :
    s.acquireLoop t l =
      { s with
        wt := update s.wt l (insert t (s.wt l))
        tasks := update s.tasks t (.waiting l) } := by
  unfold World.acquireLoop
  split
  · rename_i hnone
    exact absurd hnone howned
  · rfl

theorem Core.acquireLoop_free (h : Core s)
    (he : Entering s t l) (hfree : s.owner l = none) : Core (s.acquireLoop t l) := by
  rw [Lock.acquireLoop_free hfree]
  have hother : ∀ k u, u ∈ update s.wt l ((s.wt l).erase t) k →
      u ≠ t ∧ u ∈ s.wt k := by
    intro k u hu
    by_cases hk : k = l
    · subst hk
      rw [update_self] at hu
      exact Finset.mem_erase.mp hu
    rw [update_of_ne hk] at hu
    refine ⟨?_, hu⟩
    intro hut
    subst hut
    exact hk (he.queue k hu)
  constructor
  · intro k u hu
    obtain ⟨hut, hmem⟩ := hother k u hu
    simp only [update_of_ne hut]
    exact h.queued k u hmem
  · intro k u hu
    by_cases hut : u = t
    · subst hut
      simp at hu
    simp only [update_of_ne hut] at hu
    by_cases hk : k = l
    · subst hk
      simpa using Ne.symm hut
    · simp only [update_of_ne hk]
      exact h.foreign k u hu
  · intro k u hu
    by_cases hk : k = l
    · subst hk
      simp only [update_self, Option.some.injEq, Owner.task.injEq] at hu
      subst hu
      exact he.hooked
    · simp only [update_of_ne hk] at hu
      exact h.hookedOwner k u hu
  · intro k u hu
    by_cases hut : u = t
    · subst hut
      simp at hu
    · simp only [update_of_ne hut] at hu
      exact h.hookedWaiter k u hu
  · intro k hk
    by_cases hkl : k = l
    · subst hkl
      simp at hk
    · simp only [update_of_ne hkl] at hk ⊢
      exact h.insideFree k hk
  · intro k u hu
    by_cases hk : k = l
    · subst hk
      simp only [update_self, Option.some.injEq, Owner.task.injEq] at hu
      subst hu
      simp [h.insideFree k hfree]
    · simp only [update_of_ne hk] at hu ⊢
      exact h.insideOwned k u hu
  · intro k
    by_cases hk : k = l
    · subst hk
      simp [h.insideFree k hfree]
    · simp only [update_of_ne hk]
      exact h.insideOne k
  · intro k hk
    by_cases hkl : k = l
    · subst hkl
      simp at hk
    · simp only [update_of_ne hkl] at hk ⊢
      exact h.destroyedEmpty k hk

theorem Core.acquireLoop_owned (h : Core s)
    (he : Entering s t l) (howned : s.owner l ≠ none) : Core (s.acquireLoop t l) := by
  rw [Lock.acquireLoop_owned howned]
  have hother : ∀ k u, u ∈ update s.wt l (insert t (s.wt l)) k →
      u = t ∧ k = l ∨ u ≠ t ∧ u ∈ s.wt k := by
    intro k u hu
    by_cases hk : k = l
    · subst hk
      rw [update_self, Finset.mem_insert] at hu
      by_cases hut : u = t
      · exact Or.inl ⟨hut, rfl⟩
      · exact Or.inr ⟨hut, hu.resolve_left hut⟩
    · rw [update_of_ne hk] at hu
      by_cases hut : u = t
      · subst hut
        exact absurd (he.queue k hu) hk
      · exact Or.inr ⟨hut, hu⟩
  constructor
  · intro k u hu
    rcases hother k u hu with ⟨rfl, rfl⟩ | ⟨hut, hmem⟩
    · simp
    · simp only [update_of_ne hut]
      exact h.queued k u hmem
  · intro k u hu
    by_cases hut : u = t
    · subst hut
      simp only [update_self, Task.waiting.injEq, reduceCtorEq, or_false] at hu
      subst hu
      exact he.owner
    · simp only [update_of_ne hut] at hu
      exact h.foreign k u hu
  · exact h.hookedOwner
  · intro k u hu
    by_cases hut : u = t
    · subst hut
      simp only [update_self, Task.waiting.injEq, reduceCtorEq, or_false] at hu
      subst hu
      exact he.hooked
    · simp only [update_of_ne hut] at hu
      exact h.hookedWaiter k u hu
  · exact h.insideFree
  · exact h.insideOwned
  · exact h.insideOne
  · intro k hk
    by_cases hkl : k = l
    · subst hkl
      exact absurd hk he.alive
    · simp only [update_of_ne hkl]
      exact h.destroyedEmpty k hk

theorem Core.acquireLoop (h : Core s) (he : Entering s t l) :
    Core (s.acquireLoop t l) := by
  by_cases hfree : s.owner l = none
  · exact h.acquireLoop_free he hfree
  · exact h.acquireLoop_owned he hfree

theorem Served.acquireLoop (h : Served (fun _ => True) s)
    (he : Entering s t l) : Served (fun _ => True) (s.acquireLoop t l) := by
  have hstays : ∀ k, k ≠ l → s.owner k = none → ∀ u ∈ s.wt k, ∀ a,
      ∃ v ∈ s.wt k, True ∧ update s.tasks t a v = .woken k := by
    intro k hk hnone u hu a
    obtain ⟨v, hv, -, hwoken⟩ := h k hnone u hu trivial
    have hvt : v ≠ t := by
      intro hvt
      subst hvt
      exact hk (he.queue k hv)
    exact ⟨v, hv, trivial, by rw [update_of_ne hvt]; exact hwoken⟩
  by_cases hfree : s.owner l = none
  · rw [Lock.acquireLoop_free hfree]
    intro k hnone u hu _
    by_cases hk : k = l
    · subst hk
      simp at hnone
    · simp only [update_of_ne hk] at hnone hu ⊢
      exact hstays k hk hnone u hu _
  · rw [Lock.acquireLoop_owned hfree]
    intro k hnone u hu _
    have hk : k ≠ l := by
      intro hk
      subst hk
      exact hfree hnone
    simp only [update_of_ne hk] at hu ⊢
    exact hstays k hk hnone u hu _

theorem Core.protectdie (h : Core s) (l : ι) (t : τ) :
    Core (s.protectdie l t) := by
  have hmono : ∀ k u, k ∈ s.hooks u → k ∈ (s.protectdie l t).hooks u := by
    intro k u hk
    by_cases hut : u = t
    · subst hut
      simp [World.protectdie, hk]
    · simpa [World.protectdie, update_of_ne hut] using hk
  exact ⟨h.queued, h.foreign, fun k u hu => hmono k u (h.hookedOwner k u hu),
    fun k u hu => hmono k u (h.hookedWaiter k u hu), h.insideFree, h.insideOwned, h.insideOne,
    h.destroyedEmpty⟩

theorem entering_acquire (h : Core s)
    (ht : s.tasks t = .outside)
    (hassert : ¬(s.owner l = some (.task t) ∨ s.owner l = some .destroyed)) :
    Entering (s.protectdie l t) t l where
  owner := fun ho => hassert (Or.inl ho)
  alive := fun ho => hassert (Or.inr ho)
  hooked := by simp [World.protectdie]
  queue := by
    intro k hk
    have := h.queued k t hk
    rw [ht] at this
    rcases this with h | h <;> cases h

theorem entering_resume (h : Core s)
    (ht : s.tasks t = .woken l) (halive : s.owner l ≠ some .destroyed) :
    Entering s t l where
  owner := h.foreign l t (Or.inr ht)
  alive := halive
  hooked := h.hookedWaiter l t (Or.inr ht)
  queue := by
    intro k hk
    have := h.queued k t hk
    rw [ht] at this
    rcases this with h | h <;> cases h
    rfl

/-! ## Death and destruction -/

def Left (s : World ι τ) (t : τ) (l : ι) : Prop :=
  s.owner l ≠ some (.task t) ∧ t ∉ s.wt l

theorem Core.autoreleaseOne (h : Core s) (t : τ) (l : ι) (next : Option τ) :
    Core (s.autoreleaseOne t l next) := by
  unfold World.autoreleaseOne
  split
  · exact h.release l t next
  have hsub : ∀ k u, u ∈ update s.wt l ((s.wt l).erase t) k → u ∈ s.wt k := by
    intro k u hu
    by_cases hk : k = l
    · subst hk
      rw [update_self] at hu
      exact Finset.mem_of_mem_erase hu
    · rw [update_of_ne hk] at hu
      exact hu
  refine ⟨fun k u hu => h.queued k u (hsub k u hu), h.foreign, h.hookedOwner, h.hookedWaiter,
    h.insideFree, h.insideOwned, h.insideOne, ?_⟩
  intro k hk
  rw [← Finset.subset_empty, ← h.destroyedEmpty k hk]
  exact hsub k

theorem Served.autoreleaseOne (h : Served (· ≠ t) s) (hcore : Core s)
    {next : Option τ} (hnext : NextFits (s.wt l) next) :
    Served (· ≠ t) (s.autoreleaseOne t l next) := by
  unfold World.autoreleaseOne
  split
  · rename_i howner
    apply h.release hcore hnext
    intro _ u hu hut
    subst hut
    exact hcore.foreign l u (hcore.queued l u hu) howner
  · intro k hnone u hu hut
    have hmem : ∀ v, v ≠ t → (v ∈ update s.wt l ((s.wt l).erase t) k ↔ v ∈ s.wt k) := by
      intro v hv
      by_cases hk : k = l
      · subst hk
        simp [hv]
      · rw [update_of_ne hk]
    obtain ⟨v, hv, hvt, hwoken⟩ := h k hnone u ((hmem u hut).mp hu) hut
    exact ⟨v, (hmem v hvt).mpr hv, hvt, hwoken⟩

theorem release_wt (s : World ι τ) (l : ι) (thread : τ) (next : Option τ) :
    (s.release l thread next).wt = s.wt := by
  by_cases howner : s.owner l = some (.task thread)
  · rw [release_eq s next howner]
    cases next with
    | some t => exact signal_wt _ _ _
    | none => rfl
  · rw [World.release, if_neg howner]

theorem release_owner (next : Option τ)
    (h : s.owner l = some (.task thread)) :
    (s.release l thread next).owner = update s.owner l none := by
  rw [release_eq s next h]
  cases next with
  | some t => exact signal_owner _ _ _
  | none => rfl

theorem autoreleaseOne_owner (s : World ι τ) (t : τ) (l : ι) (next : Option τ) :
    (s.autoreleaseOne t l next).owner =
      if s.owner l = some (.task t) then update s.owner l none else s.owner := by
  unfold World.autoreleaseOne
  split
  · rename_i howner
    exact release_owner next howner
  · rfl

theorem Left.autoreleaseOne {k : ι} (h : Left s t k) (l : ι)
    (next : Option τ) : Left (s.autoreleaseOne t l next) t k := by
  constructor
  · rw [autoreleaseOne_owner]
    split
    · by_cases hk : k = l
      · subst hk
        simp
      · rw [update_of_ne hk]
        exact h.1
    · exact h.1
  · unfold World.autoreleaseOne
    split
    · rw [release_wt]
      exact h.2
    by_cases hk : k = l
    · subst hk
      simp
    · simp only [update_of_ne hk]
      exact h.2

theorem left_autoreleaseOne (h : Core s) (t : τ) (l : ι) (next : Option τ) :
    Left (s.autoreleaseOne t l next) t l := by
  constructor
  · rw [autoreleaseOne_owner]
    split
    · simp
    · assumption
  · unfold World.autoreleaseOne
    split
    · rename_i howner
      rw [release_wt]
      intro hmem
      exact h.foreign l t (h.queued l t hmem) howner
    · simp

theorem autorelease_spec {order : List (ι × Option τ)} (h : Core s)
    (hserved : Served (· ≠ t) s)
    (halong : Along (fun s e => s.autoreleaseOne t e.1 e.2)
      (fun s (e : ι × Option τ) => NextFits (s.wt e.1) e.2) s order) :
    let left := order.foldl (fun s e => s.autoreleaseOne t e.1 e.2) s
    Core left ∧ Served (· ≠ t) left ∧
      ∀ l, Left s t l ∨ l ∈ order.map Prod.fst → Left left t l := by
  induction order generalizing s with
  | nil =>
    refine ⟨h, hserved, ?_⟩
    intro l hl
    exact hl.resolve_right (by simp)
  | cons e order ih =>
    obtain ⟨hnext, hrest⟩ := halong
    obtain ⟨hc, hs, hl⟩ := ih (h.autoreleaseOne t e.1 e.2)
      (hserved.autoreleaseOne h hnext) hrest
    refine ⟨hc, hs, ?_⟩
    intro l hleft
    apply hl
    rcases hleft with hleft | hmem
    · exact Or.inl (hleft.autoreleaseOne e.1 e.2)
    · rcases List.mem_cons.mp hmem with rfl | hmem
      · exact Or.inl (left_autoreleaseOne h t e.1 e.2)
      · exact Or.inr hmem

theorem die_sound {order : List (ι × Option τ)} (h : Core s)
    (hserved : Served (fun _ => True) s) (he : Enabled s (.die t order))
    (hm : Meets s (.die t order)) : Core (s.die t order) ∧ Served (fun _ => True) (s.die t order) := by
  obtain ⟨-, horder, halong⟩ := he
  -- without the dying task the free locks are still served
  have hbut : Served (· ≠ t) s := by
    intro l hnone u hu hut
    obtain ⟨v, hv, -, hwoken⟩ := hserved l hnone u hu trivial
    by_cases hvt : v = t
    · subst hvt
      exact hm l hwoken hnone u hu hut
    · exact ⟨v, hv, hvt, hwoken⟩
  obtain ⟨hc, hs, hl⟩ := autorelease_spec h hbut halong
  have hleft : ∀ l, Left (order.foldl (fun s e => s.autoreleaseOne t e.1 e.2) s) t l := by
    intro l
    apply hl
    by_cases hmem : l ∈ order.map Prod.fst
    · exact Or.inr hmem
    · rw [horder] at hmem
      refine Or.inl ⟨fun ho => hmem (h.hookedOwner l t ho), fun hw => ?_⟩
      exact hmem (h.hookedWaiter l t (h.queued l t hw))
  rw [World.die]
  generalize order.foldl (fun s e => s.autoreleaseOne t e.1 e.2) s = left at hc hs hleft
  constructor
  · constructor
    · intro l u hu
      have hut : u ≠ t := by
        intro hut
        subst hut
        exact (hleft l).2 hu
      simp only [update_of_ne hut]
      exact hc.queued l u hu
    · intro l u hu
      by_cases hut : u = t
      · subst hut
        simp at hu
      · simp only [update_of_ne hut] at hu
        exact hc.foreign l u hu
    · intro l u hu
      have hut : u ≠ t := by
        intro hut
        subst hut
        exact (hleft l).1 hu
      simp only [update_of_ne hut]
      exact hc.hookedOwner l u hu
    · intro l u hu
      by_cases hut : u = t
      · subst hut
        simp at hu
      · simp only [update_of_ne hut] at hu ⊢
        exact hc.hookedWaiter l u hu
    · intro l hnone
      simp [hc.insideFree l hnone]
    · intro l u hu
      have hut : u ≠ t := by
        intro hut
        subst hut
        exact (hleft l).1 hu
      simp [hc.insideOwned l u hu, hut]
    · intro l
      exact (List.length_filter_le _ _).trans (hc.insideOne l)
    · exact hc.destroyedEmpty
  · intro l hnone u hu _
    have hut : ∀ v ∈ left.wt l, v ≠ t := by
      intro v hv hvt
      subst hvt
      exact (hleft l).2 hv
    obtain ⟨v, hv, hvt, hwoken⟩ := hs l hnone u hu (hut u hu)
    exact ⟨v, hv, trivial, by simpa [update_of_ne hvt] using hwoken⟩

theorem destroy_acquiring (s : World ι τ) (l : ι) (u : τ) (k : ι) :
    ((s.destroy l).tasks u = .waiting k ∨ (s.destroy l).tasks u = .woken k) ↔
      (s.tasks u = .waiting k ∨ s.tasks u = .woken k) := by
  simp only [World.destroy]
  split
  · rename_i h
    rw [h.2]
    simp
  · rfl

theorem Core.destroy (h : Core s) (l : ι) : Core (s.destroy l) where
  queued := by
    intro k u hu
    rw [destroy_acquiring]
    by_cases hk : k = l
    · subst hk
      simp [World.destroy] at hu
    · simp only [World.destroy, update_of_ne hk] at hu
      exact h.queued k u hu
  foreign := by
    intro k u hu
    rw [destroy_acquiring] at hu
    by_cases hk : k = l
    · subst hk
      simp [World.destroy]
    · simp only [World.destroy, update_of_ne hk]
      exact h.foreign k u hu
  hookedOwner := by
    intro k u hu
    by_cases hk : k = l
    · subst hk
      simp [World.destroy] at hu
    · simp only [World.destroy, update_of_ne hk] at hu
      exact h.hookedOwner k u hu
  hookedWaiter := by
    intro k u hu
    rw [destroy_acquiring] at hu
    exact h.hookedWaiter k u hu
  insideFree := by
    intro k hk
    by_cases hkl : k = l
    · subst hkl
      simp [World.destroy] at hk
    · simp only [World.destroy, update_of_ne hkl] at hk
      exact h.insideFree k hk
  insideOwned := by
    intro k u hu
    by_cases hk : k = l
    · subst hk
      simp [World.destroy] at hu
    · simp only [World.destroy, update_of_ne hk] at hu
      exact h.insideOwned k u hu
  insideOne := h.insideOne
  destroyedEmpty := by
    intro k hk
    by_cases hkl : k = l
    · subst hkl
      simp [World.destroy]
    · simp only [World.destroy, update_of_ne hkl] at hk ⊢
      exact h.destroyedEmpty k hk

theorem Served.destroy (h : Served (fun _ => True) s) (l : ι) :
    Served (fun _ => True) (s.destroy l) := by
  intro k hnone u hu _
  have hk : k ≠ l := by
    intro hk
    subst hk
    simp [World.destroy] at hnone
  simp only [World.destroy, update_of_ne hk] at hnone hu
  obtain ⟨v, hv, -, hwoken⟩ := h k hnone u hu trivial
  refine ⟨v, by simpa [World.destroy, update_of_ne hk] using hv, trivial, ?_⟩
  simp [World.destroy, hwoken]

/-- A woken task of a destroyed lock fails and is outside again. -/
theorem resume_destroyed (h : Core s) (hserved : Served (fun _ => True) s)
    (ht : s.tasks t = .woken l) (hdead : s.owner l = some .destroyed) :
    Core { s with tasks := update s.tasks t .outside } ∧
      Served (fun _ => True) { s with tasks := update s.tasks t .outside } := by
  have hnot : ∀ k, t ∉ s.wt k := by
    intro k hk
    have hkl : k = l := by
      have := h.queued k t hk
      rw [ht] at this
      rcases this with h | h <;> cases h
      rfl
    subst hkl
    rw [h.destroyedEmpty k hdead] at hk
    cases hk
  constructor
  · refine ⟨?_, ?_, h.hookedOwner, ?_, h.insideFree, h.insideOwned, h.insideOne,
      h.destroyedEmpty⟩
    · intro k u hu
      have hut : u ≠ t := fun hut => hnot k (hut ▸ hu)
      simp only [update_of_ne hut]
      exact h.queued k u hu
    · intro k u hu
      by_cases hut : u = t
      · subst hut
        simp at hu
      · simp only [update_of_ne hut] at hu
        exact h.foreign k u hu
    · intro k u hu
      by_cases hut : u = t
      · subst hut
        simp at hu
      · simp only [update_of_ne hut] at hu
        exact h.hookedWaiter k u hu
  · intro k hnone u hu _
    obtain ⟨v, hv, -, hwoken⟩ := hserved k hnone u hu trivial
    have hvt : v ≠ t := fun hvt => hnot k (hvt ▸ hv)
    exact ⟨v, hv, trivial, by simpa [update_of_ne hvt] using hwoken⟩

/-! ## Runs -/

theorem step_sound (s : World ι τ) (e : Event ι τ) (he : Enabled s e ∧ Meets s e)
    (h : Core s ∧ Served (fun _ => True) s) :
    Core (step s e) ∧ Served (fun _ => True) (step s e) := by
  obtain ⟨hcore, hserved⟩ := h
  cases e with
  | acquire t l nonblocking =>
    simp only [step, World.acquire]
    split
    · exact ⟨hcore, hserved⟩
    rename_i hassert
    split
    · exact ⟨hcore, hserved⟩
    · have hent := entering_acquire hcore he.1 hassert
      have hp : Served (fun _ => True) (s.protectdie l t) := hserved
      exact ⟨(hcore.protectdie l t).acquireLoop hent, hp.acquireLoop hent⟩
  | release t thread l next =>
    exact ⟨hcore.release l _ next, hserved.release hcore he.1.2 (fun _ _ _ => trivial)⟩
  | destroy t l => exact ⟨hcore.destroy l, hserved.destroy l⟩
  | resume t =>
    obtain ⟨l, ht⟩ := he.1
    simp only [step, World.resume, ht]
    split
    · rename_i hdead
      exact resume_destroyed hcore hserved ht hdead
    · rename_i halive
      have hent := entering_resume hcore ht halive
      exact ⟨hcore.acquireLoop hent, hserved.acquireLoop hent⟩
  | die t order => exact die_sound hcore hserved he.1 he.2

/-- The events that end the hold of `t` on `l`: a release in the name of `t`, the death of
`t`, or the destruction of the lock. -/
def Ends (l : ι) (t : τ) : Event ι τ → Prop
  | .release u thread k _ => k = l ∧ thread.getD u = t
  | .destroy _ k => k = l
  | .die u _ => u = t
  | _ => False

theorem foldl_autoreleaseOne_owner {t u : τ} (htu : t ≠ u)
    (order : List (ι × Option τ)) (h : s.owner l = some (.task t)) :
    (order.foldl (fun s e => s.autoreleaseOne u e.1 e.2) s).owner l = some (.task t) := by
  induction order generalizing s with
  | nil => exact h
  | cons e order ih =>
    apply ih
    rw [autoreleaseOne_owner]
    split
    · rename_i hown
      have hl : l ≠ e.1 := by
        intro hl
        subst hl
        rw [h] at hown
        simp [htu] at hown
      rw [update_of_ne hl]
      exact h
    · exact h

theorem acquireLoop_owner {t u : τ} {l k : ι}
    (h : s.owner l = some (.task t)) : (s.acquireLoop u k).owner l = some (.task t) := by
  by_cases hfree : s.owner k = none
  · have hl : l ≠ k := by
      intro hl
      subst hl
      rw [h] at hfree
      cases hfree
    rw [acquireLoop_free hfree]
    simp only [update_of_ne hl]
    exact h
  · rw [acquireLoop_owned hfree]
    exact h

theorem ends_of_owner_lost (s : World ι τ) (e : Event ι τ)
    (h : s.owner l = some (.task t)) (hlost : (step s e).owner l ≠ some (.task t)) :
    Ends l t e := by
  cases e with
  | acquire u k nonblocking =>
    apply absurd _ hlost
    simp only [step, World.acquire]
    split
    · exact h
    · split
      · exact h
      · exact acquireLoop_owner h
  | release u thread k next =>
    by_contra hends
    apply hlost
    by_cases hk : s.owner k = some (.task (thread.getD u))
    · have hl : l ≠ k := by
        intro hl
        subst hl
        rw [h] at hk
        apply hends
        simpa [Ends] using hk.symm
      simp only [step]
      rw [release_owner next hk, update_of_ne hl]
      exact h
    · simp only [step, World.release, if_neg hk]
      exact h
  | destroy u k =>
    by_contra hends
    apply hlost
    have hl : l ≠ k := fun hl => hends hl.symm
    simp only [step, World.destroy, update_of_ne hl]
    exact h
  | resume u =>
    apply absurd _ hlost
    simp only [step, World.resume]
    split
    · split
      · exact h
      · exact acquireLoop_owner h
    · exact h
  | die u order =>
    by_contra hends
    exact hlost (foldl_autoreleaseOne_owner (Ne.symm hends) order h)

/-- In every run in which no task dies as the only woken one of a free lock that others
wait for: a lock has one task inside at most, its owner loses it by its own release, its
death or a destruction only, and a free lock that tasks wait for is about to be taken by
one of them. -/
theorem locks_sound {s : World ι τ}
    (h : Runs step (fun s e => Enabled s e ∧ Meets s e) init s) :
    (∀ l, (s.inside l).length ≤ 1 ∧ ∀ t ∈ s.inside l,
      s.owner l = some (.task t) ∨ s.owner l = some .destroyed) ∧
    (∀ e l t, s.owner l = some (.task t) → (step s e).owner l ≠ some (.task t) →
      Ends l t e) ∧
    ∀ l, s.owner l = none → (s.wt l).Nonempty → ∃ u ∈ s.wt l, s.tasks u = .woken l ∧
      (step s (.resume u)).owner l = some (.task u) := by
  have hinv : Core s ∧ Served (fun _ => True) s :=
    Runs.invariant (I := fun s : World ι τ => Core s ∧ Served (fun _ => True) s)
      step_sound h ⟨core_init, by intro l _ u hu; cases hu⟩
  obtain ⟨hcore, hserved⟩ := hinv
  refine ⟨fun l => ⟨hcore.insideOne l, hcore.inside_owner l⟩,
    fun e l t => ends_of_owner_lost s e, ?_⟩
  rintro l hnone ⟨u, hu⟩
  obtain ⟨v, hv, -, hwoken⟩ := hserved l hnone u hu trivial
  refine ⟨v, hv, hwoken, ?_⟩
  simp only [step, World.resume, hwoken, hnone]
  rw [if_neg (by simp), acquireLoop_free hnone]
  simp

def handover : List (Event Unit Nat) :=
  [.acquire 0 () false, .acquire 1 () false, .acquire 2 () false, .release 0 none () (some 1)]

theorem handover_along {P : World Unit Nat → Event Unit Nat → Prop}
    (hP : ∀ s e, (∀ t order, e ≠ .die t order) → Enabled s e → P s e) :
    Along step P init handover := by
  refine ⟨hP _ _ ?_ rfl, hP _ _ ?_ rfl, hP _ _ ?_ rfl, hP _ _ ?_ ⟨rfl, ?_⟩, trivial⟩
  · intro t order; simp
  · intro t order; simp
  · intro t order; simp
  · intro t order; simp
  · show 1 ∈ _
    decide

theorem locks_sound_handover :
    (handover.foldl step init).owner () = none ∧
    ∃ u ∈ (handover.foldl step init).wt (),
      (handover.foldl step init).tasks u = .woken () ∧
      (step (handover.foldl step init) (.resume u)).owner () = some (.task u) := by
  have hrun := Along.runs (handover_along (P := fun s e => Enabled s e ∧ Meets s e) (by
    intro s e hdie he
    refine ⟨he, ?_⟩
    cases e with
    | die t order => exact absurd rfl (hdie t order)
    | _ => trivial))
  exact ⟨rfl, (locks_sound hrun).2.2 () rfl ⟨1, by decide⟩⟩

/-- The task chosen by the release is killed before it resumes: the lock is free, task 2
waits, and nobody is woken. -/
theorem chosen_task_killed :
    ¬ ∀ s : World Unit Nat, Runs step Enabled init s →
      ∀ l, s.owner l = none → (s.wt l).Nonempty → ∃ u ∈ s.wt l, s.tasks u = .woken l := by
  intro hall
  have hrun := Along.runs (handover_along (P := Enabled) (fun s e _ he => he))
  have hdie : Enabled (handover.foldl step init) (.die 1 [((), some 2)]) := by
    refine ⟨by decide, ?_, ?_, trivial⟩
    · intro l
      cases l
      decide
    · show 2 ∈ _
      decide
  obtain ⟨u, hu, hwoken⟩ := hall _ (hrun.tail hdie) () rfl ⟨2, by decide⟩
  have hu2 : u = 2 := by
    have : ∀ u ∈ (step (handover.foldl step init) (.die 1 [((), some 2)])).wt (), u = 2 := by
      decide
    exact this u hu
  subst hu2
  have hwaits : (step (handover.foldl step init) (.die 1 [((), some 2)])).tasks 2 =
      .waiting () := by
    decide
  rw [hwaits] at hwoken
  cases hwoken

end Mihini.Sched.Lock
