import Mihini.Lib.Run

/-!
# The semaphores of the client services

`src/luafwk/racon/asset/init.lua` and `src/luafwk/racon/devicetree.lua`: each module lets one
task at a time send a command to the agent, and blocks its services while it registers again
after a reconnection.  The tasks that call the services, the re-registrations and the reader
of the connection are interleaved where they are suspended.
-/

set_option linter.unusedSectionVars false

namespace Mihini.Racon.Semaphore

open Mihini.Lib

inductive Module
  | asset
  | devicetree
  deriving DecidableEq, Repr

/-- The state of a module: `M.sem_value`, the tasks suspended in `sem_wait`, those that a
signal has made ready again, those between `sem_wait` and `sem_post`, and the number of
re-registrations under way. -/
structure Client (τ : Type) where
  initialized : Bool
  semValue : Int
  waiting : List τ
  woken : List τ
  holders : List τ
  reregistrations : Nat
  deriving DecidableEq, Repr

section Operations

variable {τ : Type} [DecidableEq τ]

namespace Client

variable (c : Client τ)

/-- `sem_wait`, from its test on. -/
def semWait (t : τ) : Client τ :=
  if c.semValue ≤ 0 then { c with waiting := c.waiting ++ [t] }
  else { c with semValue := c.semValue - 1, holders := c.holders ++ [t] }

def semPost : Client τ :=
  let semValue := c.semValue + 1
  if 1 ≤ semValue then
    { c with semValue := semValue, woken := c.woken ++ c.waiting, waiting := [] }
  else { c with semValue := semValue }

def Serves (t : τ) : Prop := t ∈ c.waiting ∨ t ∈ c.woken ∨ t ∈ c.holders

instance (t : τ) : Decidable (c.Serves t) :=
  inferInstanceAs (Decidable (_ ∨ _ ∨ _))

def resume (t : τ) : Client τ :=
  { c with woken := c.woken.erase t }.semWait t

def finish (t : τ) : Client τ :=
  { c with holders := c.holders.erase t }.semPost

/-- Handlers are only installed by `M.init`. -/
def empIpcBrokenHandler : Client τ :=
  if c.initialized then
    { c with semValue := 0, reregistrations := c.reregistrations + 1 }
  else c

/-- The end of a task the handler has started: only that of `devicetree` posts. -/
def reregistered : Module → Client τ
  | .asset => { c with reregistrations := c.reregistrations - 1 }
  | .devicetree => { c with reregistrations := c.reregistrations - 1 }.semPost

def die (t : τ) : Client τ :=
  { c with
    waiting := c.waiting.filter (· ≠ t)
    woken := c.woken.filter (· ≠ t)
    holders := c.holders.filter (· ≠ t) }

end Client

structure World (τ : Type) where
  asset : Client τ
  devicetree : Client τ
  connected : Bool
  deriving DecidableEq, Repr

def World.client (s : World τ) : Module → Client τ
  | .asset => s.asset
  | .devicetree => s.devicetree

def World.change (s : World τ) (f : Client τ → Client τ) : Module → World τ
  | .asset => { s with asset := f s.asset }
  | .devicetree => { s with devicetree := f s.devicetree }

def loaded : Client τ where
  initialized := false
  semValue := 1
  waiting := []
  woken := []
  holders := []
  reregistrations := 0

def init : World τ where
  asset := loaded
  devicetree := loaded
  connected := true

inductive Event (τ : Type)
  | init (m : Module)
  /-- a task calls a service of the module: it is in `sem_wait` -/
  | call (m : Module) (t : τ)
  | resume (m : Module) (t : τ)
  | finish (m : Module) (t : τ)
  | lost
  | reconnected
  | reregistered (m : Module)
  | die (t : τ)
  deriving DecidableEq, Repr

def step (s : World τ) : Event τ → World τ
  | .init m => s.change (fun c => { c with initialized := true }) m
  | .call m t => s.change (·.semWait t) m
  | .resume m t => s.change (·.resume t) m
  | .finish m t => s.change (·.finish t) m
  | .lost => { s with connected := false }
  | .reconnected =>
    { asset := s.asset.empIpcBrokenHandler
      devicetree := s.devicetree.empIpcBrokenHandler
      connected := true }
  | .reregistered m => s.change (·.reregistered m) m
  | .die t => { s with asset := s.asset.die t, devicetree := s.devicetree.die t }

/-- What the scheduler and the tasks grant: a task that is in no service calls one, a woken
one resumes, one that holds the semaphore ends its command. -/
def Enabled (s : World τ) : Event τ → Prop
  | .init _ => True
  | .call m t => (s.client m).initialized ∧ ¬ s.asset.Serves t ∧ ¬ s.devicetree.Serves t
  | .resume m t => t ∈ (s.client m).woken
  | .finish m t => t ∈ (s.client m).holders
  | .lost => s.connected
  | .reconnected => ¬ s.connected
  | .reregistered m => 0 < (s.client m).reregistrations
  | .die t => s.asset.Serves t ∨ s.devicetree.Serves t

/-- When the handlers run, a task holds the semaphore of `asset`, as nothing else will post
it; nobody holds that of `devicetree`, which its re-registration posts, and no older
re-registration is under way.  No task is killed while it holds a semaphore. -/
def Sound (s : World τ) : Event τ → Prop
  | .reconnected =>
    (s.asset.initialized → s.asset.holders ≠ []) ∧
      (s.devicetree.initialized → s.devicetree.holders = [] ∧ s.devicetree.reregistrations = 0)
  | .die t => t ∉ s.asset.holders ∧ t ∉ s.devicetree.holders
  | _ => True

instance (s : World τ) : (e : Event τ) → Decidable (Enabled s e)
  | .init _ => inferInstanceAs (Decidable True)
  | .call _ _ => inferInstanceAs (Decidable (_ ∧ _ ∧ _))
  | .resume _ _ => inferInstanceAs (Decidable (_ ∈ _))
  | .finish _ _ => inferInstanceAs (Decidable (_ ∈ _))
  | .lost => inferInstanceAs (Decidable (_ = _))
  | .reconnected => inferInstanceAs (Decidable (¬ _))
  | .reregistered _ => inferInstanceAs (Decidable (_ < _))
  | .die _ => inferInstanceAs (Decidable (_ ∨ _))

instance (s : World τ) : (e : Event τ) → Decidable (Sound s e)
  | .init _ | .call _ _ | .resume _ _ | .finish _ _ | .lost | .reregistered _ =>
    inferInstanceAs (Decidable True)
  | .reconnected => inferInstanceAs (Decidable ((_ → _) ∧ (_ → _)))
  | .die _ => inferInstanceAs (Decidable (_ ∧ _))

end Operations

/-- One task at a time is between `sem_wait` and `sem_post`, the semaphore is binary, and
with neither a task nor a re-registration to wait for it is free and nobody sleeps on it. -/
structure Free {τ : Type} (c : Client τ) : Prop where
  exclusive : c.holders.length ≤ 1
  binary : c.semValue = 0 ∨ c.semValue = 1
  free : c.holders = [] → c.reregistrations = 0 → c.semValue = 1 ∧ c.waiting = []

/-! ## The balance of a semaphore -/

section Balance

variable {τ : Type} [DecidableEq τ]

def due (m : Module) (c : Client τ) : Nat :=
  match m with
  | .asset => c.holders.length
  | .devicetree => c.holders.length + c.reregistrations

structure Balanced (m : Module) (c : Client τ) : Prop where
  sum : c.semValue + due m c = 1
  nonneg : 0 ≤ c.semValue
  awake : 0 < c.semValue → c.waiting = []

variable {c : Client τ} {m : Module}

theorem Balanced.free (h : Balanced m c) : Free c where
  exclusive := by
    have hsum := h.sum
    have hnonneg := h.nonneg
    cases m <;> simp only [due] at hsum <;> omega
  binary := by
    have hsum := h.sum
    have hnonneg := h.nonneg
    omega
  free := by
    intro hholders hnone
    have hvalue : c.semValue = 1 := by
      have hsum := h.sum
      cases m <;> simpa [due, hholders, hnone] using hsum
    exact ⟨hvalue, h.awake (by omega)⟩

theorem balanced_loaded (m : Module) : Balanced m (loaded : Client τ) where
  sum := by cases m <;> rfl
  nonneg := Int.zero_le_ofNat 1
  awake := fun _ => rfl

theorem Balanced.congr {c c' : Client τ} (h : Balanced m c)
    (hvalue : c'.semValue = c.semValue) (hdue : due m c' = due m c)
    (hawake : c.waiting = [] → c'.waiting = []) : Balanced m c' where
  sum := by rw [hvalue, hdue]; exact h.sum
  nonneg := by rw [hvalue]; exact h.nonneg
  awake := fun hpos => hawake (h.awake (hvalue ▸ hpos))

theorem Balanced.semWait (h : Balanced m c) (t : τ) :
    Balanced m (c.semWait t) := by
  rw [Client.semWait]
  split
  · next hzero =>
    exact ⟨by cases m <;> exact h.sum, h.nonneg, fun hpos => absurd hpos (by simpa using hzero)⟩
  · next hpos =>
    have hsum := h.sum
    refine ⟨?_, ?_, ?_⟩
    · cases m <;> simp only [due, List.length_append, List.length_singleton] at hsum ⊢ <;>
        push_cast at hsum ⊢ <;> omega
    · show 0 ≤ c.semValue - 1
      omega
    · intro _
      exact h.awake (by omega)

theorem Balanced.semPost (hsum : c.semValue + due m c = 0)
    (hnonneg : 0 ≤ c.semValue) : Balanced m c.semPost := by
  have hone : 1 ≤ c.semValue + 1 := by omega
  rw [Client.semPost, if_pos hone]
  refine ⟨?_, ?_, fun _ => rfl⟩
  · show c.semValue + 1 + (due m c : Int) = 1
    omega
  · show 0 ≤ c.semValue + 1
    omega

theorem Balanced.resume (h : Balanced m c) (t : τ) :
    Balanced m (c.resume t) := by
  rw [Client.resume]
  refine Balanced.semWait ?_ t
  exact h.congr rfl (by cases m <;> rfl) id

theorem Balanced.finish (h : Balanced m c) {t : τ}
    (ht : t ∈ c.holders) : Balanced m (c.finish t) := by
  rw [Client.finish]
  refine Balanced.semPost ?_ h.nonneg
  have hlength := List.length_erase_of_mem ht
  have hpos := List.length_pos_of_mem ht
  have hsum := h.sum
  cases m <;> simp only [due, hlength] at hsum ⊢ <;> omega

theorem Balanced.reregistered (h : Balanced m c)
    (hpos : 0 < c.reregistrations) : Balanced m (c.reregistered m) := by
  cases m with
  | asset => exact h.congr rfl rfl id
  | devicetree =>
    refine Balanced.semPost ?_ h.nonneg
    have hsum := h.sum
    simp only [due] at hsum ⊢
    omega

theorem Balanced.handler_asset (h : Balanced .asset c)
    (hsound : c.initialized → c.holders ≠ []) : Balanced .asset c.empIpcBrokenHandler := by
  rw [Client.empIpcBrokenHandler]
  split
  · next hinit =>
    have hpos := List.length_pos_iff.mpr (hsound hinit)
    have hsum := h.sum
    have hnonneg := h.nonneg
    refine ⟨?_, Int.le_refl 0, fun hlt => absurd hlt (Int.lt_irrefl 0)⟩
    simp only [due] at hsum ⊢
    omega
  · exact h

theorem Balanced.handler_devicetree (h : Balanced .devicetree c)
    (hsound : c.initialized → c.holders = [] ∧ c.reregistrations = 0) :
    Balanced .devicetree c.empIpcBrokenHandler := by
  rw [Client.empIpcBrokenHandler]
  split
  · next hinit =>
    obtain ⟨hholders, hnone⟩ := hsound hinit
    refine ⟨?_, Int.le_refl 0, fun hlt => absurd hlt (Int.lt_irrefl 0)⟩
    simp [due, hholders, hnone]
  · exact h

theorem Balanced.die (h : Balanced m c) {t : τ}
    (ht : t ∉ c.holders) : Balanced m (c.die t) := by
  have hholders : (c.die t).holders = c.holders := by
    show c.holders.filter (· ≠ t) = c.holders
    rw [List.filter_eq_self]
    intro u hu
    have hne : u ≠ t := fun heq => ht (heq ▸ hu)
    simpa using hne
  refine h.congr rfl ?_ ?_
  · cases m <;> simp only [due, hholders] <;> rfl
  · intro hwaiting
    show c.waiting.filter (· ≠ t) = []
    rw [hwaiting]
    rfl

end Balance

/-! ## Runs -/

section Runs

variable {τ : Type} [DecidableEq τ]

def Inv (s : World τ) : Prop := Balanced .asset s.asset ∧ Balanced .devicetree s.devicetree

theorem inv_init : Inv (init : World τ) := ⟨balanced_loaded .asset, balanced_loaded .devicetree⟩

variable {s : World τ}

theorem Inv.client (h : Inv s) (m : Module) : Balanced m (s.client m) := by
  cases m with
  | asset => exact h.1
  | devicetree => exact h.2

theorem Inv.change (h : Inv s) {m : Module} {f : Client τ → Client τ}
    (hf : Balanced m (f (s.client m))) : Inv (s.change f m) := by
  cases m with
  | asset => exact ⟨hf, h.2⟩
  | devicetree => exact ⟨h.1, hf⟩

theorem Inv.step (h : Inv s) {e : Event τ} (he : Enabled s e) (hsound : Sound s e) :
    Inv (step s e) := by
  cases e with
  | init m => exact h.change ((h.client m).congr rfl (by cases m <;> rfl) id)
  | call m t => exact h.change ((h.client m).semWait t)
  | resume m t => exact h.change ((h.client m).resume t)
  | finish m t => exact h.change ((h.client m).finish he)
  | lost => exact h
  | reconnected =>
    exact ⟨h.1.handler_asset hsound.1, h.2.handler_devicetree hsound.2⟩
  | reregistered m => exact h.change ((h.client m).reregistered he)
  | die t => exact ⟨h.1.die hsound.1, h.2.die hsound.2⟩

/-- In every run whose reconnections leave one post to come, and in which no holder is
killed, services are blocked only while a command or a re-registration is under way. -/
theorem services_unblocked {s : World τ}
    (h : Runs step (fun s e => Enabled s e ∧ Sound s e) init s) :
    Free s.asset ∧ Free s.devicetree := by
  have hinv : Inv s := h.invariant (fun _ _ he hs => hs.step he.1 he.2) inv_init
  exact ⟨hinv.1.free, hinv.2.free⟩

/-- A task pushes data over a reconnection, and a variable is set after it. -/
theorem services_unblocked_push :
    let s := [Event.init .asset, .init .devicetree, .call .asset 0, .lost, .reconnected,
      .finish .asset 0, .call .devicetree 1, .reregistered .asset, .reregistered .devicetree,
      .resume .devicetree 1].foldl step (init : World Nat)
    Free s.asset ∧ Free s.devicetree := by
  intro s
  apply services_unblocked
  apply Along.runs
  decide

/-- After one reconnection at which nobody sends, the services of `asset` stay blocked: its
re-registration has ended, nobody holds the semaphore, and a task that pushes data sleeps. -/
theorem reconnection_blocks_asset :
    ∃ es : List (Event Nat), Along step Enabled init es ∧
      (es.foldl step init).asset.holders = [] ∧
      (es.foldl step init).asset.reregistrations = 0 ∧
      (es.foldl step init).asset.waiting = [0] ∧ ¬ Free (es.foldl step init).asset := by
  refine ⟨[.init .asset, .lost, .reconnected, .reregistered .asset, .call .asset 0],
    by decide, by decide, by decide, by decide, ?_⟩
  intro h
  have hfree := (h.free (by decide) (by decide)).1
  exact absurd hfree (by decide)

end Runs

end Mihini.Racon.Semaphore
