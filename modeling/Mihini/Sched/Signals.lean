import Mihini.Lib.LuaTable
import Mihini.Lib.Run

/-!
# Signals, hooks and waits

The part of `sched/init.lua` that delivers signals: `runcell`, `signal`, `register`,
`wait`, `multiWait`, `sigHook`, `sigOnce`, the hook part of `kill`, and `gc`.  A hook runs
inside the call of `signal` that found it, so that the bodies of hooks may emit, register
and kill in the middle of a delivery: the calls of `signal` that have not returned form a
stack, and the code of a hook acts while its frame is on top.
-/

set_option linter.unusedSectionVars false

namespace Mihini.Sched.Signals

open Mihini.Lib Function AList LuaTable

variable {E ε τ : Type}

/-- An event, the wildcard `'*'` and the event `'timeout'` included. -/
inductive Key (ε : Type) where
  | star
  | timeout
  | named (e : ε)
deriving DecidableEq, Repr

/-- What a cell is run for: the `n`th signal, or the timer, when `n` signals have been
emitted. -/
inductive Reason where
  | signal (n : Nat)
  | timeout (n : Nat)
deriving DecidableEq, Repr

inductive Cell (τ : Type) where
  | task (t : τ)
  | hook (once : Bool)
deriving DecidableEq, Repr

/-- A call of `parse_queue`: the cells of `old_queue` that are left, the address of
`new_queue`, and the hook whose body runs. -/
structure Parse (ε : Type) where
  key : Key ε
  rest : List Nat
  queue : Nat
  current : Option Nat

/-- A call of `signal`: `todo` has the queues to parse. -/
structure Frame (E ε τ : Type) where
  emitter : E
  event : Key ε
  emq : Nat
  todo : List (Key ε)
  parsing : Option (Parse ε)
  wokenup : List (τ × Reason)
  number : Nat
  due : Nat → Bool
  ran : List Nat

/-- A signal whose delivery is over; `alive` tells the persistent hooks at that moment. -/
structure Record where
  due : Nat → Bool
  alive : Nat → Bool
  ran : List Nat

structure World (E ε τ : Type) where
  waiting : LuaTable E Nat
  emqs : Nat → LuaTable (Key ε) Nat
  queues : Nat → List Nat
  /-- An emptied cell is `none`. -/
  cells : Nat → Option (Cell τ)
  /-- The first address that is not in use. -/
  fresh : Nat
  stack : List (Frame E ε τ)
  ready : List (τ × Reason)
  timers : List Nat
  calls : Nat → List (E × Key ε)
  born : Nat → Nat
  emitted : List (E × Key ε)
  woken : Nat → List Reason
  records : List Record

def init : World E ε τ where
  waiting := ∅
  emqs _ := ∅
  queues _ := []
  cells _ := none
  fresh := 0
  stack := []
  ready := []
  timers := []
  calls _ := []
  born _ := 0
  emitted := []
  woken _ := []
  records := []

def Frame.Keys (f : Frame E ε τ) (k : Key ε) : Prop := k = .star ∨ k = f.event

variable [DecidableEq E] [DecidableEq ε]

def Matches (e : E) (k : Key ε) (r : E × Key ε) : Bool :=
  r.1 = e && (r.2 = .star || r.2 = k)

namespace World

variable (s : World E ε τ)

def persistent (c : Nat) : Bool :=
  match s.cells c with
  | some (.hook false) => true
  | _ => false

def isOnce (c : Nat) : Bool :=
  match s.cells c with
  | some (.hook true) => true
  | _ => false

def due (e : E) (k : Key ε) (c : Nat) : Bool :=
  s.persistent c && (s.calls c).any (Matches e k)

def live (e : E) (k : Key ε) : List Nat :=
  match s.waiting.lookup e with
  | none => []
  | some m =>
    match (s.emqs m).lookup k with
    | none => []
    | some q => s.queues q

/-! ## `register` -/

def ensureEmq (e : E) : World E ε τ :=
  match s.waiting.lookup e with
  | some _ => s
  | none =>
    { s with
      waiting := s.waiting.insert e s.fresh
      emqs := update s.emqs s.fresh ∅
      fresh := s.fresh + 1 }

/-- `emq[k] = l`, for a new table `l`. -/
def install (m : Nat) (k : Key ε) (l : List Nat) : World E ε τ :=
  { s with
    emqs := update s.emqs m ((s.emqs m).insert k s.fresh)
    queues := update s.queues s.fresh l
    fresh := s.fresh + 1 }

def insertCell (c : Nat) (e : E) (k : Key ε) : World E ε τ :=
  match s.waiting.lookup e with
  | none => s
  | some m =>
    match (s.emqs m).lookup k with
    | some q => { s with queues := update s.queues q (s.queues q ++ [c]) }
    | none => s.install m k [c]

def register (c : Nat) (e : E) (keys : List (Key ε)) : World E ε τ :=
  keys.foldl (fun s k => s.insertCell c e k) (s.ensureEmq e)

/-- A new cell, registered to the events of every emitter; a timeout sets a timer for each
of them and registers the cell to `'timeout'`. -/
def newCell (cell : Cell τ) (emitters : List E) (keys : List (Key ε)) (timed : Bool) :
    World E ε τ :=
  let keys := if timed then .timeout :: keys else keys
  let c := s.fresh
  let s :=
    { s with
      cells := update s.cells c (some cell)
      calls := update s.calls c (emitters.flatMap fun e => keys.map (e, ·))
      born := update s.born c s.emitted.length
      timers := if timed then s.timers ++ emitters.map (fun _ => c) else s.timers
      fresh := s.fresh + 1 }
  emitters.foldl (fun s e => s.register c e keys) s

/-! ## `signal` -/

def emit (e : E) (k : Key ε) : World E ε τ :=
  match s.waiting.lookup e with
  | none =>
    { s with
      emitted := s.emitted ++ [(e, k)]
      records := s.records ++ [⟨s.due e k, s.persistent, []⟩] }
  | some m =>
    { s with
      emitted := s.emitted ++ [(e, k)]
      stack := ⟨e, k, m, [.star, k], none, [], s.emitted.length, s.due e k, []⟩ :: s.stack }

def startParse (f : Frame E ε τ) (fs : List (Frame E ε τ)) (k : Key ε) (ks : List (Key ε)) :
    World E ε τ :=
  match (s.emqs f.emq).lookup k with
  | none => { s with stack := { f with todo := ks } :: fs }
  | some q =>
    { s.install f.emq k [] with
      stack := { f with todo := ks, parsing := some ⟨k, s.queues q, s.fresh, none⟩ } :: fs }

def runcell (f : Frame E ε τ) (fs : List (Frame E ε τ)) (p : Parse ε) (c : Nat)
    (cs : List Nat) : World E ε τ :=
  match s.cells c with
  | none => { s with stack := { f with parsing := some { p with rest := cs } } :: fs }
  | some (.task t) =>
    { s with
      cells := update s.cells c none
      woken := update s.woken c (s.woken c ++ [.signal f.number])
      stack :=
        { f with
          parsing := some { p with rest := cs }
          wokenup := f.wokenup ++ [(t, .signal f.number)] } :: fs }
  | some (.hook _) =>
    { s with
      stack :=
        { f with
          parsing := some { p with rest := cs, current := some c }
          ran := f.ran ++ [c] } :: fs }

/-- The end of `parse_queue`: an empty `new_queue` is taken off its table, and an empty
table off `__tasks.waiting`. -/
def endParse (f : Frame E ε τ) (fs : List (Frame E ε τ)) (p : Parse ε) : World E ε τ :=
  if s.queues p.queue = [] then
    let emq := (s.emqs f.emq).erase p.key
    { s with
      emqs := update s.emqs f.emq emq
      waiting := if isEmpty emq then s.waiting.erase f.emitter else s.waiting
      stack := { f with parsing := none } :: fs }
  else { s with stack := { f with parsing := none } :: fs }

def endSignal (f : Frame E ε τ) (fs : List (Frame E ε τ)) : World E ε τ :=
  { s with
    stack := fs
    ready := s.ready ++ f.wokenup
    records := s.records ++ [⟨f.due, s.persistent, f.ran⟩] }

/-- The next thing the innermost `signal` does by itself. -/
def advance : World E ε τ :=
  match s.stack with
  | [] => s
  | f :: fs =>
    match f.parsing with
    | none =>
      match f.todo with
      | [] => s.endSignal f fs
      | k :: ks => s.startParse f fs k ks
    | some p =>
      match p.current, p.rest with
      | some _, _ => s
      | none, c :: cs => s.runcell f fs p c cs
      | none, [] => s.endParse f fs p

def leave (killself : Bool) : World E ε τ :=
  match s.stack with
  | [] => s
  | f :: fs =>
    match f.parsing with
    | none => s
    | some p =>
      match p.current with
      | none => s
      | some c =>
        let stack := { f with parsing := some { p with current := none } } :: fs
        if killself || s.isOnce c then
          { s with cells := update s.cells c none, stack := stack }
        else
          { s with
            queues := update s.queues p.queue (s.queues p.queue ++ [c])
            stack := stack }

/-! ## Timers, kills and the collector -/

def expire (c : Nat) (killself : Bool) : World E ε τ :=
  match s.cells c with
  | none => { s with timers := s.timers.erase c }
  | some (.task t) =>
    { s with
      timers := s.timers.erase c
      cells := update s.cells c none
      woken := update s.woken c (s.woken c ++ [.timeout s.emitted.length])
      ready := s.ready ++ [(t, .timeout s.emitted.length)] }
  | some (.hook once) =>
    { s with
      timers := s.timers.erase c
      cells := if once || killself then update s.cells c none else s.cells }

def kill (c : Nat) : World E ε τ :=
  { s with cells := update s.cells c none }

/-- Whether a queue is referenced from `__tasks.waiting`. -/
def reachable (q : Nat) : Bool :=
  s.waiting.entries.any fun w => (s.emqs w.2).entries.any fun r => r.2 = q

def collected (q : Nat) : List Nat :=
  if s.reachable q then (s.queues q).filter (fun c => (s.cells c).isSome) else s.queues q

def gc : World E ε τ :=
  if s.stack = [] then
    let emqs := fun m =>
      if s.waiting.entries.any (fun w => w.2 = m) then
        (s.emqs m).filter fun _ q => !(s.collected q).isEmpty
      else s.emqs m
    { s with
      queues := s.collected
      emqs := emqs
      waiting := s.waiting.filter fun _ m => !isEmpty (emqs m) }
  else { s with queues := s.collected }

end World

inductive Event (E ε τ : Type) where
  | emit (e : E) (k : Key ε)
  | advance
  | leave (killself : Bool)
  | sigHook (once : Bool) (e : E) (keys : List (Key ε)) (timed : Bool)
  /-- `wait` with one emitter, `multiWait` with several. -/
  | wait (t : τ) (emitters : List E) (keys : List (Key ε)) (timed : Bool)
  | expire (c : Nat) (killself : Bool)
  | kill (c : Nat)
  | gc
  /-- `sched.step` takes the first ready task. -/
  | resume

def step (s : World E ε τ) : Event E ε τ → World E ε τ
  | .emit e k => s.emit e k
  | .advance => s.advance
  | .leave killself => s.leave killself
  | .sigHook once e keys timed => s.newCell (.hook once) [e] keys timed
  | .wait t emitters keys timed => s.newCell (.task t) emitters keys timed
  | .expire c killself => s.expire c killself
  | .kill c => s.kill c
  | .gc => s.gc
  | .resume => { s with ready := s.ready.tail }

/-- Code of the application runs: no signal is being delivered, or the hook on top has the
control. -/
def Control (s : World E ε τ) : Prop :=
  ∀ f ∈ s.stack.head?, ∃ p, f.parsing = some p ∧ p.current ≠ none

/-- What the scheduler grants: hooks do not block, so that tasks wait and timers go off
when no signal is being delivered. -/
def Enabled (s : World E ε τ) : Event E ε τ → Prop
  | .emit _ _ => Control s
  | .advance => True
  | .leave _ => True
  | .sigHook _ _ _ _ => Control s
  | .wait _ _ _ _ => s.stack = []
  | .expire c _ => s.stack = [] ∧ c ∈ s.timers
  | .kill _ => Control s
  | .gc => Control s
  | .resume => s.stack = []

/-! ## Addresses -/

/-- Addresses in use are below `fresh`, an emitter has its own table, and an event of a
table its own queue. -/
structure Heap (s : World E ε τ) : Prop where
  waiting_lt : ∀ e m, s.waiting.lookup e = some m → m < s.fresh
  waiting_inj : ∀ e e' m, s.waiting.lookup e = some m → s.waiting.lookup e' = some m → e = e'
  queue_lt : ∀ m k q, (s.emqs m).lookup k = some q → m < s.fresh ∧ q < s.fresh
  queue_inj : ∀ m m' k k' q, (s.emqs m).lookup k = some q → (s.emqs m').lookup k' = some q →
    m = m' ∧ k = k'
  member_lt : ∀ q, ∀ c ∈ s.queues q, c < s.fresh
  unused : ∀ c, s.fresh ≤ c → s.cells c = none ∧ s.calls c = []
  frame_lt : ∀ f ∈ s.stack, f.emq < s.fresh
  parse_lt : ∀ f ∈ s.stack, ∀ p, f.parsing = some p → p.queue < s.fresh ∧
    (∀ c ∈ p.rest, c < s.fresh) ∧ ∀ c, p.current = some c → c < s.fresh

theorem heap_init : Heap (init : World E ε τ) where
  waiting_lt := by intro e m h; cases h
  waiting_inj := by intro e e' m h; cases h
  queue_lt := by intro m k q h; cases h
  queue_inj := by intro m m' k k' q h; cases h
  member_lt := by intro q c h; cases h
  unused := fun c _ => ⟨rfl, rfl⟩
  frame_lt := by intro f h; cases h
  parse_lt := by intro f h; cases h

theorem live_eq {s : World E ε τ} {e : E} {k : Key ε} {m q : Nat}
    (hm : s.waiting.lookup e = some m) (hq : (s.emqs m).lookup k = some q) :
    s.live e k = s.queues q := by
  simp [World.live, hm, hq]

/-- `live` depends on three tables only. -/
theorem live_congr {s s' : World E ε τ} (hw : s'.waiting = s.waiting) (he : s'.emqs = s.emqs)
    (hq : s'.queues = s.queues) (e : E) (k : Key ε) : s'.live e k = s.live e k := by
  simp [World.live, hw, he, hq]

/-- A table gets a new queue under an event that had none, or another one. -/
theorem lookup_install {emqs : Nat → LuaTable (Key ε) Nat} {m n q : Nat} {k k' : Key ε}
    {fresh : Nat} :
    (update emqs m ((emqs m).insert k fresh) n).lookup k' = some q ↔
      (n = m ∧ k' = k ∧ fresh = q) ∨ (¬(n = m ∧ k' = k) ∧ (emqs n).lookup k' = some q) := by
  by_cases hn : n = m
  · subst hn
    rw [update_self]
    by_cases hk : k' = k
    · subst hk
      simp [lookup_insert]
    · simp [lookup_insert_ne hk, hk]
  · simp [hn]

section Register

variable {s : World E ε τ}

theorem Heap.ensureEmq (h : Heap s) (e : E) : Heap (s.ensureEmq e) := by
  unfold World.ensureEmq
  split
  · exact h
  rename_i hnone
  have hold : ∀ e' m, (s.waiting.insert e s.fresh).lookup e' = some m →
      (e' = e ∧ m = s.fresh) ∨ (e' ≠ e ∧ s.waiting.lookup e' = some m) := by
    intro e' m hm
    by_cases he : e' = e
    · subst he
      rw [lookup_insert] at hm
      exact Or.inl ⟨rfl, (Option.some.inj hm).symm⟩
    · rw [lookup_insert_ne he] at hm
      exact Or.inr ⟨he, hm⟩
  have hqold : ∀ m k q, (update s.emqs s.fresh ∅ m).lookup k = some q →
      (s.emqs m).lookup k = some q := by
    intro m k q hq
    by_cases hm : m = s.fresh
    · subst hm
      rw [update_self] at hq
      cases hq
    · rwa [update_of_ne hm] at hq
  constructor
  · intro e' m hm
    rcases hold e' m hm with ⟨-, rfl⟩ | ⟨-, hm⟩
    · exact Nat.lt_succ_self _
    · exact Nat.lt_succ_of_lt (h.waiting_lt e' m hm)
  · intro e1 e2 m h1 h2
    rcases hold e1 m h1 with ⟨rfl, rfl⟩ | ⟨-, h1⟩
    · rcases hold e2 _ h2 with ⟨rfl, -⟩ | ⟨-, h2⟩
      · rfl
      · exact absurd (h.waiting_lt e2 _ h2) (Nat.lt_irrefl _)
    · rcases hold e2 m h2 with ⟨-, rfl⟩ | ⟨-, h2⟩
      · exact absurd (h.waiting_lt e1 _ h1) (Nat.lt_irrefl _)
      · exact h.waiting_inj e1 e2 m h1 h2
  · intro m k q hq
    obtain ⟨h1, h2⟩ := h.queue_lt m k q (hqold m k q hq)
    exact ⟨Nat.lt_succ_of_lt h1, Nat.lt_succ_of_lt h2⟩
  · intro m m' k k' q h1 h2
    exact h.queue_inj m m' k k' q (hqold m k q h1) (hqold m' k' q h2)
  · intro q c hc
    exact Nat.lt_succ_of_lt (h.member_lt q c hc)
  · intro c hc
    exact h.unused c (Nat.le_of_succ_le hc)
  · intro f hf
    exact Nat.lt_succ_of_lt (h.frame_lt f hf)
  · intro f hf p hp
    obtain ⟨h1, h2, h3⟩ := h.parse_lt f hf p hp
    exact ⟨Nat.lt_succ_of_lt h1, fun c hc => Nat.lt_succ_of_lt (h2 c hc),
      fun c hc => Nat.lt_succ_of_lt (h3 c hc)⟩

theorem live_ensureEmq (h : Heap s) (e e' : E) (k : Key ε) :
    (s.ensureEmq e).live e' k = s.live e' k := by
  unfold World.ensureEmq
  split
  · rfl
  rename_i hnone
  by_cases he : e' = e
  · subst he
    simp [World.live, hnone, lookup_insert]
  simp only [World.live, lookup_insert_ne he]
  cases hm : s.waiting.lookup e' with
  | none => rfl
  | some m =>
    have hne : m ≠ s.fresh := Nat.ne_of_lt (h.waiting_lt e' m hm)
    simp only [update_of_ne hne]

theorem ensureEmq_lookup (s : World E ε τ) (e : E) :
    ∃ m, (s.ensureEmq e).waiting.lookup e = some m := by
  unfold World.ensureEmq
  split
  · rename_i m hm
    exact ⟨m, hm⟩
  · exact ⟨s.fresh, lookup_insert _⟩

theorem Heap.install (h : Heap s) {m : Nat} (hm : m < s.fresh) (k : Key ε) {l : List Nat}
    (hl : ∀ c ∈ l, c < s.fresh) : Heap (s.install m k l) where
  waiting_lt := fun e m hm => Nat.lt_succ_of_lt (h.waiting_lt e m hm)
  waiting_inj := h.waiting_inj
  queue_lt := by
    intro n k' q hq
    rcases lookup_install.mp hq with ⟨rfl, -, rfl⟩ | ⟨-, hq⟩
    · exact ⟨Nat.lt_succ_of_lt hm, Nat.lt_succ_self _⟩
    · obtain ⟨h1, h2⟩ := h.queue_lt n k' q hq
      exact ⟨Nat.lt_succ_of_lt h1, Nat.lt_succ_of_lt h2⟩
  queue_inj := by
    intro n n' k1 k2 q h1 h2
    rcases lookup_install.mp h1 with ⟨rfl, rfl, rfl⟩ | ⟨-, h1⟩
    · rcases lookup_install.mp h2 with ⟨rfl, rfl, -⟩ | ⟨-, h2⟩
      · exact ⟨rfl, rfl⟩
      · exact absurd (h.queue_lt n' k2 _ h2).2 (Nat.lt_irrefl _)
    · rcases lookup_install.mp h2 with ⟨-, -, rfl⟩ | ⟨-, h2⟩
      · exact absurd (h.queue_lt n k1 _ h1).2 (Nat.lt_irrefl _)
      · exact h.queue_inj n n' k1 k2 q h1 h2
  member_lt := by
    intro q c hc
    by_cases hq : q = s.fresh
    · subst hq
      simp only [World.install, update_self] at hc
      exact Nat.lt_succ_of_lt (hl c hc)
    · simp only [World.install, update_of_ne hq] at hc
      exact Nat.lt_succ_of_lt (h.member_lt q c hc)
  unused := fun c hc => h.unused c (Nat.le_of_succ_le hc)
  frame_lt := fun f hf => Nat.lt_succ_of_lt (h.frame_lt f hf)
  parse_lt := by
    intro f hf p hp
    obtain ⟨h1, h2, h3⟩ := h.parse_lt f hf p hp
    exact ⟨Nat.lt_succ_of_lt h1, fun c hc => Nat.lt_succ_of_lt (h2 c hc),
      fun c hc => Nat.lt_succ_of_lt (h3 c hc)⟩

theorem live_install (h : Heap s) (m : Nat) (k : Key ε) (l : List Nat) (e : E) (k' : Key ε) :
    (s.install m k l).live e k' =
      if s.waiting.lookup e = some m ∧ k' = k then l else s.live e k' := by
  simp only [World.live, World.install]
  cases hn : s.waiting.lookup e with
  | none => simp
  | some n =>
    by_cases hinst : n = m ∧ k' = k
    · obtain ⟨rfl, rfl⟩ := hinst
      simp [lookup_insert]
    have hsame : (update s.emqs m ((s.emqs m).insert k s.fresh) n).lookup k' =
        (s.emqs n).lookup k' := by
      apply Option.ext
      intro q
      rw [lookup_install]
      constructor
      · rintro (⟨h1, h2, -⟩ | ⟨-, hq⟩)
        · exact absurd ⟨h1, h2⟩ hinst
        · exact hq
      · intro hq
        exact Or.inr ⟨hinst, hq⟩
    have hcond : ¬(some n = some m ∧ k' = k) := by simpa using hinst
    simp only [hsame, if_neg hcond]
    cases hq : (s.emqs n).lookup k' with
    | none => rfl
    | some q =>
      have hne : q ≠ s.fresh := Nat.ne_of_lt (h.queue_lt n k' q hq).2
      simp only [update_of_ne hne]

variable {c : Nat}

theorem Heap.append (h : Heap s) (q : Nat) (hc : c < s.fresh) :
    Heap { s with queues := update s.queues q (s.queues q ++ [c]) } := by
  refine { h with member_lt := ?_ }
  intro q' c' hc'
  by_cases hq : q' = q
  · subst hq
    simp only [update_self, List.mem_append, List.mem_singleton] at hc'
    rcases hc' with hc' | rfl
    · exact h.member_lt q' c' hc'
    · exact hc
  · simp only [update_of_ne hq] at hc'
    exact h.member_lt q' c' hc'

theorem live_append (h : Heap s) {m q : Nat} {e : E} {k : Key ε}
    (hm : s.waiting.lookup e = some m) (hq : (s.emqs m).lookup k = some q) (c : Nat) (e' : E)
    (k' : Key ε) :
    World.live { s with queues := update s.queues q (s.queues q ++ [c]) } e' k' =
      if e' = e ∧ k' = k then s.live e k ++ [c] else s.live e' k' := by
  by_cases heq : e' = e ∧ k' = k
  · obtain ⟨rfl, rfl⟩ := heq
    simp [World.live, hm, hq]
  rw [if_neg heq]
  simp only [World.live]
  cases hn : s.waiting.lookup e' with
  | none => rfl
  | some n =>
    cases hr : (s.emqs n).lookup k' with
    | none => simp only [hr]
    | some r =>
      have hne : r ≠ q := by
        intro hrq
        subst hrq
        obtain ⟨rfl, rfl⟩ := h.queue_inj n m k' k r hr hq
        exact heq ⟨h.waiting_inj e' e n hn hm, rfl⟩
      simp only [hr, update_of_ne hne]

theorem insertCell_waiting (s : World E ε τ) (c : Nat) (e : E) (k : Key ε) :
    (s.insertCell c e k).waiting = s.waiting := by
  unfold World.insertCell
  split
  · rfl
  · split <;> rfl

theorem Heap.insertCell (h : Heap s) (hc : c < s.fresh) (e : E) (k : Key ε) :
    Heap (s.insertCell c e k) := by
  unfold World.insertCell
  split
  · exact h
  · rename_i m hm
    split
    · exact h.append _ hc
    · exact h.install (h.waiting_lt e m hm) k (by simpa using hc)

theorem live_insertCell (h : Heap s) {e : E} (he : ∃ m, s.waiting.lookup e = some m) (c : Nat)
    (k : Key ε) (e' : E) (k' : Key ε) :
    (s.insertCell c e k).live e' k' =
      if e' = e ∧ k' = k then s.live e k ++ [c] else s.live e' k' := by
  obtain ⟨m, hm⟩ := he
  simp only [World.insertCell, hm]
  split
  · rename_i q hq
    exact live_append h hm hq c e' k'
  rename_i hq
  rw [live_install h]
  by_cases heq : e' = e ∧ k' = k
  · obtain ⟨rfl, rfl⟩ := heq
    simp [World.live, hm, hq]
  · rw [if_neg heq, if_neg]
    rintro ⟨hw, hk⟩
    exact heq ⟨h.waiting_inj e' e m hw hm, hk⟩

/-- What registering the cell `c` leaves alone: tables and queues stay where they are, and
get nothing but `c`. -/
structure Registers (c : Nat) (s s' : World E ε τ) : Prop where
  emq : ∀ e m, s.waiting.lookup e = some m → s'.waiting.lookup e = some m
  newEmq : ∀ e m, s'.waiting.lookup e = some m → s.waiting.lookup e = some m ∨ s.fresh ≤ m
  queue : ∀ m k q, (s.emqs m).lookup k = some q → (s'.emqs m).lookup k = some q
  members : ∀ m k q, (s'.emqs m).lookup k = some q → ∀ c' ∈ s'.queues q, c' = c ∨
    (s.emqs m).lookup k = some q ∧ c' ∈ s.queues q
  cells : s'.cells = s.cells
  stack : s'.stack = s.stack
  ready : s'.ready = s.ready
  timers : s'.timers = s.timers
  calls : s'.calls = s.calls
  born : s'.born = s.born
  emitted : s'.emitted = s.emitted
  woken : s'.woken = s.woken
  records : s'.records = s.records
  fresh : s.fresh ≤ s'.fresh

theorem Registers.refl (c : Nat) (s : World E ε τ) : Registers c s s where
  emq := fun _ _ h => h
  newEmq := fun _ _ h => Or.inl h
  queue := fun _ _ _ h => h
  members := fun _ _ _ h _ hc => Or.inr ⟨h, hc⟩
  cells := rfl
  stack := rfl
  ready := rfl
  timers := rfl
  calls := rfl
  born := rfl
  emitted := rfl
  woken := rfl
  records := rfl
  fresh := Nat.le_refl _

theorem Registers.trans {s s' s'' : World E ε τ} (h : Registers c s s')
    (h' : Registers c s' s'') : Registers c s s'' where
  emq := fun e m hm => h'.emq e m (h.emq e m hm)
  newEmq := by
    intro e m hm
    rcases h'.newEmq e m hm with hm | hm
    · exact h.newEmq e m hm
    · exact Or.inr (Nat.le_trans h.fresh hm)
  queue := fun m k q hq => h'.queue m k q (h.queue m k q hq)
  members := by
    intro m k q hq c' hc'
    rcases h'.members m k q hq c' hc' with hc' | ⟨hq, hc'⟩
    · exact Or.inl hc'
    · exact h.members m k q hq c' hc'
  cells := h'.cells.trans h.cells
  stack := h'.stack.trans h.stack
  ready := h'.ready.trans h.ready
  timers := h'.timers.trans h.timers
  calls := h'.calls.trans h.calls
  born := h'.born.trans h.born
  emitted := h'.emitted.trans h.emitted
  woken := h'.woken.trans h.woken
  records := h'.records.trans h.records
  fresh := Nat.le_trans h.fresh h'.fresh

theorem registers_ensureEmq (h : Heap s) (c : Nat) (e : E) : Registers c s (s.ensureEmq e) := by
  unfold World.ensureEmq
  split
  · exact Registers.refl c s
  rename_i hnone
  have hqueue : ∀ m k q, (update s.emqs s.fresh ∅ m).lookup k = some q →
      (s.emqs m).lookup k = some q := by
    intro m k q hq
    by_cases hm : m = s.fresh
    · rw [hm, update_self] at hq
      cases hq
    · rwa [update_of_ne hm] at hq
  refine { Registers.refl c s with
    emq := ?_, newEmq := ?_, queue := ?_, members := ?_, fresh := Nat.le_succ _ }
  · intro e' m hm
    have he : e' ≠ e := by
      rintro rfl
      rw [hnone] at hm
      cases hm
    exact (lookup_insert_ne he).trans hm
  · intro e' m hm
    by_cases he : e' = e
    · subst he
      dsimp only at hm
      rw [lookup_insert] at hm
      exact Or.inr (Nat.le_of_eq (Option.some.inj hm))
    · exact Or.inl ((lookup_insert_ne he).symm.trans hm)
  · intro m k q hq
    have hm : m ≠ s.fresh := Nat.ne_of_lt (h.queue_lt m k q hq).1
    dsimp only
    rw [update_of_ne hm]
    exact hq
  · intro m k q hq c' hc'
    exact Or.inr ⟨hqueue m k q hq, hc'⟩

theorem registers_insertCell (h : Heap s) (c : Nat) (e : E) (k : Key ε) :
    Registers c s (s.insertCell c e k) := by
  unfold World.insertCell
  split
  · exact Registers.refl c s
  rename_i m hm
  split
  · rename_i q hq
    refine { Registers.refl c s with members := ?_ }
    intro n k' r hr c' hc'
    by_cases hrq : r = q
    · subst hrq
      simp only [update_self, List.mem_append, List.mem_singleton] at hc'
      rcases hc' with hc' | hc'
      · exact Or.inr ⟨hr, hc'⟩
      · exact Or.inl hc'
    · simp only [update_of_ne hrq] at hc'
      exact Or.inr ⟨hr, hc'⟩
  · rename_i hnone
    refine { Registers.refl c s with queue := ?_, members := ?_, fresh := Nat.le_succ _ }
    · intro n k' q hq
      refine lookup_install.mpr (Or.inr ⟨?_, hq⟩)
      rintro ⟨rfl, rfl⟩
      rw [hnone] at hq
      cases hq
    · intro n k' q hq c' hc'
      rcases lookup_install.mp hq with ⟨-, -, rfl⟩ | ⟨-, hold⟩
      · simp only [World.install, update_self, List.mem_singleton] at hc'
        exact Or.inl hc'
      · have hne : q ≠ s.fresh := Nat.ne_of_lt (h.queue_lt n k' q hold).2
        simp only [World.install, update_of_ne hne] at hc'
        exact Or.inr ⟨hold, hc'⟩

/-- `register` appends the cell once for every key of the list. -/
theorem register_spec (h : Heap s) (hc : c < s.fresh) (e : E) (keys : List (Key ε)) :
    Heap (s.register c e keys) ∧ Registers c s (s.register c e keys) ∧
      ∀ e' k', (s.register c e keys).live e' k' =
        s.live e' k' ++ List.replicate ((keys.map (e, ·)).count (e', k')) c := by
  have hloop : ∀ (keys : List (Key ε)) (s : World E ε τ), Heap s → c < s.fresh →
      (∃ m, s.waiting.lookup e = some m) →
      Heap (keys.foldl (fun s k => s.insertCell c e k) s) ∧
      Registers c s (keys.foldl (fun s k => s.insertCell c e k) s) ∧
      ∀ e' k', (keys.foldl (fun s k => s.insertCell c e k) s).live e' k' =
        s.live e' k' ++ List.replicate ((keys.map (e, ·)).count (e', k')) c := by
    intro keys
    induction keys with
    | nil =>
      intro s h hc he
      exact ⟨h, Registers.refl c s, by simp⟩
    | cons k keys ih =>
      intro s h hc he
      have hsame := registers_insertCell h c e k
      obtain ⟨h1, h2, h3⟩ := ih (s.insertCell c e k) (h.insertCell hc e k)
        (Nat.lt_of_lt_of_le hc hsame.fresh) (by rw [insertCell_waiting]; exact he)
      refine ⟨h1, hsame.trans h2, ?_⟩
      intro e' k'
      rw [List.foldl_cons, h3, live_insertCell h he]
      by_cases heq : e' = e ∧ k' = k
      · obtain ⟨rfl, rfl⟩ := heq
        simp [List.replicate_succ]
      have hne : (e, k) ≠ (e', k') := by
        intro heq'
        cases heq'
        exact heq ⟨rfl, rfl⟩
      rw [if_neg heq, List.map_cons, List.count_cons_of_ne hne]
  have hsame := registers_ensureEmq h c e
  obtain ⟨h1, h2, h3⟩ := hloop keys (s.ensureEmq e) (h.ensureEmq e)
    (Nat.lt_of_lt_of_le hc hsame.fresh) (ensureEmq_lookup s e)
  refine ⟨h1, hsame.trans h2, ?_⟩
  intro e' k'
  rw [World.register, h3, live_ensureEmq h]

def World.addCell (s : World E ε τ) (cell : Cell τ) (calls : List (E × Key ε))
    (timers : List Nat) : World E ε τ :=
  { s with
    cells := update s.cells s.fresh (some cell)
    calls := update s.calls s.fresh calls
    born := update s.born s.fresh s.emitted.length
    timers := timers
    fresh := s.fresh + 1 }

theorem Heap.addCell (h : Heap s) (cell : Cell τ) (calls : List (E × Key ε))
    (timers : List Nat) : Heap (s.addCell cell calls timers) where
  waiting_lt := fun e m hm => Nat.lt_succ_of_lt (h.waiting_lt e m hm)
  waiting_inj := h.waiting_inj
  queue_lt := by
    intro m k q hq
    obtain ⟨h1, h2⟩ := h.queue_lt m k q hq
    exact ⟨Nat.lt_succ_of_lt h1, Nat.lt_succ_of_lt h2⟩
  queue_inj := h.queue_inj
  member_lt := fun q c hc => Nat.lt_succ_of_lt (h.member_lt q c hc)
  unused := by
    intro c hc
    have hne : c ≠ s.fresh := Nat.ne_of_gt hc
    simp only [World.addCell, update_of_ne hne]
    exact h.unused c (Nat.le_of_succ_le hc)
  frame_lt := fun f hf => Nat.lt_succ_of_lt (h.frame_lt f hf)
  parse_lt := by
    intro f hf p hp
    obtain ⟨h1, h2, h3⟩ := h.parse_lt f hf p hp
    exact ⟨Nat.lt_succ_of_lt h1, fun c hc => Nat.lt_succ_of_lt (h2 c hc),
      fun c hc => Nat.lt_succ_of_lt (h3 c hc)⟩

def registrations (emitters : List E) (keys : List (Key ε)) (timed : Bool) : List (E × Key ε) :=
  emitters.flatMap fun e => (if timed then .timeout :: keys else keys).map (e, ·)

/-- `newCell` makes one cell, known to every queue it is registered to. -/
theorem newCell_spec (h : Heap s) (cell : Cell τ) (emitters : List E) (keys : List (Key ε))
    (timed : Bool) :
    ∃ timers, (∀ c ∈ timers, c ∈ s.timers ∨ c = s.fresh ∧ timed = true ∧ emitters ≠ []) ∧
      Heap (s.newCell cell emitters keys timed) ∧
      Registers s.fresh (s.addCell cell (registrations emitters keys timed) timers)
        (s.newCell cell emitters keys timed) ∧
      ∀ e k, (s.newCell cell emitters keys timed).live e k = s.live e k ++
        List.replicate ((registrations emitters keys timed).count (e, k)) s.fresh := by
  have hloop : ∀ (keys : List (Key ε)) (emitters : List E) (s : World E ε τ) (c : Nat), Heap s →
      c < s.fresh →
      Heap (emitters.foldl (fun s e => s.register c e keys) s) ∧
      Registers c s (emitters.foldl (fun s e => s.register c e keys) s) ∧
      ∀ e k, (emitters.foldl (fun s e => s.register c e keys) s).live e k = s.live e k ++
        List.replicate ((emitters.flatMap fun e => keys.map (e, ·)).count (e, k)) c := by
    intro keys emitters
    induction emitters with
    | nil =>
      intro s c h hc
      exact ⟨h, Registers.refl c s, by simp⟩
    | cons e emitters ih =>
      intro s c h hc
      obtain ⟨h1, h2, h3⟩ := register_spec h hc e keys
      obtain ⟨i1, i2, i3⟩ := ih (s.register c e keys) c h1 (Nat.lt_of_lt_of_le hc h2.fresh)
      refine ⟨i1, h2.trans i2, ?_⟩
      intro e' k'
      rw [List.foldl_cons, i3, h3, List.flatMap_cons, List.count_append, List.append_assoc,
        ← List.replicate_add]
  refine ⟨if timed then s.timers ++ emitters.map (fun _ => s.fresh) else s.timers, ?_, ?_⟩
  · intro c hc
    cases timed with
    | false => exact Or.inl hc
    | true =>
      rcases List.mem_append.mp hc with hc | hc
      · exact Or.inl hc
      · obtain ⟨e, he, rfl⟩ := List.mem_map.mp hc
        exact Or.inr ⟨rfl, rfl, List.ne_nil_of_mem he⟩
  · exact hloop (if timed then .timeout :: keys else keys) emitters
      (s.addCell cell (registrations emitters keys timed) _) s.fresh (h.addCell _ _ _)
      (Nat.lt_succ_self _)

end Register

section Delivery

variable {s : World E ε τ} {f : Frame E ε τ} {fs : List (Frame E ε τ)} {p : Parse ε}

/-- The frame on top is replaced by one that is as well-formed. -/
theorem Heap.withTop (h : Heap s) (hstack : s.stack = f :: fs) {t : Frame E ε τ}
    (hemq : t.emq = f.emq)
    (hp : ∀ p', t.parsing = some p' → p'.queue < s.fresh ∧ (∀ c ∈ p'.rest, c < s.fresh) ∧
      ∀ c, p'.current = some c → c < s.fresh) :
    Heap { s with stack := t :: fs } := by
  refine { h with frame_lt := ?_, parse_lt := ?_ }
  · intro g hg
    rcases List.mem_cons.mp hg with rfl | hg
    · rw [hemq]
      exact h.frame_lt f (by rw [hstack]; exact List.mem_cons_self)
    · exact h.frame_lt g (by rw [hstack]; exact List.mem_cons_of_mem _ hg)
  · intro g hg p' hp'
    rcases List.mem_cons.mp hg with rfl | hg
    · exact hp p' hp'
    · exact h.parse_lt g (by rw [hstack]; exact List.mem_cons_of_mem _ hg) p' hp'

theorem Heap.top_parse (h : Heap s) (hstack : s.stack = f :: fs) (hp : f.parsing = some p) :
    p.queue < s.fresh ∧ (∀ c ∈ p.rest, c < s.fresh) ∧
      ∀ c, p.current = some c → c < s.fresh :=
  h.parse_lt f (by rw [hstack]; exact List.mem_cons_self) p hp

theorem Heap.top_lt (h : Heap s) (hstack : s.stack = f :: fs) : f.emq < s.fresh :=
  h.frame_lt f (by rw [hstack]; exact List.mem_cons_self)

theorem Heap.startParse (h : Heap s) (hstack : s.stack = f :: fs) (hp : f.parsing = none)
    (k : Key ε) (ks : List (Key ε)) : Heap (s.startParse f fs k ks) := by
  unfold World.startParse
  split
  · apply h.withTop hstack
    · rfl
    · intro p' hp'
      simp only [hp] at hp'
      cases hp'
  · rename_i q hq
    have hi := h.install (h.top_lt hstack) k (l := []) (by intro c hc; cases hc)
    apply hi.withTop (f := f) hstack
    · rfl
    · intro p' hp'
      cases hp'
      refine ⟨Nat.lt_succ_self _, fun c hc => ?_, by intro c hc; cases hc⟩
      exact Nat.lt_succ_of_lt (h.member_lt q c hc)

theorem live_startParse (h : Heap s) (k : Key ε) (ks : List (Key ε)) (e : E) (k' : Key ε) :
    (s.startParse f fs k ks).live e k' =
      if s.waiting.lookup e = some f.emq ∧ k' = k then [] else s.live e k' := by
  unfold World.startParse
  split
  · rename_i hq
    split
    · rename_i hcond
      obtain ⟨hw, rfl⟩ := hcond
      simp [World.live, hw, hq]
    · exact live_congr rfl rfl rfl e k'
  · rw [← live_install h f.emq k [] e k']
    exact live_congr rfl rfl rfl e k'

theorem Heap.setCells (h : Heap s) (cells : Nat → Option (Cell τ))
    (hcells : ∀ c, s.cells c = none → cells c = none) : Heap { s with cells := cells } :=
  { h with unused := fun c hc => ⟨hcells c (h.unused c hc).1, (h.unused c hc).2⟩ }

theorem emptied_none (s : World E ε τ) (c c' : Nat) (hc : s.cells c' = none) :
    update s.cells c none c' = none := by
  by_cases h : c' = c
  · subst h
    exact update_self _ _ _
  · rw [update_of_ne h]
    exact hc

theorem Heap.runcell (h : Heap s) (hstack : s.stack = f :: fs) (hp : f.parsing = some p)
    {c : Nat} {cs : List Nat} (hrest : p.rest = c :: cs) : Heap (s.runcell f fs p c cs) := by
  obtain ⟨h1, h2, h3⟩ := h.top_parse hstack hp
  have hcs : ∀ c' ∈ cs, c' < s.fresh := by
    intro c' hc'
    exact h2 c' (by rw [hrest]; exact List.mem_cons_of_mem _ hc')
  unfold World.runcell
  split
  · apply h.withTop hstack
    · rfl
    · intro p' hp'
      cases hp'
      exact ⟨h1, hcs, h3⟩
  · rename_i t ht
    have hcells := h.setCells _ (emptied_none s c)
    have htop := hcells.withTop (f := f) hstack (t := { f with
      parsing := some { p with rest := cs }, wokenup := f.wokenup ++ [(t, .signal f.number)] })
      rfl (by
        intro p' hp'
        cases hp'
        exact ⟨h1, hcs, h3⟩)
    exact { htop with }
  · apply h.withTop hstack
    · rfl
    · intro p' hp'
      cases hp'
      refine ⟨h1, hcs, ?_⟩
      rintro c' ⟨⟩
      exact h2 c (by rw [hrest]; exact List.mem_cons_self)

/-- Entries of `emqs` and of `__tasks.waiting` disappear. -/
theorem Heap.shrink (h : Heap s) (waiting : LuaTable E Nat)
    (emqs : Nat → LuaTable (Key ε) Nat)
    (hw : ∀ e m, waiting.lookup e = some m → s.waiting.lookup e = some m)
    (he : ∀ m k q, (emqs m).lookup k = some q → (s.emqs m).lookup k = some q) :
    Heap { s with waiting := waiting, emqs := emqs } where
  waiting_lt := fun e m hm => h.waiting_lt e m (hw e m hm)
  waiting_inj := fun e e' m h1 h2 => h.waiting_inj e e' m (hw e m h1) (hw e' m h2)
  queue_lt := fun m k q hq => h.queue_lt m k q (he m k q hq)
  queue_inj := fun m m' k k' q h1 h2 =>
    h.queue_inj m m' k k' q (he m k q h1) (he m' k' q h2)
  member_lt := h.member_lt
  unused := h.unused
  frame_lt := h.frame_lt
  parse_lt := h.parse_lt

theorem lookup_erase_some {α β : Type} [DecidableEq α] {t : LuaTable α β} {a a' : α} {b : β}
    (h : (t.erase a).lookup a' = some b) : t.lookup a' = some b ∧ a' ≠ a := by
  by_cases ha : a' = a
  · subst ha
    rw [lookup_erase] at h
    cases h
  · rw [lookup_erase_ne ha] at h
    exact ⟨h, ha⟩

theorem lookup_erased {emqs : Nat → LuaTable (Key ε) Nat} {m n q : Nat} {k k' : Key ε}
    (h : (update emqs m ((emqs m).erase k) n).lookup k' = some q) :
    (emqs n).lookup k' = some q ∧ ¬(n = m ∧ k' = k) := by
  by_cases hn : n = m
  · subst hn
    rw [update_self] at h
    obtain ⟨h1, h2⟩ := lookup_erase_some h
    exact ⟨h1, fun hcon => h2 hcon.2⟩
  · rw [update_of_ne hn] at h
    exact ⟨h, fun hcon => hn hcon.1⟩

theorem Heap.endParse (h : Heap s) (hstack : s.stack = f :: fs) : Heap (s.endParse f fs p) := by
  have hnone : ∀ p', ({ f with parsing := none } : Frame E ε τ).parsing = some p' →
      p'.queue < s.fresh ∧ (∀ c ∈ p'.rest, c < s.fresh) ∧
        ∀ c, p'.current = some c → c < s.fresh := by
    intro p' hp'
    cases hp'
  unfold World.endParse
  split
  · have hs := h.shrink (if isEmpty ((s.emqs f.emq).erase p.key)
        then s.waiting.erase f.emitter else s.waiting)
      (update s.emqs f.emq ((s.emqs f.emq).erase p.key)) (by
        intro e m hm
        split at hm
        · exact (lookup_erase_some hm).1
        · exact hm) (fun m k q hq => (lookup_erased hq).1)
    exact hs.withTop (f := f) hstack rfl hnone
  · exact h.withTop hstack rfl hnone

theorem Heap.leave (h : Heap s) (killself : Bool) : Heap (s.leave killself) := by
  unfold World.leave
  split
  · exact h
  rename_i f fs hstack
  split
  · exact h
  rename_i p hp
  split
  · exact h
  rename_i c hc
  obtain ⟨h1, h2, h3⟩ := h.top_parse hstack hp
  have htop : ∀ p', ({ f with parsing := some { p with current := none } } :
      Frame E ε τ).parsing = some p' → p'.queue < s.fresh ∧
      (∀ c ∈ p'.rest, c < s.fresh) ∧ ∀ c, p'.current = some c → c < s.fresh := by
    intro p' hp'
    cases hp'
    exact ⟨h1, h2, by intro c hc; cases hc⟩
  dsimp only
  split
  · exact (h.setCells _ (emptied_none s c)).withTop (f := f) hstack rfl htop
  · exact (h.append p.queue (h3 c hc)).withTop (f := f) hstack rfl htop

theorem Heap.emit (h : Heap s) (e : E) (k : Key ε) : Heap (s.emit e k) := by
  unfold World.emit
  split
  · exact { h with }
  rename_i m hm
  refine { h with frame_lt := ?_, parse_lt := ?_ }
  · intro g hg
    rcases List.mem_cons.mp hg with rfl | hg
    · exact h.waiting_lt e m hm
    · exact h.frame_lt g hg
  · intro g hg p hp
    rcases List.mem_cons.mp hg with rfl | hg
    · cases hp
    · exact h.parse_lt g hg p hp

theorem Heap.endSignal (h : Heap s) (hstack : s.stack = f :: fs) : Heap (s.endSignal f fs) := by
  refine { h with frame_lt := ?_, parse_lt := ?_ }
  · intro g hg
    exact h.frame_lt g (by rw [hstack]; exact List.mem_cons_of_mem _ hg)
  · intro g hg
    exact h.parse_lt g (by rw [hstack]; exact List.mem_cons_of_mem _ hg)

theorem Heap.expire (h : Heap s) (c : Nat) (killself : Bool) : Heap (s.expire c killself) := by
  unfold World.expire
  split
  · exact { h with }
  · have hc := h.setCells _ (emptied_none s c)
    exact { hc with }
  · rename_i once honce
    have hc := h.setCells (if once || killself then update s.cells c none
      else s.cells) (by
        intro c' hc'
        split
        · exact emptied_none s c c' hc'
        · exact hc')
    exact { hc with }

theorem reachable_of_lookup {e : E} {k : Key ε} {m q : Nat}
    (hm : s.waiting.lookup e = some m) (hq : (s.emqs m).lookup k = some q) :
    s.reachable q = true := by
  unfold World.reachable
  rw [List.any_eq_true]
  refine ⟨⟨e, m⟩, mem_entries_iff.mpr hm, ?_⟩
  rw [List.any_eq_true]
  exact ⟨⟨k, q⟩, mem_entries_iff.mpr hq, by simp⟩

theorem collected_eq {q : Nat} (h : s.reachable q = true) :
    s.collected q = (s.queues q).filter fun c => (s.cells c).isSome := by
  rw [World.collected, if_pos h]

theorem Heap.gc (h : Heap s) : Heap s.gc := by
  have hq : Heap { s with queues := s.collected } := by
    refine { h with member_lt := ?_ }
    intro q c hc
    dsimp only [World.collected] at hc
    split at hc
    · exact h.member_lt q c (List.mem_filter.mp hc).1
    · exact h.member_lt q c hc
  unfold World.gc
  dsimp only
  split
  · apply hq.shrink
    · intro e m hm
      rw [lookup_filter, Option.filter_eq_some_iff] at hm
      exact hm.1
    · intro m k q hlook
      split at hlook
      · rw [lookup_filter, Option.filter_eq_some_iff] at hlook
        exact hlook.1
      · exact hlook
  · exact hq

theorem gc_lookup_queue {e : E} {m : Nat} (hm : s.waiting.lookup e = some m) (k : Key ε) :
    (s.gc.emqs m).lookup k = if s.stack = [] then
      ((s.emqs m).lookup k).filter (fun q => !(s.collected q).isEmpty)
      else (s.emqs m).lookup k := by
  have hany : s.waiting.entries.any (fun w => decide (w.2 = m)) = true := by
    rw [List.any_eq_true]
    exact ⟨⟨e, m⟩, mem_entries_iff.mpr hm, by simp⟩
  unfold World.gc
  dsimp only
  split
  · simp only [hany, if_true, lookup_filter]
  · rfl

theorem gc_lookup_emq (s : World E ε τ) (e : E) :
    s.gc.waiting.lookup e = if s.stack = [] then
      (s.waiting.lookup e).filter (fun m => !isEmpty (s.gc.emqs m))
      else s.waiting.lookup e := by
  unfold World.gc
  dsimp only
  split
  · exact lookup_filter _ _ _
  · rfl

/-- The collector drops the emptied cells and nothing else. -/
theorem live_gc (s : World E ε τ) (e : E) (k : Key ε) :
    s.gc.live e k = (s.live e k).filter fun c => (s.cells c).isSome := by
  have hqueues : s.gc.queues = s.collected := by
    unfold World.gc
    split <;> rfl
  have hemq := gc_lookup_emq s e
  cases hm : s.waiting.lookup e with
  | none =>
    have hnone : s.gc.waiting.lookup e = none := by
      rw [hemq, hm]
      split <;> rfl
    simp [World.live, hm, hnone]
  | some m =>
    have hsub : ∀ m', s.gc.waiting.lookup e = some m' → m' = m := by
      intro m' hm'
      rw [hemq, hm] at hm'
      split at hm'
      · rw [Option.filter_eq_some_iff] at hm'
        exact (Option.some.inj hm'.1).symm
      · exact (Option.some.inj hm').symm
    have hlook := gc_lookup_queue hm k
    -- without its queue, the event has nothing to offer
    have hgone : (s.gc.emqs m).lookup k = none → s.gc.live e k = [] := by
      intro hnone
      rw [World.live]
      split
      · rfl
      · rename_i m' hm'
        rw [hsub m' hm', hnone]
    cases hq : (s.emqs m).lookup k with
    | none =>
      rw [hq] at hlook
      rw [hgone (by rw [hlook]; split <;> rfl)]
      simp [World.live, hm, hq]
    | some q =>
      rw [hq] at hlook
      rw [live_eq hm hq, ← collected_eq (reachable_of_lookup hm hq)]
      by_cases hstack : s.stack = []
      · rw [if_pos hstack] at hlook hemq
        by_cases hempty : s.collected q = []
        · rw [hempty]
          exact hgone (by rw [hlook]; simp [hempty])
        have hsome : (s.gc.emqs m).lookup k = some q := by
          rw [hlook]
          simp [hempty]
        have hkeep : isEmpty (s.gc.emqs m) = false := by
          by_contra hcon
          have hnone := lookup_of_isEmpty (by simpa using hcon) k
          rw [hsome] at hnone
          cases hnone
        rw [live_eq (by rw [hemq, hm]; simp [hkeep]) hsome, hqueues]
      · rw [if_neg hstack] at hlook hemq
        rw [live_eq (by rw [hemq, hm]) hlook, hqueues]

theorem Heap.kill (h : Heap s) (c : Nat) : Heap (s.kill c) := h.setCells _ (emptied_none s c)

end Delivery

end Mihini.Sched.Signals
