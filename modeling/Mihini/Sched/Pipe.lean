import Mathlib.Data.Rat.Defs
import Mathlib.Algebra.Order.Ring.Rat
import Mathlib.Tactic.Linarith
import Mihini.Lib.LuaArray

/-!
# Pipes

`sched/pipe.lua`: the table of a pipe, its operations, and the queue they implement.
-/

namespace Mihini.Sched

open Mihini.Lib List

/-- A cell of `content`: a value sent, or the `false` that `receive` leaves behind. -/
inductive Slot (α : Type) where
  | value (x : α)
  | consumed
deriving DecidableEq, Repr

inductive PipeState where
  | empty
  | ready
  | full
deriving DecidableEq, Repr

structure Pipe (α : Type) where
  sndidx : Nat
  rcvidx : Nat
  content : LuaArray (Slot α)
  maxlength : Option ℚ
  state : PipeState
  wasteabs : ℚ
  wasteprop : ℚ

inductive PipeOp (α : Type) where
  | send (x : α)
  | receive
  | pushback (x : α)
  | peek
  | length
  | setmaxlength (maxlength : Option ℚ)
  | reset
  | setwaste (abs prop : ℚ)

inductive PipeResult (α : Type) where
  | self
  | value (x : Option (Slot α))
  | length (n : Nat)
  | content (t : LuaArray (Slot α))

/-- One pass through an operation: it waits for a `'state'` signal, returns `nil` and a
message, raises an error, or returns from a changed pipe; `signal` is then the new state
word, when `updatestate` has announced one. -/
inductive PipeOutcome (α : Type) where
  | wait
  | refused (message : String)
  | raised (message : String)
  | done (p : Pipe α) (signal : Option PipeState) (result : PipeResult α)

namespace Pipe

variable {α : Type}

/-- `pipe(maxlength)` -/
def new (maxlength : Option ℚ) : Pipe α where
  sndidx := 1
  rcvidx := 1
  content := LuaArray.empty
  maxlength := maxlength
  state := .empty
  wasteabs := 32
  wasteprop := 2

def length (p : Pipe α) : Nat := p.sndidx - p.rcvidx

def newstate (p : Pipe α) : PipeState :=
  if p.length = 0 then .empty
  else if p.maxlength = some (p.length : ℚ) then .full
  else .ready

def updatestate (p : Pipe α) : Pipe α × Option PipeState :=
  if p.state ≠ p.newstate then ({ p with state := p.newstate }, some p.newstate)
  else (p, none)

/-- `border` is what `#self.content` gives in `unpack`. -/
def recompact (p : Pipe α) (border : Nat) : Pipe α :=
  let wasted := p.rcvidx - 1
  if (wasted : ℚ) ≤ p.wasteabs then p
  else
    let used := p.sndidx - p.rcvidx
    if (wasted : ℚ) ≤ p.wasteprop * used then p
    else
      let content :=
        if p.sndidx < 2000 then p.content.window wasted border
        else p.content.window wasted (wasted + used)
      { p with content := content, rcvidx := 1, sndidx := used + 1 }

/-- The return of an operation that ends with `updatestate(self)`. -/
def updated (p : Pipe α) (result : PipeResult α) : PipeOutcome α :=
  .done p.updatestate.1 p.updatestate.2 result

def receive (p : Pipe α) (border : Nat) : PipeOutcome α :=
  if p.rcvidx = p.sndidx then .wait
  else
    let x := p.content p.rcvidx
    let taken := { p with content := p.content.set p.rcvidx .consumed, rcvidx := p.rcvidx + 1 }
    (taken.recompact border).updated (.value x)

def send (p : Pipe α) (x : α) : PipeOutcome α :=
  if p.state = .full then .wait
  else
    { p with content := p.content.set p.sndidx (.value x), sndidx := p.sndidx + 1 }.updated
      .self

/-- `border` is what `#self.content` gives in `table.insert`. -/
def pushback (p : Pipe α) (border : Nat) (x : α) : PipeOutcome α :=
  if p.state = .full then .refused "length would exceed maxlength"
  else if p.rcvidx - 1 = 0 then
    { p with
      content := p.content.insertFirst border (.value x), sndidx := p.sndidx + 1 }.updated .self
  else
    { p with
      content := p.content.set (p.rcvidx - 1) (.value x), rcvidx := p.rcvidx - 1 }.updated .self

def reset (p : Pipe α) : PipeOutcome α :=
  { p with content := LuaArray.empty }.updated (.content p.content)

def peek (p : Pipe α) : Option (Slot α) := p.content p.rcvidx

def setmaxlength (p : Pipe α) : Option ℚ → PipeOutcome α
  -- the length is compared with the argument before the argument is tested
  | none => .raised "attempt to compare nil with number"
  | some m =>
    if (p.length : ℚ) > m then .refused "length exceeds new maxlength"
    else if m < 1 then .refused "invalid maxlength"
    else { p with maxlength := some m }.updated .self

def setwaste (p : Pipe α) (abs prop : ℚ) : Pipe α :=
  { p with wasteabs := abs, wasteprop := prop }

def run (p : Pipe α) (border : Nat) : PipeOp α → PipeOutcome α
  | .send x => p.send x
  | .receive => p.receive border
  | .pushback x => p.pushback border x
  | .peek => .done p none (.value p.peek)
  | .length => .done p none (.length p.length)
  | .setmaxlength m => p.setmaxlength m
  | .reset => p.reset
  | .setwaste abs prop => .done (p.setwaste abs prop) none .self

def measured (p : Pipe α) : PipeOp α → LuaArray (Slot α)
  | .receive => p.content.set p.rcvidx .consumed
  | _ => p.content

end Pipe

/-! ## The queue -/

namespace Fifo

variable {α : Type}

/-- A queue with push-front; every maximum and waste setting is the same to it. -/
def step (q : List α) : PipeOp α → List α × PipeResult α
  | .send x => (q ++ [x], .self)
  | .receive => (q.tail, .value (q.head?.map .value))
  | .pushback x => (x :: q, .self)
  | .peek => (q, .value (q.head?.map .value))
  | .length => (q, .length q.length)
  | .setmaxlength _ => (q, .self)
  | .reset => ([], .content (LuaArray.ofList (q.map .value)))
  | .setwaste _ _ => (q, .self)

def run (ops : List (PipeOp α)) : List α × List (PipeResult α) :=
  ops.foldl (fun s op => ((step s.1 op).1, s.2 ++ [(step s.1 op).2])) ([], [])

theorem run_snoc (ops : List (PipeOp α)) (op : PipeOp α) :
    run (ops ++ [op]) =
      ((step (run ops).1 op).1, (run ops).2 ++ [(step (run ops).1 op).2]) := by
  rw [run, foldl_append]
  rfl

end Fifo

namespace Pipe

variable {α : Type} {p p' : Pipe α}

/-! ## The state word -/

theorem updatestate_state (p : Pipe α) : p.updatestate.1.state = p.newstate := by
  unfold updatestate
  split
  · rfl
  · rename_i h
    exact not_not.mp h

theorem updatestate_eq (p : Pipe α) :
    p.updatestate.1 = { p with state := p.newstate } := by
  rw [← updatestate_state]
  unfold updatestate
  split <;> rfl

theorem updatestate_none (h : p.updatestate.2 = none) : p.newstate = p.state := by
  unfold updatestate at h
  split at h
  · cases h
  · rename_i hs
    exact (not_not.mp hs).symm

structure Synced (p : Pipe α) : Prop where
  pos : 1 ≤ p.rcvidx
  le : p.rcvidx ≤ p.sndidx
  state : p.state = p.newstate

namespace Synced

theorem new (maxlength : Option ℚ) : Synced (Pipe.new maxlength : Pipe α) :=
  ⟨Nat.le_refl _, Nat.le_refl _, rfl⟩

theorem updatestate (hpos : 1 ≤ p.rcvidx) (hle : p.rcvidx ≤ p.sndidx) :
    Synced p.updatestate.1 := by
  rw [updatestate_eq]
  exact ⟨hpos, hle, rfl⟩

theorem state_empty (h : Synced p) : p.state = .empty ↔ p.rcvidx = p.sndidx := by
  have hle := h.le
  rw [h.state]
  unfold newstate
  split
  · rename_i h0
    simp only [length] at h0
    simp
    omega
  · rename_i h0
    simp only [length] at h0
    split <;> simp <;> omega

theorem state_full (h : Synced p) (hfull : p.state = .full) :
    p.maxlength = some (p.length : ℚ) := by
  rw [h.state] at hfull
  unfold newstate at hfull
  split at hfull
  · cases hfull
  · split at hfull
    · assumption
    · cases hfull

end Synced

theorem recompact_bounds (border : Nat) (hpos : 1 ≤ p.rcvidx) (hle : p.rcvidx ≤ p.sndidx) :
    1 ≤ (p.recompact border).rcvidx ∧
      (p.recompact border).rcvidx ≤ (p.recompact border).sndidx := by
  simp only [recompact]
  split
  · exact ⟨hpos, hle⟩
  · split
    · exact ⟨hpos, hle⟩
    · exact ⟨Nat.le_refl _, by simp⟩

/-- What a returning operation does to the state word: it is kept in step with the
indices, and it only changes with a signal. -/
structure Announced (p p' : Pipe α) (signal : Option PipeState) : Prop where
  synced : Synced p'
  silent : signal = none → p'.state = p.state

variable {signal : Option PipeState}

theorem announced_updated {q : Pipe α} {r r' : PipeResult α}
    (h : q.updated r = .done p' signal r') (hpos : 1 ≤ q.rcvidx) (hle : q.rcvidx ≤ q.sndidx)
    (hstate : q.state = p.state) : Announced p p' signal := by
  cases h
  constructor
  · exact Synced.updatestate hpos hle
  · intro hnone
    rw [updatestate_state, updatestate_none hnone, hstate]

theorem recompact_state (p : Pipe α) (border : Nat) :
    (p.recompact border).state = p.state := by
  simp only [recompact]
  split
  · rfl
  · split <;> rfl

variable {op : PipeOp α}

variable {border : Nat}

theorem run_announced
    {r : PipeResult α} (hp : Synced p) (h : p.run border op = .done p' signal r) :
    Announced p p' signal := by
  have hpos := hp.pos
  have hle := hp.le
  cases op with
  | send x =>
    simp only [run, send] at h
    split at h
    · cases h
    · exact announced_updated h hpos (Nat.le_succ_of_le hle) rfl
  | receive =>
    simp only [run, receive] at h
    split at h
    · cases h
    rename_i hne
    have hb := recompact_bounds (p := { p with
      content := p.content.set p.rcvidx .consumed, rcvidx := p.rcvidx + 1 }) border
      (by simp) (by simp; omega)
    exact announced_updated h hb.1 hb.2 (recompact_state _ _)
  | pushback x =>
    simp only [run, pushback] at h
    split at h
    · cases h
    · split at h
      · exact announced_updated h hpos (Nat.le_succ_of_le hle) rfl
      · rename_i h1
        exact announced_updated h (by simp; omega) (by simp; omega) rfl
  | peek =>
    cases h
    exact ⟨hp, fun _ => rfl⟩
  | length =>
    cases h
    exact ⟨hp, fun _ => rfl⟩
  | setmaxlength m =>
    cases m with
    | none => cases h
    | some m =>
      simp only [run, setmaxlength] at h
      split at h
      · cases h
      · split at h
        · cases h
        · exact announced_updated h hpos hle rfl
  | reset => exact announced_updated h hpos hle rfl
  | setwaste abs prop =>
    cases h
    exact ⟨⟨hpos, hle, hp.state⟩, fun _ => rfl⟩

def Waits (s : PipeState) : PipeOp α → Prop
  | .receive => s = .empty
  | .send _ => s = .full
  | _ => False

theorem run_wait (hp : Synced p) (h : p.run border op = .wait) :
    Waits p.state op := by
  cases op with
  | receive =>
    simp only [run, receive] at h
    split at h
    · rename_i heq
      exact hp.state_empty.mpr heq
    · cases h
  | send x =>
    simp only [run, send] at h
    split at h
    · assumption
    · cases h
  | pushback x =>
    simp only [run, pushback] at h
    split at h
    · cases h
    · split at h <;> cases h
  | setmaxlength m =>
    cases m with
    | none => cases h
    | some m =>
      simp only [run, setmaxlength] at h
      split at h
      · cases h
      · split at h <;> cases h
  | peek => cases h
  | length => cases h
  | reset => cases h
  | setwaste abs prop => cases h

/-! ## The layout of the pending values -/

/-- `q` is pending in `p`: the cells before `rcvidx` are consumed, those from it on hold
`q`, and there is nothing after them. -/
structure Stores (p : Pipe α) (q : List α) : Prop where
  pos : 1 ≤ p.rcvidx
  content : p.content =
    LuaArray.ofList (List.replicate (p.rcvidx - 1) .consumed ++ q.map .value)
  sndidx : p.sndidx = p.rcvidx + q.length

namespace Stores

variable {q : List α} {x : α}

theorem new (maxlength : Option ℚ) : Stores (Pipe.new maxlength : Pipe α) [] :=
  ⟨Nat.le_refl _, LuaArray.empty_eq_ofList, rfl⟩

theorem length_eq (h : Stores p q) : p.length = q.length := by
  rw [Pipe.length, h.sndidx, Nat.add_sub_cancel_left]

theorem congr (h : Stores p q) (hrcv : p'.rcvidx = p.rcvidx) (hsnd : p'.sndidx = p.sndidx)
    (hcontent : p'.content = p.content) : Stores p' q :=
  ⟨hrcv ▸ h.pos, by rw [hcontent, hrcv, h.content], by rw [hsnd, hrcv, h.sndidx]⟩

theorem updatestate (h : Stores p q) : Stores p.updatestate.1 q := by
  rw [updatestate_eq]
  exact h.congr rfl rfl rfl

theorem head (h : Stores p q) : p.content p.rcvidx = q.head?.map .value := by
  obtain ⟨n, hn⟩ : ∃ n, p.rcvidx = n + 1 := Nat.exists_eq_add_one.mpr h.pos
  rw [h.content, hn, LuaArray.ofList_succ, Nat.add_sub_cancel,
    List.getElem?_append_right (by simp)]
  cases q <;> simp

theorem append (h : Stores p q) :
    Stores { p with content := p.content.set p.sndidx (.value x), sndidx := p.sndidx + 1 }
      (q ++ [x]) := by
  have hlen : p.sndidx =
      (List.replicate (p.rcvidx - 1) Slot.consumed ++ q.map Slot.value).length + 1 := by
    have := h.pos
    have := h.sndidx
    simp
    omega
  constructor
  · exact h.pos
  · show p.content.set p.sndidx (.value x) = _
    rw [h.content, hlen, LuaArray.set_ofList_end]
    simp
  · show p.sndidx + 1 = p.rcvidx + (q ++ [x]).length
    rw [h.sndidx, length_append]
    rfl

theorem take (h : Stores p (x :: q)) :
    Stores { p with content := p.content.set p.rcvidx .consumed, rcvidx := p.rcvidx + 1 }
      q := by
  obtain ⟨n, hn⟩ : ∃ n, p.rcvidx = n + 1 := Nat.exists_eq_add_one.mpr h.pos
  have hcontent := h.content
  have hsnd := h.sndidx
  rw [hn] at hcontent hsnd
  constructor
  · simp
  · show p.content.set p.rcvidx .consumed = LuaArray.ofList (List.replicate p.rcvidx _ ++ _)
    rw [hcontent, hn, Nat.add_sub_cancel, LuaArray.set_ofList _ (by simp),
      set_append_right _ _ (by simp), replicate_succ']
    simp
  · show p.sndidx = p.rcvidx + 1 + q.length
    rw [hsnd, hn, length_cons]
    omega

variable {border : Nat}

theorem border_eq (h : Stores p q)
    (hb : LuaArray.IsBorder p.content border) : border = p.rcvidx - 1 + q.length := by
  rw [h.content] at hb
  simpa using LuaArray.isBorder_ofList hb

theorem window (h : Stores p q) :
    p.content.window (p.rcvidx - 1) (p.rcvidx - 1 + q.length) =
      LuaArray.ofList (q.map .value) := by
  have hlen : p.rcvidx - 1 + q.length =
      (List.replicate (p.rcvidx - 1) Slot.consumed ++ q.map Slot.value).length := by simp
  rw [hlen, h.content, LuaArray.window_ofList]
  simp

theorem recompact (h : Stores p q)
    (hb : LuaArray.IsBorder p.content border) : Stores (p.recompact border) q := by
  have hused : p.sndidx - p.rcvidx = q.length := h.length_eq
  simp only [Pipe.recompact]
  split
  · exact h
  split
  · exact h
  · have hcopy : (if p.sndidx < 2000 then p.content.window (p.rcvidx - 1) border
        else p.content.window (p.rcvidx - 1) (p.rcvidx - 1 + (p.sndidx - p.rcvidx))) =
        LuaArray.ofList (q.map .value) := by
      rw [hused, h.border_eq hb, h.window, ite_self]
    rw [hcopy, hused]
    exact ⟨Nat.le_refl _, rfl, Nat.add_comm _ _⟩

theorem insertFirst (h : Stores p q) (h1 : p.rcvidx - 1 = 0)
    (hb : LuaArray.IsBorder p.content border) :
    Stores { p with
      content := p.content.insertFirst border (.value x), sndidx := p.sndidx + 1 }
      (x :: q) := by
  have hcontent := h.content
  have hlen := h.border_eq hb
  rw [h1] at hcontent hlen
  constructor
  · exact h.pos
  · show p.content.insertFirst border (.value x) =
      LuaArray.ofList (List.replicate (p.rcvidx - 1) _ ++ _)
    rw [h1, hcontent, show border = (List.replicate 0 Slot.consumed ++ q.map Slot.value).length by
      simpa using hlen, LuaArray.insertFirst_ofList]
    simp
  · show p.sndidx + 1 = p.rcvidx + (x :: q).length
    rw [h.sndidx, length_cons]
    omega

theorem putBack (h : Stores p q) (h1 : p.rcvidx - 1 ≠ 0) :
    Stores { p with
      content := p.content.set (p.rcvidx - 1) (.value x), rcvidx := p.rcvidx - 1 }
      (x :: q) := by
  obtain ⟨n, hn⟩ : ∃ n, p.rcvidx = n + 2 := ⟨p.rcvidx - 2, by omega⟩
  have hcontent := h.content
  rw [hn, show n + 2 - 1 = n + 1 by omega, replicate_succ'] at hcontent
  constructor
  · show 1 ≤ p.rcvidx - 1
    omega
  · show p.content.set (p.rcvidx - 1) (.value x) =
      LuaArray.ofList (List.replicate (p.rcvidx - 1 - 1) _ ++ _)
    rw [hcontent, hn, show n + 2 - 1 = n + 1 by omega, LuaArray.set_ofList _ (by simp),
      append_assoc, set_append_right _ _ (by simp)]
    simp
  · show p.sndidx = p.rcvidx - 1 + (x :: q).length
    rw [h.sndidx, hn, length_cons]
    omega

end Stores

/-! ## The maximum -/

/-- A maximum that a length can meet: none, or a whole number from 1 on. -/
def WholeMax (m : Option ℚ) : Prop :=
  ∀ x, m = some x → ∃ n : Nat, 1 ≤ n ∧ x = n

/-- The maximum of a pipe can be met, and the `n` pending values respect it. -/
structure Bounded (p : Pipe α) (n : Nat) : Prop where
  whole : WholeMax p.maxlength
  le : ∀ m, p.maxlength = some m → (n : ℚ) ≤ m

theorem Bounded.room {n : Nat} (h : Bounded p n) (hp : Synced p) (hn : p.length = n)
    (hfull : p.state ≠ .full) (m : ℚ) (hm : p.maxlength = some m) : ((n + 1 : Nat) : ℚ) ≤ m := by
  obtain ⟨k, hk1, rfl⟩ := h.whole m hm
  have hle : n ≤ k := by exact_mod_cast h.le _ hm
  have hne : n = 0 ∨ n ≠ k := by
    by_contra hcon
    push Not at hcon
    apply hfull
    rw [hp.state, newstate, hn, if_neg hcon.1, if_pos (by rw [hm, hcon.2])]
  have hlt : n + 1 ≤ k := by omega
  exact_mod_cast hlt

structure Holds (p : Pipe α) (q : List α) : Prop where
  synced : Synced p
  stores : Stores p q
  bounded : Bounded p q.length

/-- When an operation does to a pipe what it does to the queue: a reset finds nothing
stored, consumed cells included, and a new maximum is a whole number. -/
def Meets (p : Pipe α) : PipeOp α → Prop
  | .reset => p.rcvidx = 1 ∧ p.sndidx = 1
  | .setmaxlength (some m) => ∃ n : Nat, m = n
  | _ => True

theorem Holds.updated {p0 : Pipe α} {q : List α}
    {r r' : PipeResult α} (h : p.updated r = .done p' signal r')
    (hp0 : Announced p0 p' signal) (hs : Stores p q) (hb : Bounded p q.length) :
    r' = r ∧ Holds p' q := by
  cases h
  refine ⟨rfl, hp0.synced, hs.updatestate, ?_⟩
  rw [updatestate_eq]
  exact ⟨hb.whole, hb.le⟩

theorem Holds.new {maxlength : Option ℚ} (h : WholeMax maxlength) :
    Holds (Pipe.new maxlength : Pipe α) [] := by
  refine ⟨Synced.new maxlength, Stores.new maxlength, h, ?_⟩
  intro m hm
  obtain ⟨n, -, rfl⟩ := h m hm
  simp

theorem recompact_maxlength (p : Pipe α) (border : Nat) :
    (p.recompact border).maxlength = p.maxlength := by
  simp only [recompact]
  split
  · rfl
  · split <;> rfl

/-- An operation that returns gives what the queue gives and leaves what the queue
leaves. -/
theorem run_holds {q : List α}
    {r : PipeResult α} (hp : Holds p q) (hb : LuaArray.IsBorder (p.measured op) border)
    (hm : Meets p op) (h : p.run border op = .done p' signal r) :
    r = (Fifo.step q op).2 ∧ Holds p' (Fifo.step q op).1 := by
  have ha := run_announced hp.synced h
  have hlen := hp.stores.length_eq
  cases op with
  | send x =>
    simp only [run, send] at h
    split at h
    · cases h
    rename_i hfull
    refine Holds.updated h ha hp.stores.append ⟨hp.bounded.whole, ?_⟩
    intro m hmax
    show ((q ++ [x]).length : ℚ) ≤ m
    rw [length_append]
    exact hp.bounded.room hp.synced hlen hfull m hmax
  | receive =>
    simp only [run, receive] at h
    split at h
    · cases h
    rename_i hne
    cases q with
    | nil => exact absurd hp.stores.sndidx.symm hne
    | cons x q =>
      have hstores := hp.stores.take.recompact hb
      have hx : p.content p.rcvidx = some (.value x) := hp.stores.head
      rw [hx] at h
      refine Holds.updated h ha hstores ⟨?_, ?_⟩
      · rw [recompact_maxlength]
        exact hp.bounded.whole
      · intro m hmax
        rw [recompact_maxlength] at hmax
        have := hp.bounded.le m hmax
        rw [length_cons] at this
        push_cast at this
        show (q.length : ℚ) ≤ m
        linarith
  | pushback x =>
    simp only [run, pushback] at h
    split at h
    · cases h
    rename_i hfull
    have hroom := hp.bounded.room hp.synced hlen hfull
    split at h
    · rename_i h1
      exact Holds.updated h ha (hp.stores.insertFirst h1 hb) ⟨hp.bounded.whole, hroom⟩
    · rename_i h1
      exact Holds.updated h ha (hp.stores.putBack h1) ⟨hp.bounded.whole, hroom⟩
  | peek =>
    cases h
    exact ⟨by rw [peek, hp.stores.head]; rfl, hp⟩
  | length =>
    cases h
    exact ⟨by rw [hlen]; rfl, hp⟩
  | setmaxlength m =>
    cases m with
    | none => cases h
    | some m =>
      obtain ⟨n, rfl⟩ := hm
      simp only [run, setmaxlength] at h
      split at h
      · cases h
      rename_i hle
      split at h
      · cases h
      rename_i h1
      refine Holds.updated h ha (hp.stores.congr rfl rfl rfl) ⟨?_, ?_⟩
      · intro x hx
        cases hx
        exact ⟨n, by exact_mod_cast not_lt.mp h1, rfl⟩
      · intro x hx
        cases hx
        rw [hlen] at hle
        exact not_lt.mp hle
  | reset =>
    obtain ⟨hrcv, hsnd⟩ := hm
    have hq : q = [] := by
      have := hp.stores.sndidx
      rw [hrcv, hsnd] at this
      exact length_eq_zero_iff.mp (by omega)
    subst hq
    have hcontent : p.content = LuaArray.ofList [] := by
      rw [hp.stores.content, hrcv]
      rfl
    have hstores : Stores { p with content := LuaArray.empty } [] :=
      hp.stores.congr rfl rfl (by rw [hcontent]; exact LuaArray.empty_eq_ofList)
    obtain ⟨hr, hholds⟩ := Holds.updated h ha hstores ⟨hp.bounded.whole, hp.bounded.le⟩
    rw [hr, hcontent]
    exact ⟨rfl, hholds⟩
  | setwaste abs prop =>
    cases h
    exact ⟨rfl, ⟨hp.synced.pos, hp.synced.le, hp.synced.state⟩, hp.stores.congr rfl rfl rfl,
      hp.bounded.whole, hp.bounded.le⟩

end Pipe

end Mihini.Sched
