import Mathlib.Data.Finset.Basic
import Mathlib.Data.List.Sort
import Mathlib.Data.Rat.Defs
import Mathlib.Algebra.Order.Ring.Rat
import Mihini.Lib.LuaArray
import Mihini.Lib.Run

/-!
# Timers

`src/luafwk/sched/timer.lua`.  The list part of `events` has the dates at which a timer is due,
the hash part has the timers of each date.  The timers of a date are taken out of `events` before
the first of them is triggered, and what is triggered may use the module.
-/

namespace Mihini.Sched.Timer

open Mihini.Lib Function List

abbrev TimerId := Nat

/-! ## The module -/

/-- A value in `events`: a date of the list part, or the timers of a date. -/
inductive Entry where
  | date (d : ℚ)
  | timers (ts : Finset TimerId)

abbrev Events := ℚ → Option Entry

def isIndex (k : ℚ) : Bool := k.den == 1 && decide (0 < k.num)

def Events.array (e : Events) : LuaArray Entry := fun i => if i = 0 then none else e i

def Events.withArray (e : Events) (a : LuaArray Entry) : Events := fun k =>
  if isIndex k then a k.num.toNat else e k

/-- The loop of `addevent`: the first place from `i` on whose date is later.  The comparison with
a missing date, or with a set of timers, is an error. -/
def place (e : Events) (nd : ℚ) : Nat → Nat → Option Nat
  | i, 0 => some i
  | i, count + 1 =>
    match e.array i with
    | some (.date d) => if nd < d then some i else place e nd (i + 1) count
    | _ => none

/-- `none` is an error.  `border` is the value of `#events`. -/
def addevent (e : Events) (border : Nat) (timer : TimerId) (nd : ℚ) : Option Events :=
  match e nd with
  | some (.timers ts) => some (update e nd (some (.timers (insert timer ts))))
  | some (.date _) => none
  | none => do
    let n ← place e nd 1 border
    let e := e.withArray (e.array.insertAt border n (.date nd))
    some (update e nd (some (.timers {timer})))

/-- `removetimer` on `events`, with the timer's field `nd`; `false` when the timer is not
registered. -/
def dereference (e : Events) (timer : TimerId) : Option ℚ → Option (Events × Bool)
  | none => some (e, false)
  | some nd =>
    match e nd with
    | none => some (e, false)
    | some (.date _) => none
    | some (.timers ts) =>
      if timer ∈ ts then
        let ts := ts.erase timer
        some (update e nd (if ts = ∅ then none else some (.timers ts)), true)
      else some (e, false)

/-! ## Runs -/

structure Batch where
  now : ℚ
  date : ℚ
  /-- The timers that `pairs` has not given yet. -/
  rest : Finset TimerId
  current : Option TimerId
  /-- The removal of that timer has been requested since. -/
  cancelled : Bool

structure World where
  events : Events
  nd : TimerId → Option ℚ
  clock : ℚ
  running : Option Batch
  failed : Bool
  armed : ℚ → Finset TimerId
  /-- The timers that a step has taken, and which have neither been triggered since nor been
  removed. -/
  due : Finset TimerId
  last : Option ℚ

def init (clock : ℚ) : World where
  events _ := none
  nd _ := none
  clock := clock
  running := none
  failed := false
  armed _ := ∅
  due := ∅
  last := none

inductive Event where
  | addtimer (timer : TimerId) (next : Option ℚ) (border : Nat)
  /-- `set`, which makes a new timer. -/
  | set (timer : TimerId) (t : ℚ) (border : Nat)
  | removetimer (timer : TimerId)
  | elapse (clock : ℚ)
  | step
  /-- One turn of the outer loop of `step`. -/
  | turn (border : Nat)
  /-- `pairs` gives a timer, which is triggered. -/
  | trigger (timer : TimerId)
  /-- The callback returns, and `step` calls `addtimer`. -/
  | done (next : Option ℚ) (border : Nat)

namespace World

def fail (w : World) : World := { w with failed := true }

/-- The end of `addtimer` and of `set`. -/
def arm (w : World) (timer : TimerId) (nd : ℚ) (border : Nat) : World :=
  match addevent w.events border timer nd with
  | none => w.fail
  | some e =>
    { w with
      events := e
      nd := update w.nd timer (some nd)
      armed := update w.armed nd (insert timer (w.armed nd)) }

def addtimer (w : World) (timer : TimerId) (next : Option ℚ) (border : Nat) : World :=
  match next with
  | none => { w with nd := update w.nd timer none }
  | some nd => w.arm timer nd border

def mark (w : World) (timer : TimerId) (cancelled : Bool) : World :=
  { w with
    running := w.running.map fun b =>
      if b.current = some timer then { b with cancelled := cancelled } else b }

def removetimer (w : World) (timer : TimerId) : World :=
  match dereference w.events timer (w.nd timer) with
  | none => w.fail
  | some (e, removed) =>
    { w.mark timer true with
      events := e
      nd := if removed then update w.nd timer none else w.nd
      armed := fun d => (w.armed d).erase timer
      due := w.due.erase timer }

/-- The outer loop of `step`: the first date is due, or the loop ends. -/
def turn (w : World) (b : Batch) (border : Nat) : World :=
  match w.events 1 with
  | none => { w with running := none }
  | some (.timers _) => w.fail
  | some (.date d) =>
    if d ≤ b.now then
      let e := w.events.withArray (w.events.array.removeFirst border)
      match e d with
      | none => { w with events := e }
      | some (.date _) => w.fail
      | some (.timers ts) =>
        { w with
          events := update e d none
          running := some { b with date := d, rest := ts, current := none, cancelled := false }
          armed := update w.armed d ∅
          due := w.armed d }
    else { w with running := none }

def trigger (w : World) (b : Batch) (timer : TimerId) : World :=
  { w with
    running := some { b with rest := b.rest.erase timer, current := some timer, cancelled := false }
    due := w.due.erase timer
    last := some b.date }

/-- A timer that was cancelled in its callback is not to be armed again. -/
def done (w : World) (b : Batch) (timer : TimerId) (next : Option ℚ) (border : Nat) : World :=
  let w' := { w with running := some { b with current := none } }.addtimer timer next border
  if b.cancelled then { w' with armed := w.armed } else w'

end World

def step (w : World) : Event → World
  | .addtimer timer next border => (w.mark timer false).addtimer timer next border
  | .set timer t border => w.arm timer (w.clock + t) border
  | .removetimer timer => w.removetimer timer
  | .elapse clock => { w with clock := clock }
  | .step => { w with running := some ⟨w.clock, w.clock, ∅, none, false⟩ }
  | .turn border =>
    match w.running with
    | some b => w.turn b border
    | none => w
  | .trigger timer =>
    match w.running with
    | some b => w.trigger b timer
    | none => w
  | .done next border =>
    match w.running with
    | some b =>
      match b.current with
      | some timer => w.done b timer next border
      | none => w
    | none => w

/-- The module is used by tasks, between the calls of `step`, and by the callbacks of `step`. -/
def World.free (w : World) : Prop := ∀ b ∈ w.running, b.current.isSome = true

def Enabled (w : World) (e : Event) : Prop :=
  w.failed = false ∧
    match e with
    | .addtimer _ _ border => w.free ∧ w.events.array.IsBorder border
    | .set _ t border => w.free ∧ 0 ≤ t ∧ w.events.array.IsBorder border
    | .removetimer _ => w.free
    | .elapse clock => w.clock ≤ clock
    | .step => w.running = none
    | .turn border =>
      (∃ b ∈ w.running, b.rest = ∅ ∧ b.current = none) ∧
        w.events.array.IsBorder border
    | .trigger timer => ∃ b ∈ w.running, timer ∈ b.rest ∧ b.current = none
    | .done _ border =>
      (∃ b ∈ w.running, b.current.isSome = true) ∧ w.events.array.IsBorder border

instance (w : World) : Decidable w.free :=
  inferInstanceAs (Decidable (∀ b ∈ w.running, b.current.isSome = true))

instance (w : World) : (e : Event) → Decidable (Enabled w e)
  | .addtimer .. => inferInstanceAs (Decidable (_ ∧ w.free ∧ LuaArray.IsBorder _ _))
  | .set .. => inferInstanceAs (Decidable (_ ∧ w.free ∧ _ ≤ _ ∧ LuaArray.IsBorder _ _))
  | .removetimer _ => inferInstanceAs (Decidable (_ ∧ w.free))
  | .elapse _ => inferInstanceAs (Decidable (_ ∧ _ ≤ _))
  | .step => inferInstanceAs (Decidable (w.failed = false ∧ w.running = none))
  | .turn _ =>
    inferInstanceAs (Decidable (_ ∧ (∃ b ∈ w.running, _ = _ ∧ _ = _) ∧ LuaArray.IsBorder _ _))
  | .trigger _ => inferInstanceAs (Decidable (_ ∧ ∃ b ∈ w.running, _ ∈ b.rest ∧ _ = _))
  | .done .. =>
    inferInstanceAs (Decidable (_ ∧ (∃ b ∈ w.running, _ = true) ∧ LuaArray.IsBorder _ _))

/-- A timer that is triggered is due, has not been removed since it was armed, and its date is
neither later than that of the step nor earlier than that of a timer triggered before.  When a
step returns, no timer is armed for its date or an earlier one. -/
def Meets (w : World) (e : Event) : Prop :=
  (step w e).failed = false ∧
    match e with
    | .trigger timer => ∀ b, w.running = some b →
        timer ∈ w.due ∧ b.date ≤ b.now ∧ ∀ l, w.last = some l → l ≤ b.date
    | .turn _ => ∀ b, w.running = some b → (step w e).running = none →
        w.due = ∅ ∧ ∀ d ≤ b.now, w.armed d = ∅
    | _ => True

/-- A date for which a timer can be armed: it is not the key of a place in the list, and not
earlier than the date of a timer that has been triggered. -/
def World.accepts (w : World) (nd : ℚ) : Prop :=
  isIndex nd = false ∧ ∀ l, w.last = some l → l ≤ nd

/-- Dates are no positive integers, nor do they lie before those of timers already triggered; a
timer is removed neither in the callback of another timer of its date nor, when it is to be
rescheduled, in its own one, and it is registered for its date `nd` only. -/
def Safe (w : World) : Event → Prop
  | .addtimer _ next _ => ∀ nd, next = some nd → w.accepts nd
  | .set _ t _ => isIndex (w.clock + t) = false
  | .removetimer timer =>
    (∀ b, w.running = some b → timer ∉ b.rest) ∧
      ∀ d ts, w.events d = some (.timers ts) → timer ∈ ts → w.nd timer = some d
  | .done next _ => ∀ nd, next = some nd →
      w.accepts nd ∧ ∀ b, w.running = some b → b.cancelled = false
  | _ => True

/-! ## The two parts of the table -/

theorem isIndex_succ (i : Nat) : isIndex ((i + 1 : Nat) : ℚ) = true := by
  rw [isIndex, Rat.num_natCast, Rat.den_natCast, beq_self_eq_true, Bool.true_and]
  exact decide_eq_true (by omega)

theorem array_withArray (e : Events) (l : List Entry) :
    (e.withArray (.ofList l)).array = .ofList l := by
  funext i
  cases i with
  | zero => rfl
  | succ i =>
    show (if isIndex ((i + 1 : Nat) : ℚ) then _ else _) = _
    rw [if_pos (isIndex_succ i), Rat.num_natCast, Int.toNat_natCast]

theorem withArray_apply (e : Events) (a : LuaArray Entry) {k : ℚ} (hk : isIndex k = false) :
    e.withArray a k = e k := by
  rw [Events.withArray, hk]
  rfl

theorem array_update (e : Events) {k : ℚ} (hk : isIndex k = false) (v : Option Entry) :
    Events.array (update e k v) = e.array := by
  funext i
  cases i with
  | zero => rfl
  | succ i =>
    have hne : ((i + 1 : Nat) : ℚ) ≠ k := by
      intro heq
      rw [← heq, isIndex_succ] at hk
      exact Bool.noConfusion hk
    show update e k v ((i + 1 : Nat) : ℚ) = _
    rw [update_of_ne hne]
    rfl

/-! ## The list of dates -/

/-- `events` has the dates of `dates` in its list part, and for each date that is no place of the
list the timers `armed` has. -/
structure Lists (e : Events) (dates : List ℚ) (armed : ℚ → Finset TimerId) : Prop where
  array : e.array = .ofList (dates.map .date)
  sorted : dates.Pairwise (· ≤ ·)
  keys : ∀ d ∈ dates, isIndex d = false
  timers : ∀ k, isIndex k = false →
    e k = if armed k = ∅ then none else some (.timers (armed k))
  listed : ∀ k, armed k ≠ ∅ → k ∈ dates

theorem insertIdx_length {α : Type} (xs ys : List α) (x : α) :
    (xs ++ ys).insertIdx xs.length x = xs ++ x :: ys := by
  induction xs with
  | nil => rfl
  | cons a xs ih =>
    rw [cons_append, length_cons, insertIdx_succ_cons, ih, cons_append]

/-- The date goes behind those that are not later. -/
theorem place_eq {e : Events} {nd : ℚ} {before rest : List ℚ}
    (he : e.array = .ofList ((before ++ rest).map .date)) (hbefore : ∀ d ∈ before, d ≤ nd) :
    ∃ xs ys, before ++ rest = xs ++ ys ∧
      place e nd (before.length + 1) rest.length = some (xs.length + 1) ∧
      (∀ d ∈ xs, d ≤ nd) ∧ ∀ d ∈ ys.head?, nd < d := by
  induction rest generalizing before with
  | nil => exact ⟨before, [], rfl, rfl, hbefore, nofun⟩
  | cons d rest ih =>
    have hd : e.array (before.length + 1) = some (.date d) := by
      rw [he, LuaArray.ofList_succ]
      simp
    by_cases hlt : nd < d
    · refine ⟨before, d :: rest, rfl, ?_, hbefore, ?_⟩
      · simp only [length_cons, place, hd, if_pos hlt]
      · intro d' hd'
        rw [List.head?_cons, Option.mem_some_iff] at hd'
        exact hd' ▸ hlt
    · have hall : ∀ d' ∈ before ++ [d], d' ≤ nd := by
        intro d' hd'
        rcases mem_append.mp hd' with h | h
        · exact hbefore d' h
        · exact (mem_singleton.mp h) ▸ not_lt.mp hlt
      have hlist : e.array = .ofList (((before ++ [d]) ++ rest).map .date) := by simpa using he
      obtain ⟨xs, ys, heq, hplace, hxs, hys⟩ := ih hlist hall
      refine ⟨xs, ys, by simpa using heq, ?_, hxs, hys⟩
      simp only [length_append, length_singleton] at hplace
      simp only [length_cons, place, hd, if_neg hlt, hplace]

theorem sorted_insert {nd : ℚ} {xs ys : List ℚ} (h : (xs ++ ys).Pairwise (· ≤ ·))
    (hxs : ∀ d ∈ xs, d ≤ nd) (hys : ∀ d ∈ ys.head?, nd < d) :
    (xs ++ nd :: ys).Pairwise (· ≤ ·) := by
  rw [pairwise_append] at h ⊢
  have hlater : ∀ d ∈ ys, nd ≤ d := by
    intro d hd
    cases ys with
    | nil => exact absurd hd not_mem_nil
    | cons y ys =>
      have hy : nd < y := hys y rfl
      rcases mem_cons.mp hd with rfl | hd
      · exact hy.le
      · exact hy.le.trans (rel_of_pairwise_cons h.2.1 hd)
  refine ⟨h.1, List.Pairwise.cons hlater h.2.1, ?_⟩
  intro a ha b hb
  rcases mem_cons.mp hb with rfl | hb
  · exact hxs a ha
  · exact h.2.2 a ha b hb

namespace Lists

variable {e : Events} {dates : List ℚ} {armed : ℚ → Finset TimerId}

theorem border (h : Lists e dates armed) {border : Nat} (hb : e.array.IsBorder border) :
    border = dates.length := by
  rw [h.array] at hb
  simpa using LuaArray.isBorder_ofList hb

theorem first (h : Lists e dates armed) : e 1 = dates.head?.map .date := by
  have : e.array 1 = e 1 := by simp [Events.array]
  rw [← this, h.array]
  cases dates <;> rfl

theorem addevent (h : Lists e dates armed) {border : Nat} (hb : e.array.IsBorder border)
    {nd : ℚ} (hnd : isIndex nd = false) (timer : TimerId) :
    ∃ e' dates', addevent e border timer nd = some e' ∧
      Lists e' dates' (update armed nd (insert timer (armed nd))) ∧
      ∀ d ∈ dates', d = nd ∨ d ∈ dates := by
  have hkeep : ∀ (e' : Events), (∀ k, isIndex k = false → e' k = e k) →
      ∀ k, isIndex k = false →
        update e' nd (some (.timers (insert timer (armed nd)))) k =
          if update armed nd (insert timer (armed nd)) k = ∅ then none
          else some (.timers (update armed nd (insert timer (armed nd)) k)) := by
    intro e' he' k hk
    by_cases hkn : k = nd
    · subst hkn
      rw [update_self, update_self, if_neg (Finset.insert_ne_empty _ _)]
    · rw [update_of_ne hkn, update_of_ne hkn, he' k hk, h.timers k hk]
  have hlisted : ∀ k, update armed nd (insert timer (armed nd)) k ≠ ∅ →
      k = nd ∨ k ∈ dates := by
    intro k hk
    by_cases hkn : k = nd
    · exact Or.inl hkn
    · rw [update_of_ne hkn] at hk
      exact Or.inr (h.listed k hk)
  by_cases hempty : armed nd = ∅
  · have hget : e nd = none := by rw [h.timers nd hnd, if_pos hempty]
    have hlist : e.array = .ofList (([] ++ dates).map .date) := h.array
    obtain ⟨xs, ys, heq, hplace, hxs, hys⟩ :=
      place_eq hlist (show ∀ d ∈ ([] : List ℚ), d ≤ nd from nofun)
    rw [nil_append] at heq
    have hins : LuaArray.insertAt e.array border (xs.length + 1) (.date nd) =
        .ofList ((xs ++ nd :: ys).map .date) := by
      rw [h.border hb, h.array, heq]
      have := LuaArray.insertAt_ofList ((xs ++ ys).map Entry.date) (p := xs.length) (by simp)
        (.date nd)
      rw [length_map] at this
      rw [this, map_append, ← length_map (f := Entry.date), insertIdx_length,
        map_append, map_cons]
    have hadd : Timer.addevent e border timer nd =
        some (update (e.withArray (.ofList ((xs ++ nd :: ys).map .date))) nd
          (some (.timers (insert timer (armed nd))))) := by
      rw [Timer.addevent, hget, h.border hb]
      show (place e nd 1 dates.length >>= _) = _
      rw [show place e nd 1 dates.length = _ from hplace, ← h.border hb, ← hins, hempty,
        insert_empty_eq]
      rfl
    have hdates : ∀ d, d ∈ xs ++ nd :: ys ↔ d = nd ∨ d ∈ dates := by
      intro d
      rw [heq]
      simp only [mem_append, mem_cons]
      tauto
    refine ⟨_, xs ++ nd :: ys, hadd, ⟨?_, ?_, ?_, ?_, ?_⟩, fun d hd => (hdates d).mp hd⟩
    · rw [array_update _ hnd, array_withArray]
    · exact sorted_insert (heq ▸ h.sorted) hxs hys
    · intro d hd
      rcases (hdates d).mp hd with rfl | hd
      · exact hnd
      · exact h.keys d hd
    · exact hkeep _ fun k hk => withArray_apply _ _ hk
    · exact fun k hk => (hdates k).mpr (hlisted k hk)
  · have hget : e nd = some (.timers (armed nd)) := by rw [h.timers nd hnd, if_neg hempty]
    refine ⟨_, dates, by rw [Timer.addevent, hget], ⟨?_, h.sorted, h.keys, ?_, ?_⟩,
      fun d hd => Or.inr hd⟩
    · rw [array_update _ hnd, h.array]
    · exact hkeep e fun _ _ => rfl
    · intro k hk
      rcases hlisted k hk with rfl | hk
      · exact h.listed k hempty
      · exact hk

theorem dereference (h : Lists e dates armed) {timer : TimerId} {field : Option ℚ}
    (hfield : ∀ nd, field = some nd → isIndex nd = false)
    (honly : ∀ d, timer ∈ armed d → field = some d) :
    ∃ e' removed, dereference e timer field = some (e', removed) ∧
      Lists e' dates fun d => (armed d).erase timer := by
  have hlisted : ∀ k, (armed k).erase timer ≠ ∅ → k ∈ dates := by
    intro k hk
    apply h.listed k
    intro hempty
    rw [hempty, Finset.erase_empty] at hk
    exact hk rfl
  by_cases hreg : ∃ nd, field = some nd ∧ timer ∈ armed nd
  · obtain ⟨nd, rfl, hmem⟩ := hreg
    have hnd : isIndex nd = false := hfield nd rfl
    have hget : e nd = some (.timers (armed nd)) := by
      rw [h.timers nd hnd, if_neg (Finset.ne_empty_of_mem hmem)]
    refine ⟨_, true, by rw [Timer.dereference, hget]; exact if_pos hmem, ?_, h.sorted, h.keys, ?_,
      hlisted⟩
    · rw [array_update _ hnd, h.array]
    · intro k hk
      by_cases hkn : k = nd
      · rw [hkn, update_self]
      · have hout : timer ∉ armed k := by
          intro hmem'
          exact hkn (Option.some.inj (honly k hmem')).symm
        rw [update_of_ne hkn, Finset.erase_eq_of_notMem hout, h.timers k hk]
  · have hout : ∀ d, timer ∉ armed d := fun d hd => hreg ⟨d, honly d hd, hd⟩
    have hsame : (fun d => (armed d).erase timer) = armed := by
      funext d
      exact Finset.erase_eq_of_notMem (hout d)
    refine ⟨e, false, ?_, by rw [hsame]; exact h⟩
    cases field with
    | none => rfl
    | some nd =>
      rw [Timer.dereference, h.timers nd (hfield nd rfl)]
      by_cases hempty : armed nd = ∅
      · rw [if_pos hempty]
      · rw [if_neg hempty]
        exact if_neg (hout nd)

/-- `step` takes the first date out of the list part. -/
theorem removeFirst {d : ℚ} (h : Lists e (d :: dates) armed) {border : Nat}
    (hb : e.array.IsBorder border) :
    Events.array (e.withArray (e.array.removeFirst border)) = .ofList (dates.map .date) ∧
      ∀ k, isIndex k = false → e.withArray (e.array.removeFirst border) k = e k := by
  have hrem : e.array.removeFirst border = .ofList (dates.map .date) := by
    rw [h.border hb, h.array, ← length_map (f := Entry.date)]
    exact LuaArray.removeFirst_ofList _ _
  rw [hrem]
  exact ⟨array_withArray e _, fun k hk => withArray_apply e _ hk⟩

theorem take {d : ℚ} (h : Lists e (d :: dates) armed) {e' : Events}
    (harray : e'.array = .ofList (dates.map .date))
    (hkeep : ∀ k, isIndex k = false → e' k = e k) :
    Lists (update e' d none) dates (update armed d ∅) where
  array := by rw [array_update _ (h.keys d mem_cons_self), harray]
  sorted := h.sorted.of_cons
  keys k hk := h.keys k (mem_cons_of_mem d hk)
  timers k hk := by
    by_cases hkd : k = d
    · rw [hkd, update_self, update_self, if_pos rfl]
    · rw [update_of_ne hkd, update_of_ne hkd, hkeep k hk, h.timers k hk]
  listed k hk := by
    have hkd : k ≠ d := by
      rintro rfl
      exact hk (update_self ..)
    rw [update_of_ne hkd] at hk
    exact (mem_cons.mp (h.listed k hk)).resolve_left hkd

theorem drop {d : ℚ} (h : Lists e (d :: dates) armed) (hempty : armed d = ∅) {e' : Events}
    (harray : e'.array = .ofList (dates.map .date))
    (hkeep : ∀ k, isIndex k = false → e' k = e k) : Lists e' dates armed where
  array := harray
  sorted := h.sorted.of_cons
  keys k hk := h.keys k (mem_cons_of_mem d hk)
  timers k hk := by rw [hkeep k hk, h.timers k hk]
  listed k hk := by
    refine (mem_cons.mp (h.listed k hk)).resolve_left ?_
    rintro rfl
    exact hk hempty

end Lists

/-! ## What every run keeps -/

structure Batch.Rep (b : Batch) (w : World) (dates : List ℚ) : Prop where
  due : w.due = b.rest
  now : b.now ≤ w.clock
  date : b.date ≤ b.now
  after : ∀ d, w.last = some d → d ≤ b.date
  before : b.rest ≠ ∅ → ∀ k ∈ dates, b.date ≤ k
  current : b.current.isSome = true → w.last = some b.date

structure World.Rep (w : World) (dates : List ℚ) : Prop where
  ok : w.failed = false
  lists : Lists w.events dates w.armed
  fields : ∀ timer nd, w.nd timer = some nd → isIndex nd = false
  last : ∀ d, w.last = some d → d ≤ w.clock ∧ ∀ k ∈ dates, d ≤ k
  idle : w.running = none → w.due = ∅
  batch : ∀ b, w.running = some b → b.Rep w dates

theorem rep_init (clock : ℚ) : (init clock).Rep [] where
  ok := rfl
  lists :=
    { array := by
        funext i
        cases i <;> rfl
      sorted := .nil
      keys := nofun
      timers := fun _ _ => (if_pos rfl).symm
      listed := fun _ hk => absurd rfl hk }
  fields := nofun
  last := nofun
  idle _ := rfl
  batch := nofun

namespace World.Rep

variable {w : World} {dates : List ℚ}

theorem mark (h : w.Rep dates) (timer : TimerId) (cancelled : Bool) :
    (w.mark timer cancelled).Rep dates where
  ok := h.ok
  lists := h.lists
  fields := h.fields
  last := h.last
  idle hidle := h.idle (Option.map_eq_none_iff.mp hidle)
  batch b hb := by
    obtain ⟨b₀, hb₀, rfl⟩ := Option.map_eq_some_iff.mp hb
    have hrep := h.batch b₀ hb₀
    split
    · exact ⟨hrep.due, hrep.now, hrep.date, hrep.after, hrep.before, hrep.current⟩
    · exact ⟨hrep.due, hrep.now, hrep.date, hrep.after, hrep.before, hrep.current⟩

variable {timer : TimerId}

theorem arm (h : w.Rep dates) {nd : ℚ} {border : Nat}
    (hb : w.events.array.IsBorder border) (hnd : isIndex nd = false)
    (hlast : ∀ d, w.last = some d → d ≤ nd)
    (hdate : ∀ b, w.running = some b → b.date ≤ nd) :
    ∃ dates', (w.arm timer nd border).Rep dates' := by
  obtain ⟨e', dates', hadd, hlists, hdates⟩ := h.lists.addevent hb hnd timer
  refine ⟨dates', ?_⟩
  rw [World.arm, hadd]
  refine ⟨h.ok, hlists, ?_, ?_, h.idle, ?_⟩
  · intro timer' nd' heq
    by_cases htimer : timer' = timer
    · rw [htimer] at heq
      have : some nd = some nd' := by simpa using heq
      rwa [← Option.some.inj this]
    · exact h.fields timer' nd' (by simpa [htimer] using heq)
  · intro d hd
    refine ⟨(h.last d hd).1, fun k hk => ?_⟩
    rcases hdates k hk with rfl | hk
    · exact hlast d hd
    · exact (h.last d hd).2 k hk
  · intro b hb'
    have hrep := h.batch b hb'
    refine ⟨hrep.due, hrep.now, hrep.date, hrep.after, ?_, hrep.current⟩
    intro hrest k hk
    rcases hdates k hk with rfl | hk
    · exact hdate b hb'
    · exact hrep.before hrest k hk

variable {next : Option ℚ}

theorem addtimer (h : w.Rep dates) {border : Nat}
    (hb : w.events.array.IsBorder border) (hnext : ∀ nd, next = some nd → w.accepts nd)
    (hdate : ∀ nd, next = some nd → ∀ b, w.running = some b → b.date ≤ nd) :
    ∃ dates', (w.addtimer timer next border).Rep dates' := by
  cases next with
  | none =>
    refine ⟨dates, h.ok, h.lists, ?_, h.last, h.idle, ?_⟩
    · intro timer' nd' heq
      replace heq : update w.nd timer none timer' = some nd' := heq
      by_cases htimer : timer' = timer
      · rw [htimer, update_self] at heq
        exact absurd heq nofun
      · rw [update_of_ne htimer] at heq
        exact h.fields timer' nd' heq
    · intro b hb'
      have hrep := h.batch b hb'
      exact ⟨hrep.due, hrep.now, hrep.date, hrep.after, hrep.before, hrep.current⟩
  | some nd => exact h.arm hb (hnext nd rfl).1 (hnext nd rfl).2 (hdate nd rfl)

variable {b : Batch}

theorem date_le (h : w.Rep dates) (hfree : w.free) {nd : ℚ}
    (hlast : ∀ d, w.last = some d → d ≤ nd) (hb : w.running = some b) : b.date ≤ nd :=
  hlast _ ((h.batch b hb).current (hfree b hb))

theorem addtimer_free (h : w.Rep dates) (hfree : w.free)
    {border : Nat} (hb : w.events.array.IsBorder border)
    (hnext : ∀ nd, next = some nd → w.accepts nd) :
    ∃ dates', (w.addtimer timer next border).Rep dates' :=
  h.addtimer hb hnext fun nd heq _ hb' => h.date_le hfree (hnext nd heq).2 hb'

theorem removetimer (h : w.Rep dates)
    (hrest : ∀ b, w.running = some b → timer ∉ b.rest)
    (honly : ∀ d ts, w.events d = some (.timers ts) → timer ∈ ts → w.nd timer = some d) :
    (w.removetimer timer).Rep dates := by
  have harmed : ∀ d, timer ∈ w.armed d → w.nd timer = some d := by
    intro d hmem
    have hne : w.armed d ≠ ∅ := Finset.ne_empty_of_mem hmem
    have hd : isIndex d = false := h.lists.keys d (h.lists.listed d hne)
    exact honly d _ (by rw [h.lists.timers d hd, if_neg hne]) hmem
  obtain ⟨e', removed, hderef, hlists⟩ := h.lists.dereference (h.fields timer) harmed
  have hmark := h.mark timer true
  have hdue : w.due.erase timer = w.due := by
    apply Finset.erase_eq_of_notMem
    cases hrun : w.running with
    | none =>
      rw [h.idle hrun]
      exact Finset.notMem_empty timer
    | some b =>
      rw [(h.batch b hrun).due]
      exact hrest b hrun
  rw [World.removetimer, hderef]
  refine ⟨h.ok, hlists, ?_, h.last, ?_, ?_⟩
  · intro timer' nd' heq
    cases removed with
    | false => exact h.fields timer' nd' heq
    | true =>
      replace heq : update w.nd timer none timer' = some nd' := heq
      by_cases htimer : timer' = timer
      · rw [htimer, update_self] at heq
        exact absurd heq nofun
      · rw [update_of_ne htimer] at heq
        exact h.fields timer' nd' heq
  · intro hidle
    show w.due.erase timer = ∅
    rw [hdue]
    exact hmark.idle hidle
  · intro b hb
    have hrep := hmark.batch b hb
    refine ⟨?_, hrep.now, hrep.date, hrep.after, hrep.before, hrep.current⟩
    show w.due.erase timer = _
    rw [hdue]
    exact hrep.due

theorem turn (h : w.Rep dates) (hrun : w.running = some b) (hrest : b.rest = ∅)
    {border : Nat} (hb : w.events.array.IsBorder border) :
    (∃ dates', (w.turn b border).Rep dates') ∧
      ((w.turn b border).running = none → ∀ d ≤ b.now, w.armed d = ∅) := by
  have hrep := h.batch b hrun
  have hdue : w.due = ∅ := hrep.due.trans hrest
  have hstop : { w with running := none }.Rep dates :=
    ⟨h.ok, h.lists, h.fields, h.last, fun _ => hdue, nofun⟩
  rw [World.turn, h.lists.first]
  cases dates with
  | nil =>
    refine ⟨⟨[], hstop⟩, fun _ d _ => ?_⟩
    by_contra hne
    exact not_mem_nil (h.lists.listed d hne)
  | cons d dates =>
    obtain ⟨harray, hkeep⟩ := h.lists.removeFirst hb
    have hd : isIndex d = false := h.lists.keys d mem_cons_self
    have hlast : ∀ l, w.last = some l → l ≤ w.clock ∧ ∀ k ∈ dates, l ≤ k := fun l hl =>
      ⟨(h.last l hl).1, fun k hk => (h.last l hl).2 k (mem_cons_of_mem d hk)⟩
    have hget : w.events.withArray (w.events.array.removeFirst border) d =
        if w.armed d = ∅ then none else some (.timers (w.armed d)) := by
      rw [hkeep d hd, h.lists.timers d hd]
    simp only [List.head?_cons, Option.map_some, hget]
    by_cases hle : d ≤ b.now
    · rw [if_pos hle]
      by_cases hempty : w.armed d = ∅
      · rw [if_pos hempty]
        refine ⟨⟨dates, h.ok, h.lists.drop hempty harray hkeep, h.fields, hlast, h.idle, ?_⟩, ?_⟩
        · intro b' hb'
          have hrep' := h.batch b' hb'
          refine ⟨hrep'.due, hrep'.now, hrep'.date, hrep'.after, ?_, hrep'.current⟩
          exact fun hne k hk => hrep'.before hne k (mem_cons_of_mem d hk)
        · intro hnone
          exact absurd (hrun.symm.trans hnone) nofun
      · rw [if_neg hempty]
        refine ⟨⟨dates, h.ok, h.lists.take harray hkeep, h.fields, hlast, nofun, ?_⟩, nofun⟩
        intro b' hb'
        obtain rfl := Option.some.inj hb'
        refine ⟨rfl, hrep.now, hle, ?_, ?_, nofun⟩
        · exact fun l hl => (h.last l hl).2 d mem_cons_self
        · exact fun _ k hk => rel_of_pairwise_cons h.lists.sorted hk
    · rw [if_neg hle]
      refine ⟨⟨_, hstop⟩, fun _ d' hd' => ?_⟩
      by_contra hne
      have hmem := h.lists.listed d' hne
      rcases mem_cons.mp hmem with rfl | hmem
      · exact hle hd'
      · exact hle ((rel_of_pairwise_cons h.lists.sorted hmem).trans hd')

theorem trigger (h : w.Rep dates) (hrun : w.running = some b)
    (hmem : timer ∈ b.rest) : (w.trigger b timer).Rep dates := by
  have hrep := h.batch b hrun
  have hbefore := hrep.before (Finset.ne_empty_of_mem hmem)
  refine ⟨h.ok, h.lists, h.fields, ?_, nofun, ?_⟩
  · intro d hd
    obtain rfl := Option.some.inj hd
    exact ⟨hrep.date.trans hrep.now, hbefore⟩
  · intro b' hb'
    obtain rfl := Option.some.inj hb'
    refine ⟨?_, hrep.now, hrep.date, ?_, fun _ => hbefore, fun _ => rfl⟩
    · show w.due.erase timer = _
      rw [hrep.due]
    · intro d hd
      exact (Option.some.inj hd).symm.le

theorem done (h : w.Rep dates) (hrun : w.running = some b)
    (hcurrent : b.current = some timer) {border : Nat}
    (hb : w.events.array.IsBorder border)
    (hnext : ∀ nd, next = some nd → w.accepts nd ∧ b.cancelled = false) :
    ∃ dates', (w.done b timer next border).Rep dates' := by
  have hrep := h.batch b hrun
  have hlast : w.last = some b.date := hrep.current (by rw [hcurrent]; rfl)
  have hbatch : { w with running := some { b with current := none } }.Rep dates := by
    refine ⟨h.ok, h.lists, h.fields, h.last, nofun, ?_⟩
    intro b' hb'
    obtain rfl := Option.some.inj hb'
    exact ⟨hrep.due, hrep.now, hrep.date, hrep.after, hrep.before, nofun⟩
  obtain ⟨dates', hadd⟩ : ∃ dates',
      ({ w with running := some { b with current := none } }.addtimer timer next border).Rep
        dates' := by
    apply hbatch.addtimer hb fun nd heq => (hnext nd heq).1
    intro nd heq b' hb'
    obtain rfl := Option.some.inj hb'
    exact (hnext nd heq).1.2 _ hlast
  simp only [World.done]
  by_cases hcancel : b.cancelled = true
  · rw [if_pos hcancel]
    cases next with
    | none => exact ⟨dates', hadd⟩
    | some nd => exact absurd ((hnext nd rfl).2.symm.trans hcancel) nofun
  · rw [if_neg hcancel]
    exact ⟨dates', hadd⟩

end World.Rep

theorem rep_step {w : World} {dates : List ℚ} {e : Event} (hen : Enabled w e) (hsafe : Safe w e)
    (h : w.Rep dates) : ∃ dates', (step w e).Rep dates' := by
  obtain ⟨-, hen⟩ := hen
  cases e with
  | addtimer timer next border =>
    refine (h.mark timer false).addtimer_free ?_ hen.2 hsafe
    intro b hb
    obtain ⟨b₀, hb₀, rfl⟩ := Option.map_eq_some_iff.mp hb
    have hcurrent := hen.1 b₀ hb₀
    split <;> exact hcurrent
  | set timer t border =>
    have hlast : ∀ d, w.last = some d → d ≤ w.clock + t := fun d hd =>
      (h.last d hd).1.trans (le_add_of_nonneg_right hen.2.1)
    exact h.arm hen.2.2 hsafe hlast fun b hb => h.date_le hen.1 hlast hb
  | removetimer timer => exact ⟨dates, h.removetimer hsafe.1 hsafe.2⟩
  | elapse clock =>
    refine ⟨dates, h.ok, h.lists, h.fields, ?_, h.idle, ?_⟩
    · exact fun d hd => ⟨(h.last d hd).1.trans hen, (h.last d hd).2⟩
    · intro b hb
      have hrep := h.batch b hb
      exact ⟨hrep.due, hrep.now.trans hen, hrep.date, hrep.after, hrep.before, hrep.current⟩
  | step =>
    refine ⟨dates, h.ok, h.lists, h.fields, h.last, nofun, ?_⟩
    intro b hb
    obtain rfl := Option.some.inj hb
    exact ⟨h.idle hen, le_refl _, le_refl _, fun d hd => (h.last d hd).1, fun hne => absurd rfl hne,
      nofun⟩
  | turn border =>
    obtain ⟨⟨b, hrun, hrest, -⟩, hb⟩ := hen
    rw [step, hrun]
    exact (h.turn hrun hrest hb).1
  | trigger timer =>
    obtain ⟨b, hrun, hmem, -⟩ := hen
    rw [step, hrun]
    exact ⟨dates, h.trigger hrun hmem⟩
  | done next border =>
    obtain ⟨⟨b, hrun, hsome⟩, hb⟩ := hen
    obtain ⟨timer, hcurrent⟩ := Option.isSome_iff_exists.mp hsome
    have hmem : w.running = some b := hrun
    simp only [step, hmem, hcurrent]
    exact h.done hrun hcurrent hb fun nd heq => ⟨(hsafe nd heq).1, (hsafe nd heq).2 b hrun⟩

theorem meets_of_rep {w : World} {dates : List ℚ} {e : Event} (hen : Enabled w e)
    (hsafe : Safe w e) (h : w.Rep dates) : Meets w e := by
  refine ⟨(rep_step hen hsafe h).elim fun _ hrep => hrep.ok, ?_⟩
  obtain ⟨-, hen⟩ := hen
  cases e with
  | turn border =>
    intro b hrun hnone
    obtain ⟨⟨b', hrun', hrest, -⟩, hb⟩ := hen
    obtain rfl : b = b' := Option.some.inj (hrun.symm.trans hrun')
    rw [step, hrun] at hnone
    exact ⟨(h.batch b hrun).due.trans hrest, (h.turn hrun hrest hb).2 hnone⟩
  | trigger timer =>
    intro b hrun
    obtain ⟨b', hrun', hmem, -⟩ := hen
    obtain rfl : b = b' := Option.some.inj (hrun.symm.trans hrun')
    have hrep := h.batch b hrun
    exact ⟨hrep.due ▸ hmem, hrep.date, hrep.after⟩
  | _ => trivial

theorem timers_fire {clock : ℚ} {w : World}
    (h : Runs step (fun w e => Enabled w e ∧ Safe w e) (init clock) w) {e : Event}
    (hen : Enabled w e) (hsafe : Safe w e) : Meets w e := by
  have hstep : ∀ w e, Enabled w e ∧ Safe w e → (∃ dates, w.Rep dates) →
      ∃ dates, (step w e).Rep dates := by
    intro w e he hI
    obtain ⟨dates, hd⟩ := hI
    exact rep_step he.1 he.2 hd
  obtain ⟨dates, hrep⟩ := h.invariant hstep ⟨[], rep_init clock⟩
  exact meets_of_rep hen hsafe hrep

theorem timers_fire_one :
    let es : List Event := [.set 0 1 0, .elapse 2, .step, .turn 1]
    Meets (es.foldl step (init (1 / 2))) (.trigger 0) := by
  refine timers_fire (Along.runs ?_) (by decide +kernel) trivial
  refine ⟨⟨by decide +kernel, ?_⟩, ⟨by decide +kernel, trivial⟩, ⟨by decide +kernel, trivial⟩,
    ⟨by decide +kernel, trivial⟩, trivial⟩
  show isIndex (1 / 2 + 1) = false
  decide +kernel

/-- Two timers have one date, and the callback of the first removes the second. -/
theorem removed_timer_triggered :
    ¬ ∀ (clock : ℚ) (w : World), Runs step Enabled (init clock) w →
      ∀ e, Enabled w e → Meets w e := by
  intro hall
  let es : List Event :=
    [.set 0 1 0, .set 1 1 1, .elapse 2, .step, .turn 1, .trigger 0, .removetimer 1, .done none 0]
  have hruns : Runs step Enabled (init (1 / 2)) (es.foldl step (init (1 / 2))) :=
    Along.runs (by decide +kernel)
  have hmeets := (hall _ _ hruns (.trigger 1) (by decide +kernel)).2
  have hdue : ∀ b ∈ (es.foldl step (init (1 / 2))).running,
      1 ∈ (es.foldl step (init (1 / 2))).due := fun b hb => (hmeets b hb).1
  revert hdue
  decide +kernel

end Mihini.Sched.Timer
