import Mathlib.Data.List.Sort
import Mihini.Data.Chains

/-!
# Flushes in progress

`check_source_consolidated`, `consolidate`, `flush_table` and `send_policy` of
`asscon/datamanager.lua`. A flush goes through the consolidations of its policy and then through
its tables, in the order of `pairs`; before each of them it waits for the source when the source
is due, that is, to be consolidated by now. Several flushes may go on at a time.

The tables and their links stay as they are while the flushes go on. Neither the rows nor what is
sent matters here.
-/

namespace Mihini.Data

open Mihini.Lib Mihini.Path

/-- The links between the tables and what the policies list. A source is older than its
destination and listed by the policy that consolidates it. -/
structure Graph where
  size : Nat
  src : Nat → Option Nat
  /-- `conso_table` -/
  dst : Nat → Option Nat
  conso : Nat → Option Str
  consolidations : Str → List Nat
  tables : Str → List Nat
  older : ∀ {t s}, src t = some s → s < t ∧ t < size
  listed : ∀ {t s}, src t = some s → ∃ P, conso s = some P ∧ s ∈ consolidations P

def listedBy (m : LuaTable (Str × Str) Nat) (policy : Str) : List Nat :=
  (m.entries.filter fun e => e.1.1 = policy).map fun e => e.2

def Tables.graph (T : Tables) (h : Tables.Linked T) : Graph where
  size := T.objects.length
  src t := T.objects[t]?.bind Table.srcTable
  dst t := T.objects[t]?.bind Table.consoTable
  conso t := T.objects[t]?.bind Table.consoPolicy
  consolidations := listedBy T.consolidations
  tables := listedBy T.policyTables
  older := by
    intro t s hsrc
    obtain ⟨u, hu, hs⟩ := Option.bind_eq_some_iff.mp hsrc
    exact ⟨(h.source t u s hu hs).2, (List.getElem?_eq_some_iff.mp hu).1⟩
  listed := by
    intro t s hsrc
    obtain ⟨u, hu, hs⟩ := Option.bind_eq_some_iff.mp hsrc
    obtain ⟨⟨id, v, Q, hfind, -, hQ, hlisted⟩, -⟩ := h.source t u s hu hs
    refine ⟨Q, by rw [(Tables.find_eq_some.mp hfind).2]; exact hQ, ?_⟩
    apply List.mem_map.mpr
    refine ⟨⟨(Q, id), s⟩, ?_, rfl⟩
    rw [List.mem_filter]
    exact ⟨AList.mem_lookup_iff.mp hlisted, by simp⟩

namespace Flush

/-! ## Consolidation -/

/-- How `sdb:consolidate` ends, and whether the destination has `maxrows` rows afterwards. -/
inductive Outcome
  | failed
  | empty
  | stored (full : Bool)
  deriving DecidableEq, Repr

section

variable (G : Graph)

/-- `flush_table`, as far as it consolidates with `consolidate`. -/
def flushTable (consolidate : Nat → List Nat) (t : Nat) : List Nat :=
  match G.conso t with
  | none => []
  | some P => if P ≠ never then consolidate t else []

/-- The tables of which `consolidate` gives the signal, in order. The outcomes are those of the
table, of its destination when that one is full, and so on. -/
def consolidate : List Outcome → Nat → List Nat
  | [], src => [src]
  | .failed :: _, _ => []
  | .empty :: _, src => [src]
  | .stored full :: outcomes, src =>
    (match G.dst src with
      | none => []
      | some dst => if full then flushTable G (consolidate outcomes) dst else []) ++ [src]

/-! ## The state -/

/-- How far `send_policy` is with the next table. -/
inductive Place
  | unchecked
  | waiting (src : Nat)
  | checked
  deriving DecidableEq, Repr

/-- A call of `send_policy`: the consolidations and the tables that are still to be done. -/
structure Job where
  policy : Str
  consolidations : List Nat
  tables : List Nat
  place : Place
  deriving DecidableEq, Repr

def Job.next (J : Job) : Option Nat :=
  match J.consolidations with
  | t :: _ => some t
  | [] => J.tables.head?

/-- `os.time()`, the dates `nextevent` of the policies, whether the timer of a policy has still to
start the flush of that date, `lastconso` of the tables, and the calls in progress. -/
structure State where
  clock : Int
  nextevent : Str → Option Int
  scheduled : Str → Bool
  lastconso : Nat → Option Int
  jobs : List Job

/-- The condition of `check_source_consolidated`. -/
def due (W : State) (src : Nat) : Bool :=
  match (G.conso src).bind W.nextevent with
  | none => false
  | some d =>
    decide (d ≤ W.clock) &&
      match W.lastconso src with
      | none => true
      | some l => l < d

/-- `sched.signal(src, 'consolidated')` for some tables. -/
def wake (ts : List Nat) (J : Job) : Job :=
  match J.place with
  | .waiting src => if src ∈ ts then { J with place := .checked } else J
  | _ => J

/-- The end of `consolidate` for some tables. -/
def mark (W : State) (ts : List Nat) : State :=
  { W with
    lastconso := fun t => if t ∈ ts then some W.clock else W.lastconso t
    jobs := W.jobs.map (wake ts) }

/-! ## Steps -/

variable (timed : Str → Bool)

inductive Event
  | tick (now : Int)
  | start (policy : Str) (consolidations tables : List Nat) (scheduled : Bool)
  | check (i : Nat)
  | proceed (i : Nat) (outcomes : List Outcome)
  /-- A call ends; `nd` is the date of the timer. -/
  | finish (i : Nat) (nd : Int)
  /-- `TableRow` filled the table `t`. -/
  | tableRow (t : Nat) (outcomes : List Outcome)
  | consoTrigger (t : Nat) (outcomes : List Outcome)

def checkSourceConsolidated (W : State) (J : Job) : Job :=
  match J.next.bind G.src with
  | none => { J with place := .checked }
  | some src => { J with place := if due G W src then .waiting src else .checked }

def proceed (W : State) (i : Nat) (J : Job) (outcomes : List Outcome) : State :=
  match J.consolidations, J.tables with
  | t :: rest, _ =>
    mark { W with jobs := W.jobs.set i { J with consolidations := rest, place := .unchecked } }
      (consolidate G outcomes t)
  | [], _ :: rest =>
    { W with jobs := W.jobs.set i { J with tables := rest, place := .unchecked } }
  | [], [] => W

/-- The end of `send_policy`: the timer is armed again, and its date recorded. -/
def finish (W : State) (i : Nat) (J : Job) (nd : Int) : State :=
  { W with
    nextevent := Function.update W.nextevent J.policy (if timed J.policy then some nd else none)
    scheduled := Function.update W.scheduled J.policy (timed J.policy)
    jobs := W.jobs.eraseIdx i }

def step (W : State) : Event → State
  | .tick now => { W with clock := now }
  | .start policy consolidations tables scheduled =>
    { W with
      scheduled := if scheduled then Function.update W.scheduled policy false else W.scheduled
      jobs := W.jobs ++ [⟨policy, consolidations, tables, .unchecked⟩] }
  | .check i =>
    match W.jobs[i]? with
    | some J =>
      if J.place = .unchecked ∧ J.next.isSome then
        { W with jobs := W.jobs.set i (checkSourceConsolidated G W J) }
      else W
    | none => W
  | .proceed i outcomes =>
    match W.jobs[i]? with
    | some J => if J.place = .checked then proceed G W i J outcomes else W
    | none => W
  | .finish i nd =>
    match W.jobs[i]? with
    | some J => if J.place = .unchecked ∧ J.next = none then finish timed W i J nd else W
    | none => W
  | .tableRow t outcomes => mark W (flushTable G (consolidate G outcomes) t)
  | .consoTrigger t outcomes =>
    -- A table that is no source raises an error.
    if (G.dst t).isSome then mark W (consolidate G outcomes t) else W

def init (clock : Int) (dates : Str → Int) : State :=
  ⟨clock, fun P => if timed P then some (dates P) else none, timed, fun _ => none, []⟩

def Legal (W : State) : Event → Prop
  | .start policy consolidations tables scheduled =>
    consolidations.Perm (G.consolidations policy) ∧ tables.Perm (G.tables policy) ∧
      (scheduled = true → W.scheduled policy = true)
  | _ => True

end

end Flush

end Mihini.Data
