import Mathlib.Data.Finset.Card
import Mathlib.Order.Interval.Finset.Nat
import Mihini.Lib.Run

/-!
# The EMP parser of the Lua side

`src/luafwk/racon/empparser.lua`: the table of requests in progress, with its
counter, as the tasks that send commands and the task that parses replies change it.
Tasks are only suspended in `sched.wait` and in the socket.
-/

namespace Mihini.Racon.EmpParser

open Mihini.Lib Function List

abbrev Cmd := Nat

abbrev Payload := Option (List UInt8)

/-- The value of `inprogress[rid]`. -/
inductive Slot
  | cmd (cmdname : Cmd)
  | timedout
  deriving DecidableEq, Repr

/-- `self.skt`: a socket, or one of the numbers that stand for its loss. -/
inductive Skt
  | socket
  | code (n : Nat)
  deriving DecidableEq, Repr

/-- `errnum` of a name it does not know. -/
def errUnknown : Nat := 1

inductive Signal
  | reply (cmdname : Cmd) (rid : Nat) (status : Nat) (payload : Payload)
  | closed
  | ipcBroken
  | serverUnreachable
  deriving DecidableEq, Repr

inductive Wake
  | reply (status : Nat) (payload : Payload)
  | closed
  | ipcBroken
  | timeout
  deriving DecidableEq, Repr

/-- The tasks that send commands, by the place where they stand; `ev` is what woke
them up. -/
inductive Task
  /-- in `getrequestid` -/
  | blocked (cmdname : Cmd) (payload : Payload) (wait : Bool) (ev : Option Signal)
  /-- in `sendcmd`, called by `send_emp_cmd` unless `wait` -/
  | sending (cmdname : Cmd) (rid : Nat) (payload : Payload) (wait : Bool)
  /-- in the wait of `send_emp_cmd_wait` -/
  | waiting (cmdname : Cmd) (rid : Nat) (ev : Option Wake)
  deriving DecidableEq, Repr

/-- What a call returns: the status and payload of a reply, or a code and a hint;
`raised` when it ends with an error. -/
inductive Result
  | ok
  | reply (status : Nat) (payload : Payload)
  | err (code : Int) (hint : String)
  | raised
  deriving DecidableEq, Repr

structure Parser where
  skt : Skt
  inprogress : Nat → Option Slot
  n : Int
  tasks : List Task
  results : List Result
  handed : List (Nat × Bool)
  /-- the ids a reply can still be received for -/
  awaited : Nat → Bool

def new : Parser where
  skt := .socket
  inprogress := fun _ => none
  n := 0
  tasks := []
  results := []
  handed := []
  awaited := fun _ => false

def IsBorder (inprogress : Nat → Option Slot) (border : Nat) : Prop :=
  (border = 0 ∨ inprogress border ≠ none) ∧ inprogress (border + 1) = none

def scan (inprogress : Nat → Option Slot) : Nat :=
  ((List.range' 1 256).find? fun i => (inprogress i).isNone).getD 256

def pickId (inprogress : Nat → Option Slot) (border : Nat) : Nat :=
  if 256 < border + 1 then scan inprogress else border + 1

/-- `getrequestid`, and the part of its callers up to their suspension. -/
def getrequestid (p : Parser) (cmdname : Cmd) (payload : Payload) (wait : Bool) (border : Nat) :
    Parser :=
  if 256 ≤ p.n then { p with tasks := .blocked cmdname payload wait none :: p.tasks }
  else
    let rid := pickId p.inprogress border
    let sending := .sending cmdname rid payload wait :: p.tasks
    { p with
      inprogress := update p.inprogress rid (some (.cmd cmdname))
      n := p.n + 1
      handed := (rid, (p.inprogress rid).isNone) :: p.handed
      awaited := update p.awaited rid true
      tasks := if wait then .waiting cmdname rid none :: sending else sending }

def Parser.returns (p : Parser) (r : Result) : Parser := { p with results := r :: p.results }

/-- `send_emp_cmd` and `send_emp_cmd_wait`, which do not make the same checks. -/
def send (p : Parser) (cmdname : Cmd) (payload : Payload) (wait : Bool) (border : Nat) : Parser :=
  if wait then
    if p.skt = .code errUnknown then p.returns (.err errUnknown "ipc broken")
    else getrequestid p cmdname payload wait border
  else if p.skt = .code 517 then p.returns (.err errUnknown "ipc broken")
  else getrequestid p cmdname payload wait border

/-- A task that was woken up runs; `p` is the parser without it.  `sent` tells whether
the socket takes the command. -/
def run (p : Parser) (border : Nat) (sent : Bool) : Task → Parser
  | .blocked cmdname payload wait none =>
    { p with tasks := .blocked cmdname payload wait none :: p.tasks }
  | .blocked _ _ _ (some .closed) => p.returns .raised
  | .blocked cmdname payload wait (some _) => getrequestid p cmdname payload wait border
  | .sending _ rid _ wait =>
    if p.skt = .socket ∧ sent then if wait then p else p.returns .ok
    else
      let p := { p with awaited := update p.awaited rid false }
      if wait then p else p.returns .raised
  | .waiting cmdname rid none => { p with tasks := .waiting cmdname rid none :: p.tasks }
  | .waiting _ rid (some .closed) =>
    { p with inprogress := update p.inprogress rid none }.returns
      (.err (-6) "server unreachable")
  | .waiting _ rid (some .timeout) =>
    { p with inprogress := update p.inprogress rid (some .timedout) }.returns
      (.err (-7) "timeout for ack expired")
  | .waiting _ rid (some .ipcBroken) =>
    { p with inprogress := update p.inprogress rid none }.returns
      (.err (-13) "ipc broken")
  | .waiting _ _ (some (.reply status payload)) => p.returns (.reply status payload)

/-- A signal wakes the tasks that wait for it; those in `getrequestid` wait for any. -/
def Task.wake (signal : Signal) : Task → Task
  | .blocked cmdname payload wait none => .blocked cmdname payload wait (some signal)
  | .waiting cmdname rid none =>
    match signal with
    | .reply cmdname' rid' status payload =>
      .waiting cmdname rid
        (if cmdname = cmdname' ∧ rid = rid' then some (.reply status payload) else none)
    | .closed => .waiting cmdname rid (some .closed)
    | .ipcBroken => .waiting cmdname rid (some .ipcBroken)
    | .serverUnreachable => .waiting cmdname rid none
  | task => task

def Task.expire : Task → Task
  | .waiting cmdname rid none => .waiting cmdname rid (some .timeout)
  | task => task

def Parser.signal (p : Parser) (signal : Signal) : Parser :=
  { p with tasks := p.tasks.map (Task.wake signal) }

/-- `parse`, on the reply to a request. -/
def reply (p : Parser) (cmdname : Cmd) (rid : Nat) (status : Nat) (payload : Payload) : Parser :=
  match p.inprogress rid with
  | some .timedout =>
    { p with
      inprogress := update p.inprogress rid none
      n := p.n - 1
      awaited := update p.awaited rid false }
  | some (.cmd _) =>
    { p with
      inprogress := update p.inprogress rid none
      n := p.n - 1
      awaited := update p.awaited rid false }.signal (.reply cmdname rid status payload)
  | none => p

inductive Event
  | send (cmdname : Cmd) (payload : Payload) (wait : Bool) (border : Nat)
  | resume (task : Nat) (border : Nat) (sent : Bool)
  | reply (cmdname : Cmd) (id : UInt8) (status : Nat) (payload : Payload)
  | timeout (task : Nat)
  | ipcBroken
  | reconnected
  | unreachable
  | closed

def Parser.forget (p : Parser) : Parser := { p with awaited := fun _ => false }

def step (p : Parser) : Event → Parser
  | .send cmdname payload wait border => send p cmdname payload wait border
  | .resume i border sent =>
    match p.tasks[i]? with
    | none => p
    | some task => run { p with tasks := p.tasks.eraseIdx i } border sent task
  | .reply cmdname id status payload => reply p cmdname (id.toNat + 1) status payload
  | .timeout i => { p with tasks := p.tasks.modify i Task.expire }
  | .ipcBroken => ({ p with skt := .code errUnknown }.forget).signal .ipcBroken
  | .reconnected => { p with skt := .socket }
  | .unreachable => ({ p with skt := .code 512 }.forget).signal .serverUnreachable
  | .closed => p.forget.signal .closed

/-! ## The table and its counter -/

def ids (inprogress : Nat → Option Slot) : Finset Nat :=
  (Finset.Icc 1 256).filter fun rid => inprogress rid ≠ none

/-- A request that has not been answered and whose connection is not lost, or whose
caller has not returned. -/
def Outstanding (p : Parser) (rid : Nat) : Prop :=
  p.awaited rid = true ∨ ∃ cmdname ev, .waiting cmdname rid ev ∈ p.tasks

def Allowed (p : Parser) : Event → Prop
  | .send _ _ _ border => IsBorder p.inprogress border
  | .resume _ border _ => IsBorder p.inprogress border
  | _ => True

def OrderlyTask (p : Parser) (sent : Bool) : Task → Prop
  | .sending _ _ _ _ => p.skt = .socket ∧ sent = true
  | .waiting _ rid (some .timeout) => p.inprogress rid ≠ none
  | .waiting _ rid (some .closed) => p.inprogress rid = none
  | .waiting _ rid (some .ipcBroken) => p.inprogress rid = none
  | _ => True

/-- The connection is only lost while no id is reserved, commands are sent, a task
that was woken by its timeout still has its id, and one that was woken by a loss has
none; a reply that comes too late finds nobody blocked. -/
def Orderly (p : Parser) : Event → Prop
  | .resume i _ sent => ∀ task, p.tasks[i]? = some task → OrderlyTask p sent task
  | .ipcBroken => ∀ rid, p.inprogress rid = none
  | .unreachable => ∀ rid, p.inprogress rid = none
  | .closed => ∀ rid, p.inprogress rid = none
  | .reply _ id _ _ => p.inprogress (id.toNat + 1) = some .timedout →
      ∀ cmdname payload wait, .blocked cmdname payload wait none ∉ p.tasks
  | _ => True

structure Inv (p : Parser) : Prop where
  count : p.n = (ids p.inprogress).card
  range : ∀ rid, p.inprogress rid ≠ none → 1 ≤ rid ∧ rid ≤ 256
  awaited : ∀ rid, p.inprogress rid ≠ none → p.awaited rid = true
  handed : ∀ h ∈ p.handed, h.2 = true ∧ 1 ≤ h.1 ∧ h.1 ≤ 256
  blocked : ∀ cmdname payload wait, .blocked cmdname payload wait none ∈ p.tasks → 256 ≤ p.n

variable {inprogress : Nat → Option Slot}

theorem mem_ids {rid : Nat} :
    rid ∈ ids inprogress ↔ (1 ≤ rid ∧ rid ≤ 256) ∧ inprogress rid ≠ none := by
  rw [ids, Finset.mem_filter, Finset.mem_Icc]

theorem ids_reserve {rid : Nat} (hlo : 1 ≤ rid) (hhi : rid ≤ 256)
    (slot : Slot) :
    ids (update inprogress rid (some slot)) = insert rid (ids inprogress) := by
  ext r
  rw [Finset.mem_insert, mem_ids, mem_ids]
  by_cases hr : r = rid
  · subst hr
    simp [hlo, hhi]
  · simp [hr]

theorem ids_release (inprogress : Nat → Option Slot) (rid : Nat) :
    ids (update inprogress rid none) = (ids inprogress).erase rid := by
  ext r
  rw [Finset.mem_erase, mem_ids, mem_ids]
  by_cases hr : r = rid
  · subst hr
    simp
  · simp [hr]

/-- While an id is free, the one that is picked is. -/
theorem pickId_free {border : Nat}
    (hborder : IsBorder inprogress border) (hcard : (ids inprogress).card < 256) :
    inprogress (pickId inprogress border) = none ∧ 1 ≤ pickId inprogress border
      ∧ pickId inprogress border ≤ 256 := by
  unfold pickId
  split
  · -- The ids `1..256` are not all taken, so the loop finds one.
    obtain ⟨r, hr, hfree⟩ : ∃ r ∈ Finset.Icc 1 256, r ∉ ids inprogress := by
      by_contra hall
      push Not at hall
      have hle := Finset.card_le_card (s := Finset.Icc 1 256) hall
      rw [Nat.card_Icc] at hle
      omega
    rw [Finset.mem_Icc] at hr
    have hnone : inprogress r = none := by
      by_contra hsome
      exact hfree (mem_ids.mpr ⟨hr, hsome⟩)
    unfold scan
    cases hfind : (List.range' 1 256).find? fun i => (inprogress i).isNone with
    | none =>
      have := List.find?_eq_none.mp hfind r (mem_range'_1.mpr (by omega))
      simp [hnone] at this
    | some i =>
      have hi := mem_range'_1.mp (mem_of_find?_eq_some hfind)
      have hfound := List.find?_some hfind
      rw [Option.getD_some]
      exact ⟨by simpa using hfound, by omega, by omega⟩
  · exact ⟨hborder.2, by omega, by omega⟩

/-! ## The invariant -/

section
variable {p p' : Parser}

/-- Changes that leave the table alone; who is blocked was so before. -/
theorem Inv.mono (h : Inv p) (hinprogress : p'.inprogress = p.inprogress) (hn : p'.n = p.n)
    (hawaited : ∀ rid, p.inprogress rid ≠ none → p'.awaited rid = true)
    (hhanded : p'.handed = p.handed)
    (hblocked : ∀ cmdname payload wait, .blocked cmdname payload wait none ∈ p'.tasks →
      .blocked cmdname payload wait none ∈ p.tasks) : Inv p' where
  count := by rw [hn, hinprogress, h.count]
  range := by rw [hinprogress]; exact h.range
  awaited := by rw [hinprogress]; exact hawaited
  handed := by rw [hhanded]; exact h.handed
  blocked cmdname payload wait hmem := by
    rw [hn]
    exact h.blocked cmdname payload wait (hblocked cmdname payload wait hmem)

theorem Inv.getrequestid (h : Inv p) {border : Nat} (hborder : IsBorder p.inprogress border)
    (cmdname : Cmd) (payload : Payload) (wait : Bool) :
    Inv (getrequestid p cmdname payload wait border) := by
  unfold EmpParser.getrequestid
  split
  · next hfull =>
    constructor
    · exact h.count
    · exact h.range
    · exact h.awaited
    · exact h.handed
    · intro _ _ _ _
      exact hfull
  · next hroom =>
    have hcard : (ids p.inprogress).card < 256 := by
      have := h.count
      omega
    obtain ⟨hfree, hlo, hhi⟩ := pickId_free hborder hcard
    have hnobody : ∀ cmdname payload wait, .blocked cmdname payload wait none ∉ p.tasks := by
      intro cmdname payload wait hmem
      exact hroom (h.blocked cmdname payload wait hmem)
    generalize pickId p.inprogress border = rid at hfree hlo hhi
    dsimp only
    constructor
    · have hnew : rid ∉ ids p.inprogress := by
        rw [mem_ids]
        exact fun hmem => hmem.2 hfree
      rw [ids_reserve hlo hhi, Finset.card_insert_of_notMem hnew, h.count]
      push_cast
      rfl
    · intro r hr
      dsimp only at hr ⊢
      by_cases heq : r = rid
      · rw [heq]
        exact ⟨hlo, hhi⟩
      · rw [update_of_ne heq] at hr
        exact h.range r hr
    · intro r hr
      dsimp only at hr ⊢
      by_cases heq : r = rid
      · rw [heq, update_self]
      · rw [update_of_ne heq] at hr ⊢
        exact h.awaited r hr
    · intro x hx
      rcases mem_cons.mp hx with rfl | hx
      · exact ⟨by simp [hfree], hlo, hhi⟩
      · exact h.handed x hx
    · intro cmdname' payload' wait' hmem
      refine absurd ?_ (hnobody cmdname' payload' wait')
      cases wait with
      | true => simpa using hmem
      | false => simpa using hmem

variable {tasks : List Task}

/-- The id of a request that was answered is free again. -/
theorem Inv.release (h : Inv p) {rid : Nat} (hreserved : p.inprogress rid ≠ none)
    (hblocked : ∀ cmdname payload wait, .blocked cmdname payload wait none ∉ tasks) :
    Inv { p with
      inprogress := update p.inprogress rid none
      n := p.n - 1
      awaited := update p.awaited rid false
      tasks := tasks } := by
  have hmem : rid ∈ ids p.inprogress := mem_ids.mpr ⟨h.range rid hreserved, hreserved⟩
  have hpos : 0 < (ids p.inprogress).card := Finset.card_pos.mpr ⟨rid, hmem⟩
  constructor
  · show p.n - 1 = ((ids (update p.inprogress rid none)).card : Int)
    rw [ids_release, Finset.card_erase_of_mem hmem, h.count]
    omega
  · intro r hr
    dsimp only at hr ⊢
    by_cases heq : r = rid
    · rw [heq, update_self] at hr
      exact absurd rfl hr
    · rw [update_of_ne heq] at hr
      exact h.range r hr
  · intro r hr
    dsimp only at hr ⊢
    by_cases heq : r = rid
    · rw [heq, update_self] at hr
      exact absurd rfl hr
    · rw [update_of_ne heq] at hr ⊢
      exact h.awaited r hr
  · exact h.handed
  · intro cmdname payload wait hmem
    exact absurd hmem (hblocked cmdname payload wait)

theorem not_blocked_of_wake {signal : Signal} (cmdname : Cmd)
    (payload : Payload) (wait : Bool) :
    .blocked cmdname payload wait none ∉ tasks.map (Task.wake signal) := by
  intro hmem
  obtain ⟨task, -, heq⟩ := mem_map.mp hmem
  unfold Task.wake at heq
  split at heq
  · cases heq
  · split at heq <;> cases heq
  · next hblocked _ => exact hblocked _ _ _ heq

theorem Inv.signal (h : Inv p) (signal : Signal) : Inv (p.signal signal) :=
  h.mono rfl rfl h.awaited rfl fun cmdname payload wait hmem =>
    absurd hmem (not_blocked_of_wake cmdname payload wait)

theorem Inv.reply (h : Inv p) (cmdname : Cmd) (rid status : Nat) (payload : Payload)
    (hblocked : p.inprogress rid = some .timedout →
      ∀ cmdname payload wait, .blocked cmdname payload wait none ∉ p.tasks) :
    Inv (reply p cmdname rid status payload) := by
  unfold EmpParser.reply
  split
  · next htimedout => exact h.release (by simp [htimedout]) (hblocked htimedout)
  · next hcmd => exact h.release (by simp [hcmd]) not_blocked_of_wake
  · exact h

/-- A task that finds what it has to find keeps the invariant. -/
theorem Inv.run (h : Inv p) {border : Nat} (hborder : IsBorder p.inprogress border) {sent : Bool}
    {task : Task} (horderly : OrderlyTask p sent task)
    (hblocked : ∀ cmdname payload wait, task = .blocked cmdname payload wait none → 256 ≤ p.n) :
    Inv (run p border sent task) := by
  have hreturns (r : Result) : Inv (p.returns r) :=
    h.mono rfl rfl h.awaited rfl fun _ _ _ hmem => hmem
  cases task with
  | blocked cmdname payload wait ev =>
    rcases ev with _ | signal
    · refine ⟨h.count, h.range, h.awaited, h.handed, fun cmdname' payload' wait' hmem => ?_⟩
      exact hblocked cmdname payload wait rfl
    · cases signal with
      | closed => exact hreturns .raised
      | reply => exact h.getrequestid hborder cmdname payload wait
      | ipcBroken => exact h.getrequestid hborder cmdname payload wait
      | serverUnreachable => exact h.getrequestid hborder cmdname payload wait
  | sending cmdname rid payload wait =>
    have hsent : p.skt = .socket ∧ sent = true := horderly
    simp only [EmpParser.run, if_pos hsent]
    split
    · exact h
    · exact hreturns .ok
  | waiting cmdname rid ev =>
    rcases ev with _ | _ | _ | _ | _
    · refine h.mono rfl rfl h.awaited rfl fun cmdname' payload' wait' hmem => ?_
      rcases mem_cons.mp hmem with heq | hmem
      · cases heq
      · exact hmem
    · exact hreturns _
    · -- The id was free already.
      refine h.mono ?_ rfl h.awaited rfl fun _ _ _ hmem => hmem
      exact update_eq_self_iff.mpr horderly.symm
    · refine h.mono ?_ rfl h.awaited rfl fun _ _ _ hmem => hmem
      exact update_eq_self_iff.mpr horderly.symm
    · -- The id stays reserved until its reply comes.
      have hrange := h.range rid horderly
      have hmem : rid ∈ ids p.inprogress := mem_ids.mpr ⟨hrange, horderly⟩
      have hsame : ∀ r, update p.inprogress rid (some .timedout) r ≠ none →
          p.inprogress r ≠ none := by
        intro r hr
        by_cases heq : r = rid
        · rw [heq]
          exact horderly
        · rwa [update_of_ne heq] at hr
      constructor
      · show p.n = ((ids (update p.inprogress rid (some .timedout))).card : Int)
        rw [ids_reserve hrange.1 hrange.2, Finset.insert_eq_of_mem hmem, h.count]
      · exact fun r hr => h.range r (hsame r hr)
      · exact fun r hr => h.awaited r (hsame r hr)
      · exact h.handed
      · exact h.blocked

theorem mem_modify_expire {i : Nat} {cmdname : Cmd} {payload : Payload}
    {wait : Bool} (h : .blocked cmdname payload wait none ∈ tasks.modify i Task.expire) :
    .blocked cmdname payload wait none ∈ tasks := by
  induction tasks generalizing i with
  | nil => simp at h
  | cons task tasks ih =>
    cases i with
    | zero =>
      rw [modify_zero_cons] at h
      rcases mem_cons.mp h with heq | h
      · unfold Task.expire at heq
        split at heq
        · cases heq
        · rw [heq]
          exact mem_cons_self ..
      · exact mem_cons_of_mem _ h
    | succ i =>
      rw [modify_succ_cons] at h
      rcases mem_cons.mp h with heq | h
      · rw [heq]
        exact mem_cons_self ..
      · exact mem_cons_of_mem _ (ih h)

theorem Inv.step (h : Inv p) {ev : Event} (hallowed : Allowed p ev) (horderly : Orderly p ev) :
    Inv (step p ev) := by
  have hreturns (r : Result) : Inv (p.returns r) :=
    h.mono rfl rfl h.awaited rfl fun _ _ _ hmem => hmem
  -- A loss of the connection: no id is reserved, so nothing is forgotten.
  have hloss (hnone : ∀ rid, p.inprogress rid = none) (skt : Skt) :
      Inv { p with skt := skt }.forget :=
    h.mono rfl rfl (fun rid hrid => absurd (hnone rid) hrid) rfl fun _ _ _ hmem => hmem
  cases ev with
  | send cmdname payload wait border =>
    show Inv (send p cmdname payload wait border)
    unfold EmpParser.send
    split
    · split
      · exact hreturns _
      · exact h.getrequestid hallowed cmdname payload wait
    · split
      · exact hreturns _
      · exact h.getrequestid hallowed cmdname payload wait
  | resume i border sent =>
    unfold EmpParser.step
    dsimp only
    split
    · exact h
    · next task htask =>
      have herased : Inv { p with tasks := p.tasks.eraseIdx i } :=
        h.mono rfl rfl h.awaited rfl fun _ _ _ hmem => mem_of_mem_eraseIdx hmem
      have horderly' : OrderlyTask { p with tasks := p.tasks.eraseIdx i } sent task := by
        have := horderly task htask
        cases task with
        | waiting cmdname rid ev => rcases ev with _ | _ | _ | _ | _ <;> exact this
        | _ => exact this
      refine herased.run hallowed horderly' ?_
      rintro cmdname payload wait rfl
      exact h.blocked cmdname payload wait (mem_of_getElem? htask)
  | reply cmdname id status payload => exact h.reply cmdname _ status payload horderly
  | timeout i => exact h.mono rfl rfl h.awaited rfl fun _ _ _ hmem => mem_modify_expire hmem
  | ipcBroken => exact (hloss horderly _).signal .ipcBroken
  | reconnected => exact h.mono rfl rfl h.awaited rfl fun _ _ _ hmem => hmem
  | unreachable => exact (hloss horderly _).signal .serverUnreachable
  | closed => exact (hloss horderly p.skt).signal .closed

end

theorem new_inv : Inv new := by
  constructor
  · have : ids new.inprogress = ∅ := by
      rw [ids, Finset.filter_eq_empty_iff]
      simp [new]
    rw [this]
    rfl
  · simp [new]
  · simp [new]
  · simp [new]
  · simp [new]

/-- In every orderly run of a new parser the counter is the number of reserved ids,
every id that was given out was free and in range, only outstanding requests have ids,
and `getrequestid` only blocks while all ids are taken. -/
theorem requestIds {p : Parser}
    (hrun : Runs step (fun p ev => Allowed p ev ∧ Orderly p ev) new p) :
    p.n = (ids p.inprogress).card
      ∧ (∀ h ∈ p.handed, h.2 = true ∧ 1 ≤ h.1 ∧ h.1 ≤ 256)
      ∧ (∀ rid, p.inprogress rid ≠ none → Outstanding p rid)
      ∧ ∀ cmdname payload wait, .blocked cmdname payload wait none ∈ p.tasks →
        ∀ rid, 1 ≤ rid → rid ≤ 256 → p.inprogress rid ≠ none := by
  have h : Inv p := hrun.invariant (fun p ev hev h => h.step hev.1 hev.2) new_inv
  refine ⟨h.count, h.handed, fun rid hrid => .inl (h.awaited rid hrid), ?_⟩
  intro cmdname payload wait hmem rid hlo hhi
  have hfull : 256 ≤ (ids p.inprogress).card := by
    have := h.blocked cmdname payload wait hmem
    have := h.count
    omega
  have hall : ids p.inprogress = Finset.Icc 1 256 := by
    refine Finset.eq_of_subset_of_card_le (Finset.filter_subset _ _) ?_
    rw [Nat.card_Icc]
    omega
  have hrid : rid ∈ ids p.inprogress := by
    rw [hall]
    exact Finset.mem_Icc.mpr ⟨hlo, hhi⟩
  exact (mem_ids.mp hrid).2

/-- One command that is sent and answered. -/
theorem requestIds_answered :
    let p := [.send 1 none true 0, .resume 1 1 true, .reply 1 0 0 none, .resume 0 0 true].foldl
      step new
    p.results = [.reply 0 none] ∧ p.n = 0 ∧ p.n = (ids p.inprogress).card
      ∧ p.handed = [(1, true)] := by
  intro p
  have hrun : Runs step (fun p ev => Allowed p ev ∧ Orderly p ev) new p := by
    refine Along.runs ⟨⟨⟨.inl rfl, rfl⟩, trivial⟩, ⟨⟨.inr (by decide), by decide⟩, ?_⟩,
      ⟨trivial, ?_⟩, ⟨⟨.inl rfl, by decide⟩, ?_⟩, trivial⟩
    · intro task htask
      cases htask
      exact ⟨rfl, rfl⟩
    · intro htimedout
      exact absurd htimedout (by decide)
    · intro task htask
      cases htask
      trivial
  exact ⟨rfl, rfl, (requestIds hrun).1, by decide⟩

/-- The connection breaks while a command waits for its reply: the id is free again,
but it is still counted. -/
theorem requestIds_leak :
    let p := [.send 1 none true 0, .resume 1 1 true, .ipcBroken, .resume 0 1 true].foldl step new
    Runs step Allowed new p ∧ p.results = [.err (-13) "ipc broken"] ∧ p.tasks = []
      ∧ p.n = 1 ∧ ∀ rid, p.inprogress rid = none := by
  intro p
  refine ⟨?_, by decide, by decide, by decide, ?_⟩
  · refine Along.runs ⟨⟨.inl rfl, rfl⟩, ⟨.inr (by decide), by decide⟩, trivial,
      ⟨.inr (by decide), by decide⟩, trivial⟩
  · intro rid
    show update (update (fun _ => none) 1 (some (Slot.cmd 1))) 1 none rid = none
    by_cases heq : rid = 1
    · rw [heq, update_self]
    · rw [update_of_ne heq, update_of_ne heq]

end Mihini.Racon.EmpParser
