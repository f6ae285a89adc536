import Mathlib.Logic.Function.Basic

/-!
# The registrations of the device tree

`swi_dt_Register`, `swi_dt_Unregister`, `empNotifyVariables` and `empReregisterServices` of
`src/cfwk/devicetree/swi_devicetree.c`, whose threads are interleaved wherever one of them waits for
another party or uses the list without the lock.
-/

namespace Mihini.Devicetree

/-- A node of `cb_list`; `regId` is `none` when it points to memory that is freed. -/
structure Entry where
  node : Nat
  regId : Option Nat
  deriving DecidableEq

/-- Where a thread is in `swi_dt_Register` or `swi_dt_Unregister`: what it does next. -/
inductive Call where
  | out
  | link (node id : Nat)
  /-- The new node is linked and its fields are not set yet. -/
  | fill (node id : Nat)
  | search (node : Nat)
  | read (node : Nat)
  | deregister (node id : Nat)
  | unlink (node : Nat)
  deriving DecidableEq

inductive Role where
  | user
  /-- In `empNotifyVariables`, at the lock: a notification for an id that the agent had given for a
  node, sent over a connection. -/
  | notified (id node connection : Nat)
  /-- In the loop: the nodes whose callbacks were called, and those that are left. -/
  | scanning (node : Nat) (called todo : List Nat)
  | calling (node : Nat) (called todo : List Nat)
  | done (node : Nat) (called : List Nat)
  /-- In `empReregisterServices`, at the lock. -/
  | reconnected
  | renewing (todo : List Nat)
  | asking (node : Nat) (todo : List Nat)
  | ended
  deriving DecidableEq

structure Thread where
  role : Role
  call : Call
  deriving DecidableEq

def Thread.idle : Thread := ⟨.user, .out⟩

def Thread.IsFree (th : Thread) : Prop :=
  th.call = .out ∧
    match th.role with
    | .user | .calling _ _ _ => True
    | _ => False

instance : DecidablePred Thread.IsFree := fun th => by
  unfold Thread.IsFree
  cases th.role <;> infer_instance

structure State where
  list : List Entry
  lock : Option Nat
  thread : Nat → Thread
  walkers : List Nat
  broken : Bool
  next : Nat
  valid : List (Nat × Nat)
  given : List (Nat × Nat)
  /-- The nodes whose ids the agent has given up at the request of `swi_dt_Unregister`. -/
  withdrawn : List Nat
  connection : Nat
  renewal : Option Nat
  stale : List Nat

def State.init : State where
  list := []
  lock := none
  thread := fun _ => .idle
  walkers := []
  broken := false
  next := 0
  valid := []
  given := []
  withdrawn := []
  connection := 0
  renewal := none
  stale := []

namespace State

variable (s : State)

def nodes : List Nat := s.list.map Entry.node

def setRole (t : Nat) (role : Role) : State :=
  { s with thread := Function.update s.thread t { s.thread t with role := role } }

def setCall (t : Nat) (call : Call) : State :=
  { s with thread := Function.update s.thread t { s.thread t with call := call } }

def require (sound : Bool) : State := { s with broken := s.broken || !sound }

def give (id node : Nat) : State :=
  { s with valid := (id, node) :: s.valid, given := (id, node) :: s.given }

def withdraw (id node : Nat) : State :=
  { s with valid := s.valid.filter fun x => x.1 ≠ id, withdrawn := node :: s.withdrawn }

def assign (node : Nat) (regId : Option Nat) : State :=
  { s with list := s.list.map fun e => if e.node = node then { e with regId := regId } else e }

def filling : Bool :=
  match s.lock with
  | none => false
  | some t =>
    match (s.thread t).call with
    | .fill _ _ => true
    | _ => false

end State

inductive Answer where
  | granted (id : Nat)
  | unheard (id : Nat)
  | refused
  deriving DecidableEq

inductive Consent where
  | accepted
  | unheard
  | refused
  deriving DecidableEq

inductive Event where
  /-- `swi_dt_Register`, up to the lock. -/
  | register (t : Nat) (answer : Answer)
  | insert (t node id : Nat)
  | inserted (t node id : Nat)
  | unregister (t node : Nat)
  | searched (t node : Nat)
  | read (t node : Nat)
  | deregister (t node id : Nat) (consent : Consent)
  | unlink (t node : Nat)
  | notify (t id node : Nat)
  | scan (t id node connection : Nat)
  | callback (t node : Nat) (called : List Nat) (k : Nat) (todo : List Nat)
  | returned (t node : Nat) (called todo : List Nat)
  | scanned (t node : Nat) (called : List Nat)
  /-- The connection is lost and made again, and there is a new thread for `empReregisterServices`. -/
  | reconnect (t : Nat)
  | renew (t : Nat)
  | free (t node : Nat) (todo : List Nat)
  | renewed (t node : Nat) (todo : List Nat) (answer : Answer)
  | renewDone (t : Nat)
  deriving DecidableEq

def Event.thread : Event → Nat
  | .register t _ | .insert t _ _ | .inserted t _ _ | .unregister t _ | .searched t _ | .read t _
  | .deregister t _ _ _ | .unlink t _ | .notify t _ _ | .scan t _ _ _ | .callback t _ _ _ _
  | .returned t _ _ _ | .scanned t _ _ | .reconnect t | .renew t | .free t _ _ | .renewed t _ _ _
  | .renewDone t => t

def State.Unused (s : State) : Answer → Prop
  | .granted id | .unheard id => ∀ x ∈ s.given, x.1 ≠ id
  | .refused => True

instance (s : State) : DecidablePred s.Unused
  | .granted id => inferInstanceAs (Decidable (∀ x ∈ s.given, x.1 ≠ id))
  | .unheard id => inferInstanceAs (Decidable (∀ x ∈ s.given, x.1 ≠ id))
  | .refused => inferInstanceAs (Decidable True)

/-- The thread is at the event, has the lock when it needs it, and the agent gives ids that it has not
given yet over the connection. -/
def Enabled (s : State) : Event → Prop
  | .register t answer => (s.thread t).IsFree ∧ s.Unused answer
  | .insert t node id => (s.thread t).call = .link node id ∧ s.lock = none
  | .inserted t node id => (s.thread t).call = .fill node id
  | .unregister t _ => (s.thread t).IsFree
  | .searched t node => (s.thread t).call = .search node
  | .read t node => (s.thread t).call = .read node
  | .deregister t node id consent =>
    (s.thread t).call = .deregister node id ∧ (consent ≠ .refused → ∃ x ∈ s.valid, x.1 = id)
  | .unlink t node => (s.thread t).call = .unlink node ∧ s.lock = none
  | .notify t id node => s.thread t = .idle ∧ (id, node) ∈ s.valid
  | .scan t id node connection =>
    (s.thread t).role = .notified id node connection ∧ s.lock = none
  | .callback t node called k todo => (s.thread t).role = .scanning node called (k :: todo)
  | .returned t node called todo => s.thread t = ⟨.calling node called todo, .out⟩
  | .scanned t node called => (s.thread t).role = .scanning node called []
  | .reconnect t => s.thread t = .idle
  | .renew t => (s.thread t).role = .reconnected ∧ s.lock = none
  | .free t node todo => (s.thread t).role = .renewing (node :: todo)
  | .renewed t node todo answer => (s.thread t).role = .asking node todo ∧ s.Unused answer
  | .renewDone t => (s.thread t).role = .renewing []

instance (s : State) (e : Event) : Decidable (Enabled s e) := by
  cases e <;> unfold Enabled <;> infer_instance

def step (s : State) : Event → State
  | .register t answer =>
    let s' := { s with next := s.next + 1 }
    match answer with
    | .granted id => (s'.give id s.next).setCall t (.link s.next id)
    | .unheard id => s'.give id s.next
    | .refused => s
  | .insert t node id => { (s.require (s.walkers = [])).setCall t (.fill node id) with lock := some t }
  | .inserted t node id =>
    { (s.require (s.walkers = [])).setCall t .out with
      list := s.list ++ [⟨node, some id⟩]
      lock := none }
  | .unregister t node =>
    { (s.require (!s.filling)).setCall t (.search node) with walkers := t :: s.walkers }
  | .searched t node =>
    { s.setCall t (if node ∈ s.nodes then .read node else .out) with walkers := s.walkers.erase t }
  | .read t node =>
    match (s.list.find? fun e => e.node = node).bind Entry.regId with
    | some id => s.setCall t (.deregister node id)
    | none => (s.require false).setCall t .out
  | .deregister t node id consent =>
    match consent with
    | .accepted => (s.withdraw id node).setCall t (.unlink node)
    | .unheard => (s.withdraw id node).setCall t .out
    | .refused => s.setCall t .out
  | .unlink t node =>
    { (s.require (s.walkers = [] ∧ node ∈ s.nodes)).setCall t .out with
      list := s.list.eraseP fun e => e.node = node
      stale := s.stale.erase node }
  | .notify t id node => s.setRole t (.notified id node s.connection)
  | .scan t id node _ =>
    -- `strcmp` reads the id of every node
    { (s.require (s.list.all fun e => e.regId.isSome)).setRole t
        (.scanning node [] ((s.list.filter fun e => e.regId = some id).map Entry.node)) with
      lock := some t }
  | .callback t node called k todo => s.setRole t (.calling node (called ++ [k]) todo)
  | .returned t node called todo => s.setRole t (.scanning node called todo)
  | .scanned t node called => { s.setRole t (.done node called) with lock := none }
  | .reconnect t =>
    { s.setRole t .reconnected with
      valid := []
      given := []
      withdrawn := []
      connection := s.connection + 1
      renewal := some t
      stale := s.nodes }
  | .renew t => { s.setRole t (.renewing s.nodes) with lock := some t }
  | .free t node todo => (s.assign node none).setRole t (.asking node todo)
  | .renewed t node todo answer =>
    let s' :=
      match answer with
      | .granted id => (s.assign node (some id)).give id node
      | .unheard id => s.give id node
      | .refused => s
    { s'.setRole t (.renewing todo) with stale := s.stale.erase node }
  | .renewDone t => { s.setRole t .ended with lock := none, renewal := none }

end Mihini.Devicetree
