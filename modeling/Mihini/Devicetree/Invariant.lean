import Mathlib.Data.List.Nodup
import Mihini.Devicetree.Registrations
import Mihini.Lib.Run

/-!
# What holds of the registrations

The properties of a state, the condition on its steps, the invariant that gives the properties, and what
is left of it by a step of another thread.
-/

namespace Mihini.Devicetree

open Mihini.Lib Function

/-! ## What should hold -/

def Thread.Awaits (th : Thread) (node id : Nat) : Prop :=
  th.call = .link node id ∨ th.call = .fill node id

structure State.Gone (s : State) (node : Nat) : Prop where
  unlisted : node ∉ s.nodes
  unawaited : ∀ t id, ¬ (s.thread t).Awaits node id

def State.Once (s : State) (node : Nat) (called : List Nat) : Prop :=
  called = [node] ∨ called = [] ∧ s.Gone node

structure Correct (s : State) : Prop where
  intact : s.broken = false
  delivered : ∀ t node called, (s.thread t).role = .done node called → s.Once node called
  renewed : s.renewal = none → ∀ e ∈ s.list,
    ∃ id, e.regId = some id ∧ ((id, e.node) ∈ s.valid ∨ e.node ∈ s.withdrawn)
  unblocked : ∀ t, s.lock = some t →
    ∃ s', Runs step (fun s e => Enabled s e ∧ e.thread = t) s s' ∧ s'.lock = none

/-! ## When it holds -/

def Sound (s : State) : Event → Prop
  | .register t (.granted _) => (s.thread t).role = .user
  | .insert _ _ _ => s.renewal = none ∧ s.walkers = []
  | .inserted _ _ _ => s.walkers = []
  | .unregister _ _ => s.filling = false
  | .read _ node => ∃ e ∈ s.list, e.node = node ∧ e.regId ≠ none
  | .deregister t node id consent =>
    (consent = .accepted → (s.thread t).role = .user) ∧
      (consent ≠ .refused → ∀ x ∈ s.valid, x.1 = id → x.2 = node)
  | .unlink _ node => s.walkers = [] ∧ node ∈ s.nodes
  | .scan _ id node connection =>
    (∀ t' id', ¬ (s.thread t').Awaits node id') ∧
      (connection ≠ s.connection ∨ s.renewal ≠ none →
        ∀ e ∈ s.list, e.regId = some id ↔ e.node = node)
  | .reconnect _ => s.renewal = none ∧ ∀ t' node id, ¬ (s.thread t').Awaits node id
  | .renewed _ _ _ answer => ∃ id, answer = .granted id
  | _ => True

/-! ## The invariant -/

def Thread.Holds (th : Thread) : Prop :=
  (∃ node id, th.call = .fill node id) ∨
    match th.role with
    | .scanning _ _ _ | .calling _ _ _ | .renewing _ | .asking _ _ => True
    | _ => False

def Call.Locks : Call → Prop
  | .link _ _ | .fill _ _ | .unlink _ => True
  | _ => False

def RoleOk (s : State) (t : Nat) : Role → Prop
  | .notified id node connection =>
    node < s.next ∧ connection ≤ s.connection ∧ (connection = s.connection → (id, node) ∈ s.given)
  | .scanning node called todo | .calling node called todo =>
    node < s.next ∧ (∀ k ∈ todo, k ∈ s.nodes) ∧ s.Once node (called ++ todo)
  | .done node called => node < s.next ∧ s.Once node called
  | .reconnected => s.renewal = some t ∧ s.stale = s.nodes
  | .renewing todo => s.renewal = some t ∧ s.stale = todo
  | .asking node todo => s.renewal = some t ∧ s.stale = node :: todo
  | .user | .ended => True

structure ThreadOk (s : State) (t : Nat) (th : Thread) : Prop where
  role : RoleOk s t th.role
  calls : th.call ≠ .out → th.role = .user ∨ ∃ node called todo, th.role = .calling node called todo
  locks : th.call.Locks → th.role = .user
  awaits : ∀ node id, th.Awaits node id → (id, node) ∈ s.given ∧ node ∉ s.nodes ∧ node < s.next
  fills : ∀ node id, th.call = .fill node id → s.renewal = none

structure Inv (s : State) : Prop where
  intact : s.broken = false
  nodup : s.nodes.Nodup
  bound : ∀ k ∈ s.nodes, k < s.next
  givenIds : (s.given.map Prod.fst).Nodup
  givenNodes : (s.given.map Prod.snd).Nodup
  givenBound : ∀ x ∈ s.given, x.2 < s.next
  valid : ∀ x ∈ s.valid, x ∈ s.given
  withdrawn : ∀ x ∈ s.given, x ∈ s.valid ∨ x.2 ∈ s.withdrawn
  current : ∀ e ∈ s.list, e.node ∉ s.stale → ∃ id, e.regId = some id ∧ (id, e.node) ∈ s.given
  stale : ∀ x ∈ s.given, x.2 ∉ s.stale
  listed : s.stale.Sublist s.nodes
  dangling : ∀ e ∈ s.list, e.regId = none → ∃ t todo, (s.thread t).role = .asking e.node todo
  settled : s.renewal = none → s.stale = []
  lock : ∀ t, s.lock = some t ↔ (s.thread t).Holds
  thread : ∀ t, ThreadOk s t (s.thread t)
  awaits : ∀ t t' node id id', (s.thread t).Awaits node id → (s.thread t').Awaits node id' → t = t'

/-! ## What the steps of other threads leave -/

def Role.Scans : Role → Prop
  | .scanning _ _ _ | .calling _ _ _ => True
  | _ => False

def Role.Renews : Role → Prop
  | .reconnected | .renewing _ | .asking _ _ => True
  | _ => False

theorem State.Gone.mono {s s' : State} {k : Nat} (h : s.Gone k) (hnodes : k ∉ s'.nodes)
    (hawaits : ∀ t id, (s'.thread t).Awaits k id → (s.thread t).Awaits k id) : s'.Gone k :=
  ⟨hnodes, fun t id ha => h.unawaited t id (hawaits t id ha)⟩

theorem State.Once.mono {s s' : State} {node : Nat} {called : List Nat} (h : s.Once node called)
    (hgone : s.Gone node → s'.Gone node) : s'.Once node called :=
  h.imp_right fun ⟨hnil, hg⟩ => ⟨hnil, hgone hg⟩

variable {th : Thread} {t : Nat}

theorem ThreadOk.frame {s s' : State} (h : ThreadOk s t th)
    (hnext : s.next ≤ s'.next) (hgone : ∀ k < s.next, s.Gone k → s'.Gone k)
    (hnotes : ∀ id node connection, th.role = .notified id node connection →
      connection ≤ s'.connection ∧ (connection = s'.connection → (id, node) ∈ s'.given))
    (hscans : th.role.Scans → ∀ k ∈ s.nodes, k ∈ s'.nodes)
    (hrenews : th.role.Renews → RoleOk s' t th.role)
    (hawaits : ∀ node id, th.Awaits node id → (id, node) ∈ s'.given ∧ node ∉ s'.nodes)
    (hfills : ∀ node id, th.call = .fill node id → s'.renewal = none) : ThreadOk s' t th := by
  refine ⟨?_, h.calls, h.locks, fun node id ha => ?_, hfills⟩
  · have hrole := h.role
    cases hr : th.role with
    | user => trivial
    | notified id node connection =>
      rw [hr] at hrole
      exact ⟨Nat.lt_of_lt_of_le hrole.1 hnext, hnotes id node connection hr⟩
    | scanning node called todo =>
      rw [hr] at hrole hscans
      obtain ⟨hlt, htodo, honce⟩ := hrole
      exact ⟨Nat.lt_of_lt_of_le hlt hnext, fun k hk => hscans trivial k (htodo k hk),
        honce.mono (hgone node hlt)⟩
    | calling node called todo =>
      rw [hr] at hrole hscans
      obtain ⟨hlt, htodo, honce⟩ := hrole
      exact ⟨Nat.lt_of_lt_of_le hlt hnext, fun k hk => hscans trivial k (htodo k hk),
        honce.mono (hgone node hlt)⟩
    | done node called =>
      rw [hr] at hrole
      exact ⟨Nat.lt_of_lt_of_le hrole.1 hnext, hrole.2.mono (hgone node hrole.1)⟩
    | reconnected => exact hr ▸ hrenews (hr ▸ trivial)
    | renewing todo => exact hr ▸ hrenews (hr ▸ trivial)
    | asking node todo => exact hr ▸ hrenews (hr ▸ trivial)
    | ended => trivial
  · obtain ⟨-, -, hlt⟩ := h.awaits node id ha
    exact ⟨(hawaits node id ha).1, (hawaits node id ha).2, Nat.lt_of_lt_of_le hlt hnext⟩

variable {s : State}

theorem ThreadOk.notes (h : ThreadOk s t th)
    {given : List (Nat × Nat)} (hgiven : ∀ x ∈ s.given, x ∈ given) {id node connection : Nat}
    (hrole : th.role = .notified id node connection) :
    connection ≤ s.connection ∧ (connection = s.connection → (id, node) ∈ given) := by
  have hok := h.role
  rw [hrole] at hok
  exact ⟨hok.2.1, fun heq => hgiven _ (hok.2.2 heq)⟩

theorem RoleOk.renewal {role : Role} (h : RoleOk s t role) (hrole : role.Renews) :
    s.renewal = some t := by
  cases role with
  | reconnected => exact h.1
  | renewing todo => exact h.1
  | asking node todo => exact h.1
  | _ => cases hrole

theorem RoleOk.renews {s s' : State} {role : Role} (h : RoleOk s t role)
    (hrole : role.Renews) (hnodes : s'.nodes = s.nodes) (hrenewal : s'.renewal = s.renewal)
    (hstale : s'.stale = s.stale) : RoleOk s' t role := by
  cases role with
  | reconnected => exact ⟨hrenewal.trans h.1, hstale.trans (h.2.trans hnodes.symm)⟩
  | renewing todo => exact ⟨hrenewal.trans h.1, hstale.trans h.2⟩
  | asking node todo => exact ⟨hrenewal.trans h.1, hstale.trans h.2⟩
  | _ => cases hrole

theorem ThreadOk.same {s s' : State} (h : ThreadOk s t th)
    (hnext : s.next ≤ s'.next) (hgiven : ∀ x ∈ s.given, x ∈ s'.given)
    (hconnection : s'.connection = s.connection) (hnodes : s'.nodes = s.nodes)
    (hrenewal : s'.renewal = s.renewal) (hstale : s'.stale = s.stale)
    (hawaits : ∀ t' k id, k < s.next → (s'.thread t').Awaits k id → (s.thread t').Awaits k id) :
    ThreadOk s' t th := by
  refine h.frame hnext (fun k hk hg => ?_) (fun _ _ _ hr => hconnection ▸ h.notes hgiven hr)
    (fun _ k hk => hnodes ▸ hk) (fun hrole => h.role.renews hrole hnodes hrenewal hstale)
    (fun node id ha => ?_) fun node id hfill => hrenewal.trans (h.fills node id hfill)
  · exact hg.mono (hnodes ▸ hg.unlisted) fun t' id => hawaits t' k id hk
  · rw [hnodes]
    exact ⟨hgiven _ (h.awaits node id ha).1, (h.awaits node id ha).2.1⟩

theorem holds_of_scans (h : th.role.Scans) : th.Holds := by
  refine .inr ?_
  cases hr : th.role with
  | scanning node called todo => trivial
  | calling node called todo => trivial
  | _ => exact absurd h (by rw [hr]; exact False.elim)

theorem reconnected_of_renews (h : th.role.Renews) (hfree : ¬ th.Holds) :
    th.role = .reconnected := by
  cases hr : th.role with
  | reconnected => rfl
  | renewing todo => exact absurd (.inr (by rw [hr]; trivial)) hfree
  | asking node todo => exact absurd (.inr (by rw [hr]; trivial)) hfree
  | _ => exact absurd h (by rw [hr]; exact False.elim)

theorem holds_update (h : ∀ t, s.lock = some t ↔ (s.thread t).Holds)
    {lock : Option Nat} (hself : lock = some t ↔ th.Holds)
    (hothers : ∀ t' ≠ t, lock = some t' ↔ s.lock = some t') (t' : Nat) :
    lock = some t' ↔ (update s.thread t th t').Holds := by
  by_cases ht : t' = t
  · subst ht
    rw [update_self]
    exact hself
  · rw [update_of_ne ht, hothers t' ht]
    exact h t'

theorem lock_taken (h : s.lock = none) :
    ∀ t' ≠ t, some t = some t' ↔ s.lock = some t' := by
  intro t' ht
  rw [h]
  exact ⟨fun heq => absurd (Option.some.inj heq).symm ht, nofun⟩

theorem lock_given (h : s.lock = some t) :
    ∀ t' ≠ t, none = some t' ↔ s.lock = some t' := by
  intro t' ht
  rw [h]
  exact ⟨nofun, fun heq => absurd (Option.some.inj heq).symm ht⟩

theorem awaits_update {t t' : Nat} {node id : Nat}
    (h : th.Awaits node id → (s.thread t).Awaits node id)
    (ha : (update s.thread t th t').Awaits node id) : (s.thread t').Awaits node id := by
  by_cases ht : t' = t
  · subst ht
    rw [update_self] at ha
    exact h ha
  · rwa [update_of_ne ht] at ha

theorem Inv.awaits_of (h : Inv s) {thread : Nat → Thread}
    (hold : ∀ t k id, (thread t).Awaits k id → (s.thread t).Awaits k id) :
    ∀ t t' node id id', (thread t).Awaits node id → (thread t').Awaits node id' → t = t' :=
  fun t t' node id id' ha ha' => h.awaits t t' node id id' (hold t node id ha) (hold t' node id' ha')

theorem Inv.turn (h : Inv s) (t : Nat) (th : Thread) {lock : Option Nat}
    {walkers : List Nat} {broken : Bool} (hbroken : broken = false) (hok : ThreadOk s t th)
    (hawaits : ∀ node id, th.Awaits node id → (s.thread t).Awaits node id)
    (hasking : ∀ k todo, (s.thread t).role = .asking k todo → th.role = .asking k todo)
    (hself : lock = some t ↔ th.Holds) (hothers : ∀ t' ≠ t, lock = some t' ↔ s.lock = some t') :
    Inv { s with
      thread := update s.thread t th
      lock := lock
      walkers := walkers
      broken := broken } := by
  have hold : ∀ t' k id, (update s.thread t th t').Awaits k id → (s.thread t').Awaits k id :=
    fun t' k id => awaits_update (hawaits k id)
  refine { h with
    intact := hbroken
    dangling := fun e he hnone => ?_
    lock := holds_update h.lock hself hothers
    thread := fun t' => ?_
    awaits := h.awaits_of hold }
  · obtain ⟨t', todo, hrole⟩ := h.dangling e he hnone
    refine ⟨t', todo, ?_⟩
    by_cases ht : t' = t
    · subst ht
      simpa using hasking _ _ hrole
    · simpa [update_of_ne ht] using hrole
  · have hthread : ThreadOk s t' (update s.thread t th t') := by
      by_cases ht : t' = t
      · subst ht
        simpa using hok
      · simpa [update_of_ne ht] using h.thread t'
    exact hthread.same (Nat.le_refl _) (fun _ hx => hx) rfl rfl rfl rfl fun t' k id _ => hold t' k id

end Mihini.Devicetree
