import Mihini.Devicetree.Invariant
import Mihini.Lib.Keyed

/-!
# The delivery of notifications

Every step keeps the invariant, as long as it does not meet one of the gaps between the agent's answers,
the list and its lock.
-/

namespace Mihini.Devicetree

open Mihini.Lib Function List

/-! ## Steps of one thread -/

theorem not_awaits_out {role : Role} {node id : Nat} : ¬ Thread.Awaits ⟨role, .out⟩ node id := by
  rintro (h | h) <;> cases h

theorem not_holds_user {role : Role} (h : role = .user) : ¬ Thread.Holds ⟨role, .out⟩ := by
  subst h
  rintro (⟨_, _, hc⟩ | hr)
  · cases hc
  · cases hr

variable {s : State}

theorem ThreadOk.out {t : Nat} {role : Role} (h : RoleOk s t role) :
    ThreadOk s t ⟨role, .out⟩ :=
  ⟨h, fun hne => absurd rfl hne, False.elim, fun _ _ ha => absurd ha not_awaits_out, nofun⟩

theorem ThreadOk.call_eq {t : Nat} {th : Thread} (h : ThreadOk s t th)
    (huser : th.role ≠ .user) (hcalling : ∀ node called todo, th.role ≠ .calling node called todo) :
    th.call = .out := by
  by_contra hne
  rcases h.calls hne with hrole | ⟨node, called, todo, hrole⟩
  · exact huser hrole
  · exact hcalling node called todo hrole

theorem Inv.setCall (h : Inv s) (t : Nat) (call : Call) {walkers : List Nat}
    {broken : Bool} (hbroken : broken = false) (hfill : ∀ node id, (s.thread t).call ≠ .fill node id)
    (hcall : ∀ node id, call ≠ .link node id ∧ call ≠ .fill node id)
    (hcalls : call ≠ .out →
      (s.thread t).role = .user ∨ ∃ node called todo, (s.thread t).role = .calling node called todo)
    (hlocks : call.Locks → (s.thread t).role = .user) :
    Inv { s.setCall t call with walkers := walkers, broken := broken } := by
  have hawaits : ∀ node id, ¬ Thread.Awaits { s.thread t with call := call } node id :=
    fun node id ha => ha.elim (hcall node id).1 (hcall node id).2
  refine h.turn t { s.thread t with call := call } hbroken ?_
    (fun node id ha => absurd ha (hawaits node id)) (fun k todo hrole => hrole) ((h.lock t).trans ?_)
    fun _ _ => Iff.rfl
  · exact ⟨(h.thread t).role, hcalls, hlocks, fun node id ha => absurd ha (hawaits node id),
      fun node id hc => absurd hc (hcall node id).2⟩
  · constructor
    · rintro (⟨node, id, hc⟩ | hrole)
      · exact absurd hc (hfill node id)
      · exact .inr hrole
    · rintro (⟨node, id, hc⟩ | hrole)
      · exact absurd hc (hcall node id).2
      · exact .inr hrole

theorem Thread.IsFree.role {th : Thread} (h : th.IsFree) :
    th.role = .user ∨ ∃ node called todo, th.role = .calling node called todo := by
  have hrole := h.2
  cases hr : th.role with
  | user => exact .inl rfl
  | calling node called todo => exact .inr ⟨node, called, todo, rfl⟩
  | _ => simp [hr] at hrole

theorem require_eq (h : Inv s) {b : Bool} (hb : b = true) : (s.broken || !b) = false := by
  simp [h.intact, hb]

theorem insert_inv (h : Inv s) {t node id : Nat} (henabled : Enabled s (.insert t node id))
    (hsound : Sound s (.insert t node id)) : Inv (step s (.insert t node id)) := by
  obtain ⟨hcall, hlock⟩ := henabled
  have hth := h.thread t
  have hlink : (s.thread t).Awaits node id := .inl hcall
  have hrole : (s.thread t).role = .user := hth.locks (by rw [hcall]; trivial)
  have hawaits : ∀ node' id', Thread.Awaits { s.thread t with call := .fill node id } node' id' →
      (s.thread t).Awaits node' id' := by
    rintro node' id' (hc | hc)
    · cases hc
    · cases hc
      exact hlink
  refine h.turn t _ (require_eq h (by simp [hsound.2])) ?_ hawaits (fun _ _ hr => hr)
    ⟨fun _ => .inl ⟨node, id, rfl⟩, fun _ => rfl⟩ (lock_taken hlock)
  exact ⟨hth.role, fun _ => .inl hrole, fun _ => hrole,
    fun node' id' ha => hth.awaits node' id' (hawaits node' id' ha), fun _ _ _ => hsound.1⟩

variable {t node : Nat}

theorem unregister_inv (h : Inv s)
    (henabled : Enabled s (.unregister t node)) (hsound : Sound s (.unregister t node)) :
    Inv (step s (.unregister t node)) := by
  have hfree : (s.thread t).IsFree := henabled
  have hsound : s.filling = false := hsound
  refine h.setCall t (.search node) (require_eq h (by simp [hsound])) (fun _ _ => ?_)
    (fun _ _ => ⟨nofun, nofun⟩) (fun _ => hfree.role) False.elim
  rw [hfree.1]
  exact nofun

theorem searched_inv (h : Inv s) (henabled : Enabled s (.searched t node)) :
    Inv (step s (.searched t node)) := by
  have hcall : (s.thread t).call = .search node := henabled
  have hcalls := (h.thread t).calls (by rw [hcall]; nofun)
  refine h.setCall t _ h.intact (fun _ _ => ?_) (fun _ _ => ?_) (fun _ => hcalls) fun hlocks => ?_
  · rw [hcall]
    exact nofun
  · split_ifs <;> exact ⟨nofun, nofun⟩
  · split_ifs at hlocks <;> cases hlocks

theorem read_inv (h : Inv s) (henabled : Enabled s (.read t node))
    (hsound : Sound s (.read t node)) : Inv (step s (.read t node)) := by
  have hcall : (s.thread t).call = .read node := henabled
  have hcalls := (h.thread t).calls (by rw [hcall]; nofun)
  have hfind : ∃ id, (s.list.find? fun e => e.node = node).bind Entry.regId = some id := by
    obtain ⟨e, he, hnode, hne⟩ := hsound
    subst hnode
    rw [find?_key h.nodup he]
    exact Option.ne_none_iff_exists'.mp hne
  obtain ⟨id, hid⟩ := hfind
  simp only [step, hid]
  refine h.setCall t (.deregister node id) h.intact (fun _ _ => ?_) (fun _ _ => ⟨nofun, nofun⟩)
    (fun _ => hcalls) False.elim
  rw [hcall]
  exact nofun

/-! ## Handling a notification -/

theorem notify_inv (h : Inv s) {t id node : Nat} (henabled : Enabled s (.notify t id node)) :
    Inv (step s (.notify t id node)) := by
  obtain ⟨hidle, hvalid⟩ := henabled
  have hgiven := h.valid _ hvalid
  have hrole : RoleOk s t (.notified id node s.connection) :=
    ⟨h.givenBound _ hgiven, Nat.le_refl _, fun _ => hgiven⟩
  simp only [step, State.setRole, hidle]
  refine h.turn t ⟨.notified id node s.connection, .out⟩ h.intact (.out hrole)
    (fun _ _ ha => absurd ha not_awaits_out) (fun _ _ hr => ?_) ((h.lock t).trans ?_) fun _ _ => Iff.rfl
  · rw [hidle] at hr
    cases hr
  · rw [hidle]
    constructor
    · rintro (⟨_, _, hc⟩ | hr)
      · cases hc
      · cases hr
    · rintro (⟨_, _, hc⟩ | hr)
      · cases hc
      · cases hr

theorem Inv.regId_iff (h : Inv s) (hrenewal : s.renewal = none) {id node : Nat}
    (hgiven : (id, node) ∈ s.given) : ∀ e ∈ s.list, e.regId = some id ↔ e.node = node := by
  intro e he
  obtain ⟨id', hid', hgiven'⟩ := h.current e he (by rw [h.settled hrenewal]; exact not_mem_nil)
  rw [hid', Option.some.injEq]
  constructor
  · rintro rfl
    exact congrArg Prod.snd (inj_on_of_nodup_map h.givenIds hgiven' hgiven rfl)
  · rintro rfl
    exact congrArg Prod.fst (inj_on_of_nodup_map h.givenNodes hgiven' hgiven rfl)

theorem scan_inv (h : Inv s) {t id node connection : Nat}
    (henabled : Enabled s (.scan t id node connection)) (hsound : Sound s (.scan t id node connection)) :
    Inv (step s (.scan t id node connection)) := by
  obtain ⟨hrole, hlock⟩ := henabled
  obtain ⟨hawaits, hstale⟩ := hsound
  have hth := h.thread t
  have hcall := hth.call_eq (by rw [hrole]; nofun) (by rw [hrole]; nofun)
  have hnote := hth.role
  rw [hrole] at hnote
  obtain ⟨hlt, -, hgiven⟩ := hnote
  have hiff : ∀ e ∈ s.list, e.regId = some id ↔ e.node = node := by
    by_cases hc : connection ≠ s.connection ∨ s.renewal ≠ none
    · exact hstale hc
    · rw [not_or, not_not, not_not] at hc
      exact h.regId_iff hc.2 (hgiven hc.1)
  have hfilter : s.list.filter (fun e => e.regId = some id) = s.list.filter fun e => e.node = node :=
    filter_congr fun e he => by simp [hiff e he]
  have hlisted : ∀ k ∈ (s.list.filter fun e => e.regId = some id).map Entry.node, k ∈ s.nodes := by
    intro k hk
    obtain ⟨e, he, rfl⟩ := mem_map.mp hk
    exact mem_map_of_mem (mem_filter.mp he).1
  have honce : s.Once node ((s.list.filter fun e => e.regId = some id).map Entry.node) := by
    rw [hfilter]
    by_cases hnode : node ∈ s.nodes
    · obtain ⟨e, he, rfl⟩ := mem_map.mp hnode
      rw [filter_key h.nodup he]
      exact .inl rfl
    · refine .inr ⟨?_, hnode, hawaits⟩
      rw [map_eq_nil_iff, filter_eq_nil_iff]
      intro e he heq
      exact hnode (of_decide_eq_true heq ▸ mem_map_of_mem he)
  have hset : (s.list.all fun e => e.regId.isSome) = true := by
    rw [all_eq_true]
    intro e he
    by_contra hnone
    obtain ⟨t', todo, hasking⟩ := h.dangling e he (by simpa using hnone)
    have hholds : (s.thread t').Holds := .inr (by rw [hasking]; trivial)
    rw [← h.lock t', hlock] at hholds
    cases hholds
  simp only [step, State.setRole, State.require, hcall]
  refine h.turn t ⟨.scanning node [] _, .out⟩ (require_eq h hset) (.out ⟨hlt, hlisted, honce⟩)
    (fun _ _ ha => absurd ha not_awaits_out) (fun _ _ hr => ?_) ⟨fun _ => .inr trivial, fun _ => rfl⟩
    (lock_taken hlock)
  cases hrole.symm.trans hr

/-- A thread that has the lock and is not in a call goes on with it. -/
theorem Inv.setRole (h : Inv s) (t : Nat) {role : Role} (hcall : (s.thread t).call = .out)
    (hholds : (s.thread t).Holds) (hasking : ∀ k todo, (s.thread t).role ≠ .asking k todo)
    (hrole : RoleOk s t role) (hnext : Thread.Holds ⟨role, .out⟩) : Inv (s.setRole t role) := by
  simp only [State.setRole, hcall]
  exact h.turn t ⟨role, .out⟩ h.intact (.out hrole) (fun _ _ ha => absurd ha not_awaits_out)
    (fun k todo hr => absurd hr (hasking k todo)) ((h.lock t).trans ⟨fun _ => hnext, fun _ => hholds⟩)
    fun _ _ => Iff.rfl

variable {called todo : List Nat}

/-- What a handler has to do under the lock. -/
theorem Inv.scanning (h : Inv s)
    (hrole : (s.thread t).role = .scanning node called todo) :
    (s.thread t).call = .out ∧ (s.thread t).Holds ∧ node < s.next ∧ (∀ k ∈ todo, k ∈ s.nodes) ∧
      s.Once node (called ++ todo) := by
  have hth := h.thread t
  have hscan := hth.role
  rw [hrole] at hscan
  exact ⟨hth.call_eq (by rw [hrole]; nofun) (by rw [hrole]; nofun), .inr (by rw [hrole]; trivial),
    hscan⟩

theorem callback_inv (h : Inv s) {t node k : Nat}
    (henabled : Enabled s (.callback t node called k todo)) :
    Inv (step s (.callback t node called k todo)) := by
  obtain ⟨hcall, hholds, hlt, htodo, honce⟩ := h.scanning henabled
  refine h.setRole t hcall hholds (fun _ _ hr => ?_) ⟨hlt, fun k hk => ?_, ?_⟩ (.inr trivial)
  · cases hr.symm.trans henabled
  · exact htodo k (mem_cons_of_mem _ hk)
  · rwa [append_assoc]

theorem returned_inv (h : Inv s)
    (henabled : Enabled s (.returned t node called todo)) :
    Inv (step s (.returned t node called todo)) := by
  have hthread : s.thread t = ⟨.calling node called todo, .out⟩ := henabled
  have hrole := (h.thread t).role
  rw [hthread] at hrole
  refine h.setRole t (by rw [hthread]) (by rw [hthread]; exact .inr trivial) (fun _ _ hr => ?_) hrole
    (.inr trivial)
  rw [hthread] at hr
  cases hr

theorem scanned_inv (h : Inv s) {called : List Nat}
    (henabled : Enabled s (.scanned t node called)) : Inv (step s (.scanned t node called)) := by
  obtain ⟨hcall, hholds, hlt, -, honce⟩ := h.scanning henabled
  rw [append_nil] at honce
  simp only [step, State.setRole, hcall]
  refine h.turn t ⟨.done node called, .out⟩ h.intact (.out ⟨hlt, honce⟩)
    (fun _ _ ha => absurd ha not_awaits_out) (fun _ _ hr => ?_) ⟨nofun, fun hd => ?_⟩
    (lock_given ((h.lock t).mpr hholds))
  · cases hr.symm.trans henabled
  · rcases hd with ⟨_, _, hc⟩ | hr
    · cases hc
    · cases hr

/-! ## Registrations -/

theorem nodup_cons_of_ne {α β : Type} {f : α → β} {l : List α} {a : α} (h : (l.map f).Nodup)
    (hne : ∀ x ∈ l, f x ≠ f a) : ((a :: l).map f).Nodup := by
  rw [map_cons, nodup_cons]
  refine ⟨fun hmem => ?_, h⟩
  obtain ⟨x, hx, heq⟩ := mem_map.mp hmem
  exact hne x hx heq

theorem Inv.give (h : Inv s) {id : Nat} (hunused : ∀ x ∈ s.given, x.1 ≠ id)
    {node next : Nat} (hnext : s.next ≤ next) (hlt : node < next) (hnode : ∀ x ∈ s.given, x.2 ≠ node)
    (hstale : node ∉ s.stale) : Inv { s with
      next := next
      valid := (id, node) :: s.valid
      given := (id, node) :: s.given } := by
  refine { h with
    bound := fun k hk => Nat.lt_of_lt_of_le (h.bound k hk) hnext
    givenIds := nodup_cons_of_ne h.givenIds hunused
    givenNodes := nodup_cons_of_ne h.givenNodes hnode
    givenBound := ?_
    valid := ?_
    withdrawn := ?_
    current := fun e he hs => ?_
    stale := ?_
    thread := fun t => ?_ }
  · exact forall_mem_cons.mpr ⟨hlt, fun x hx => Nat.lt_of_lt_of_le (h.givenBound x hx) hnext⟩
  · exact forall_mem_cons.mpr
      ⟨mem_cons_self, fun x hx => mem_cons_of_mem _ (h.valid x hx)⟩
  · refine forall_mem_cons.mpr ⟨.inl mem_cons_self, fun x hx => ?_⟩
    exact (h.withdrawn x hx).imp_left (mem_cons_of_mem _)
  · obtain ⟨id', hid, hmem⟩ := h.current e he hs
    exact ⟨id', hid, mem_cons_of_mem _ hmem⟩
  · exact forall_mem_cons.mpr ⟨hstale, h.stale⟩
  · exact (h.thread t).same hnext (fun x hx => mem_cons_of_mem _ hx) rfl rfl rfl rfl
      fun _ _ _ _ ha => ha

theorem Inv.next_fresh (h : Inv s) :
    s.next ∉ s.nodes ∧ (∀ x ∈ s.given, x.2 ≠ s.next) := by
  refine ⟨fun hmem => Nat.lt_irrefl _ (h.bound _ hmem), fun x hx heq => ?_⟩
  have hlt := h.givenBound x hx
  omega

theorem register_inv (h : Inv s) {t : Nat} {answer : Answer}
    (henabled : Enabled s (.register t answer)) (hsound : Sound s (.register t answer)) :
    Inv (step s (.register t answer)) := by
  obtain ⟨hfree, hunused⟩ := henabled
  obtain ⟨hnodes, hgiven⟩ := h.next_fresh
  have hstale : s.next ∉ s.stale := fun hmem => hnodes (h.listed.subset hmem)
  have hgive : ∀ id, (∀ x ∈ s.given, x.1 ≠ id) →
      Inv (State.give { s with next := s.next + 1 } id s.next) :=
    fun id hid => h.give hid (Nat.le_succ _) (Nat.lt_succ_self _) hgiven hstale
  cases answer with
  | refused => exact h
  | unheard id => exact hgive id hunused
  | granted id =>
    have hrole : (s.thread t).role = .user := hsound
    have h' := hgive id hunused
    have hlink : ∀ node id', Thread.Awaits { s.thread t with call := .link s.next id } node id' →
        node = s.next ∧ id' = id := by
      rintro node id' (hc | hc) <;> cases hc
      exact ⟨rfl, rfl⟩
    have hold : ∀ t' node id', node < s.next →
        (update s.thread t { s.thread t with call := .link s.next id } t').Awaits node id' →
          (s.thread t').Awaits node id' := by
      intro t' node id' hlt
      refine awaits_update fun ha => ?_
      exact absurd (hlink node id' ha).1 (Nat.ne_of_lt hlt)
    refine { h' with
      dangling := fun e he hnone => ?_
      lock := holds_update h.lock ((h.lock t).trans ?_) fun _ _ => Iff.rfl
      thread := fun t' => ?_
      awaits := fun t₁ t₂ node id₁ id₂ h₁ h₂ => ?_ }
    · obtain ⟨t', todo, hasking⟩ := h.dangling e he hnone
      refine ⟨t', todo, ?_⟩
      by_cases ht : t' = t
      · subst ht
        cases hrole.symm.trans hasking
      · exact (congrArg Thread.role (update_of_ne ht _ _)).trans hasking
    · constructor
      · rintro (⟨_, _, hc⟩ | hr)
        · cases hfree.1.symm.trans hc
        · exact .inr hr
      · rintro (⟨_, _, hc⟩ | hr)
        · cases hc
        · exact .inr hr
    · by_cases ht : t' = t
      · subst ht
        have hthread : (step s (.register t' (.granted id))).thread t' =
            { s.thread t' with call := .link s.next id } := update_self _ _ _
        refine hthread ▸ ⟨?_, fun _ => .inl hrole, fun _ => hrole, fun node id' ha => ?_, nofun⟩
        · dsimp only
          rw [hrole]
          trivial
        · obtain ⟨rfl, rfl⟩ := hlink node id' ha
          exact ⟨mem_cons_self, hnodes, Nat.lt_succ_self _⟩
      · have hthread : (step s (.register t (.granted id))).thread t' = s.thread t' :=
          update_of_ne ht _ _
        exact hthread ▸ (h.thread t').same (Nat.le_succ _) (fun x hx => mem_cons_of_mem _ hx) rfl rfl
          rfl rfl hold
    · by_cases hlt : node < s.next
      · exact h.awaits t₁ t₂ node id₁ id₂ (hold _ _ _ hlt h₁) (hold _ _ _ hlt h₂)
      · have hnext : ∀ t' id',
            (update s.thread t { s.thread t with call := .link s.next id } t').Awaits node id' →
              t' = t := by
          intro t' id' ha
          by_contra ht
          rw [update_of_ne ht] at ha
          exact hlt ((h.thread t').awaits node id' ha).2.2
        exact (hnext t₁ id₁ h₁).trans (hnext t₂ id₂ h₂).symm

theorem inserted_inv (h : Inv s) {t node id : Nat}
    (henabled : Enabled s (.inserted t node id)) (hsound : Sound s (.inserted t node id)) :
    Inv (step s (.inserted t node id)) := by
  have hcall : (s.thread t).call = .fill node id := henabled
  have hsound : s.walkers = [] := hsound
  have hth := h.thread t
  have hself : (s.thread t).Awaits node id := .inr hcall
  have hrole : (s.thread t).role = .user := hth.locks (by rw [hcall]; trivial)
  have hrenewal := hth.fills node id hcall
  have hstale := h.settled hrenewal
  have hlock : s.lock = some t := (h.lock t).mpr (.inl ⟨node, id, hcall⟩)
  obtain ⟨hgiven, hnode, hlt⟩ := hth.awaits node id hself
  have hout : ∀ k id', ¬ Thread.Awaits { s.thread t with call := .out } k id' := by
    rintro k id' (hc | hc) <;> cases hc
  have hold : ∀ t' k id',
      (update s.thread t { s.thread t with call := .out } t').Awaits k id' →
        (s.thread t').Awaits k id' := fun t' k id' => awaits_update fun ha => absurd ha (hout k id')
  have hnodes : (step s (.inserted t node id)).nodes = s.nodes ++ [node] := map_append
  refine { h with
    intact := require_eq h (by simp [hsound])
    nodup := ?_
    bound := fun k hk => ?_
    current := fun e he hs => ?_
    listed := hstale ▸ nil_sublist _
    dangling := fun e he hnone => ?_
    lock := holds_update h.lock ⟨nofun, fun hd => absurd hd (not_holds_user hrole)⟩ (lock_given hlock)
    thread := fun t' => ?_
    awaits := h.awaits_of hold }
  · rw [hnodes, nodup_append]
    refine ⟨h.nodup, by simp, fun x hx y hy heq => hnode ?_⟩
    rwa [← mem_singleton.mp hy, ← heq]
  · rw [hnodes, mem_append, mem_singleton] at hk
    rcases hk with hk | rfl
    · exact h.bound k hk
    · exact hlt
  · rcases mem_append.mp he with he | he
    · exact h.current e he hs
    · rw [mem_singleton.mp he]
      exact ⟨id, rfl, hgiven⟩
  · rcases mem_append.mp he with he | he
    · obtain ⟨t', todo, hasking⟩ := h.dangling e he hnone
      have hrenews := (h.thread t').role.renewal (by rw [hasking]; trivial)
      cases hrenewal.symm.trans hrenews
    · rw [mem_singleton.mp he] at hnone
      cases hnone
  · by_cases ht : t' = t
    · subst ht
      have hthread : (step s (.inserted t' node id)).thread t' = { s.thread t' with call := .out } :=
        update_self _ _ _
      refine hthread ▸ ⟨?_, fun hne => absurd rfl hne, False.elim,
        fun k id' ha => absurd ha (hout k id'), nofun⟩
      dsimp only
      rw [hrole]
      trivial
    · have hthread : (step s (.inserted t node id)).thread t' = s.thread t' := update_of_ne ht _ _
      have hok := h.thread t'
      refine hthread ▸ hok.frame (Nat.le_refl _) (fun k _ hg => hg.mono ?_ fun _ _ => hold _ _ _)
        (fun _ _ _ => hok.notes fun _ hx => hx) (fun _ k hk => ?_) (fun hr => ?_) (fun k id' ha => ?_)
        hok.fills
      · rw [hnodes, mem_append, mem_singleton]
        rintro (hk | rfl)
        · exact hg.unlisted hk
        · exact hg.unawaited t id hself
      · rw [hnodes]
        exact mem_append_left _ hk
      · cases hrenewal.symm.trans (hok.role.renewal hr)
      · obtain ⟨hgiven', hk, -⟩ := hok.awaits k id' ha
        refine ⟨hgiven', ?_⟩
        rw [hnodes, mem_append, mem_singleton]
        rintro (hk' | rfl)
        · exact hk hk'
        · exact ht (h.awaits t' t k id' id ha hself)

/-! ## Unregistrations -/

theorem Inv.withdraw (h : Inv s) {id node : Nat}
    (hid : ∀ x ∈ s.valid, x.1 = id → x.2 = node) :
    Inv (s.withdraw id node) := by
  refine { h with
    valid := fun x hx => h.valid x (mem_filter.mp hx).1
    withdrawn := fun x hx => ?_
    thread := fun t =>
      (h.thread t).same (Nat.le_refl _) (fun _ hx => hx) rfl rfl rfl rfl fun _ _ _ _ ha => ha }
  rcases h.withdrawn x hx with hv | hw
  · by_cases hx' : x.1 = id
    · exact .inr (hid x hv hx' ▸ mem_cons_self)
    · exact .inl (mem_filter.mpr ⟨hv, by simpa using hx'⟩)
  · exact .inr (mem_cons_of_mem _ hw)

theorem deregister_inv (h : Inv s) {t node id : Nat} {consent : Consent}
    (henabled : Enabled s (.deregister t node id consent))
    (hsound : Sound s (.deregister t node id consent)) :
    Inv (step s (.deregister t node id consent)) := by
  obtain ⟨hcall, -⟩ := henabled
  obtain ⟨hrole, hid⟩ := hsound
  have hfill : ∀ k id', (s.thread t).call ≠ .fill k id' := by
    rw [hcall]
    exact nofun
  cases consent with
  | refused =>
    exact h.setCall t .out h.intact hfill (fun _ _ => ⟨nofun, nofun⟩) (fun hne => absurd rfl hne)
      False.elim
  | unheard =>
    exact (h.withdraw (hid nofun)).setCall t .out h.intact hfill (fun _ _ => ⟨nofun, nofun⟩)
      (fun hne => absurd rfl hne) False.elim
  | accepted =>
    exact (h.withdraw (hid nofun)).setCall t (.unlink node) h.intact hfill (fun _ _ => ⟨nofun, nofun⟩)
      (fun _ => .inl (hrole rfl)) fun _ => hrole rfl

theorem map_eraseP_node (l : List Entry) (node : Nat) :
    (l.eraseP fun e => e.node = node).map Entry.node = (l.map Entry.node).erase node := by
  induction l with
  | nil => rfl
  | cons e l ih =>
    by_cases he : e.node = node
    · rw [eraseP_cons_of_pos (by simpa using he), map_cons, he, erase_cons_head]
    · rw [eraseP_cons_of_neg (by simpa using he), map_cons, map_cons, ih,
        erase_cons_tail (by simpa using he)]

theorem unlink_inv (h : Inv s) (henabled : Enabled s (.unlink t node))
    (hsound : Sound s (.unlink t node)) : Inv (step s (.unlink t node)) := by
  obtain ⟨hcall, hlock⟩ := henabled
  have hth := h.thread t
  have hrole : (s.thread t).role = .user := hth.locks (by rw [hcall]; trivial)
  have hfree : ∀ t', ¬ (s.thread t').Holds := fun t' hd => by
    rw [← h.lock t', hlock] at hd
    cases hd
  have hout : ∀ k id, ¬ Thread.Awaits { s.thread t with call := .out } k id := by
    rintro k id (hc | hc) <;> cases hc
  have hold : ∀ t' k id,
      (update s.thread t { s.thread t with call := .out } t').Awaits k id →
        (s.thread t').Awaits k id := fun t' k id => awaits_update fun ha => absurd ha (hout k id)
  have hnodes : (step s (.unlink t node)).nodes = s.nodes.erase node := map_eraseP_node s.list node
  have hmem : ∀ e, e ∈ (s.list.eraseP fun e => e.node = node) ↔ e ∈ s.list ∧ e.node ≠ node :=
    fun e => mem_eraseP_key h.nodup
  have hasking : ∀ e ∈ s.list, e.regId ≠ none := by
    intro e he hnone
    obtain ⟨t', todo, hasking⟩ := h.dangling e he hnone
    exact hfree t' (.inr (by rw [hasking]; trivial))
  refine { h with
    intact := require_eq h (by simp [hsound.1, hsound.2])
    nodup := hnodes ▸ h.nodup.erase node
    bound := fun k hk => h.bound k (mem_of_mem_erase (hnodes ▸ hk))
    current := fun e he hs => ?_
    stale := fun x hx hs => h.stale x hx (mem_of_mem_erase hs)
    listed := hnodes ▸ h.listed.erase node
    dangling := fun e he hnone => absurd hnone (hasking e ((hmem e).mp he).1)
    settled := fun hrenewal => ?_
    lock := holds_update h.lock ((h.lock t).trans ⟨fun hd => absurd hd (hfree t), fun hd =>
      absurd hd (not_holds_user hrole)⟩) fun _ _ => Iff.rfl
    thread := fun t' => ?_
    awaits := h.awaits_of hold }
  · obtain ⟨he, hne⟩ := (hmem e).mp he
    exact h.current e he fun hstale => hs ((mem_erase_of_ne hne).mpr hstale)
  · change s.stale.erase node = []
    rw [h.settled hrenewal]
    rfl
  · by_cases ht : t' = t
    · subst ht
      have hthread : (step s (.unlink t' node)).thread t' = { s.thread t' with call := .out } :=
        update_self _ _ _
      refine hthread ▸ .out ?_
      rw [hrole]
      trivial
    · have hthread : (step s (.unlink t node)).thread t' = s.thread t' := update_of_ne ht _ _
      have hok := h.thread t'
      refine hthread ▸ hok.frame (Nat.le_refl _) (fun k _ hg => hg.mono ?_ fun _ _ => hold _ _ _)
        (fun _ _ _ => hok.notes fun _ hx => hx) (fun hr => ?_) (fun hr => ?_) (fun k id ha => ?_)
        hok.fills
      · rw [hnodes]
        exact fun hk => hg.unlisted (mem_of_mem_erase hk)
      · exact absurd (holds_of_scans hr) (hfree t')
      · have hre := reconnected_of_renews hr (hfree t')
        have hok' := hok.role
        rw [hre] at hok' ⊢
        exact ⟨hok'.1, (congrArg (List.erase · node) hok'.2).trans hnodes.symm⟩
      · obtain ⟨hgiven, hk, -⟩ := hok.awaits k id ha
        rw [hnodes]
        exact ⟨hgiven, fun hk' => hk (mem_of_mem_erase hk')⟩

/-! ## Reconnections -/

theorem reconnect_inv (h : Inv s) {t : Nat} (henabled : Enabled s (.reconnect t))
    (hsound : Sound s (.reconnect t)) : Inv (step s (.reconnect t)) := by
  have hidle : s.thread t = .idle := henabled
  obtain ⟨hrenewal, hawaits⟩ := hsound
  have hold : ∀ t' k id, ¬ (update s.thread t ⟨.reconnected, .out⟩ t').Awaits k id :=
    fun t' k id ha => hawaits t' k id (awaits_update (fun ha => absurd ha not_awaits_out) ha)
  simp only [step, State.setRole, hidle]
  refine { h with
    givenIds := nodup_nil
    givenNodes := nodup_nil
    givenBound := nofun
    valid := nofun
    withdrawn := nofun
    current := fun e he hs => absurd (mem_map_of_mem he) hs
    stale := nofun
    listed := List.Sublist.refl _
    dangling := fun e he hnone => ?_
    settled := nofun
    lock := holds_update h.lock ((h.lock t).trans ?_) fun _ _ => Iff.rfl
    thread := fun t' => ?_
    awaits := fun t₁ t₂ k id₁ id₂ h₁ _ => absurd h₁ (hold t₁ k id₁) }
  · obtain ⟨t', todo, hasking⟩ := h.dangling e he hnone
    cases hrenewal.symm.trans ((h.thread t').role.renewal (by rw [hasking]; trivial))
  · rw [hidle]
    constructor
    · exact fun hd => absurd hd (not_holds_user rfl)
    · rintro (⟨_, _, hc⟩ | hr)
      · cases hc
      · cases hr
  · dsimp only
    by_cases ht : t' = t
    · subst ht
      rw [update_self]
      exact .out ⟨rfl, rfl⟩
    rw [update_of_ne ht]
    have hok := h.thread t'
    refine hok.frame (Nat.le_refl _) (fun k _ hg => ⟨hg.unlisted, fun t' id => hold t' k id⟩)
      (fun id node connection hr => ?_) (fun _ _ hk => hk) (fun hr => ?_) (fun k id ha => ?_)
      fun k id hc => ?_
    · have hnote := hok.role
      rw [hr] at hnote
      refine ⟨Nat.le_succ_of_le hnote.2.1, fun heq => ?_⟩
      have hle := hnote.2.1
      dsimp only at heq
      omega
    · cases hrenewal.symm.trans (hok.role.renewal hr)
    · exact absurd ha (hawaits t' k id)
    · exact absurd (.inr hc) (hawaits t' k id)

theorem renew_inv (h : Inv s) {t : Nat} (henabled : Enabled s (.renew t)) :
    Inv (step s (.renew t)) := by
  obtain ⟨hrole, hlock⟩ := henabled
  have hth := h.thread t
  have hcall := hth.call_eq (by rw [hrole]; nofun) (by rw [hrole]; nofun)
  have hok := hth.role
  rw [hrole] at hok
  simp only [step, State.setRole, hcall]
  refine h.turn t ⟨.renewing s.nodes, .out⟩ h.intact (.out hok) (fun _ _ ha => absurd ha not_awaits_out)
    (fun _ _ hr => ?_) ⟨fun _ => .inr trivial, fun _ => rfl⟩ (lock_taken hlock)
  cases hrole.symm.trans hr

theorem assign_nodes (s : State) (node : Nat) (regId : Option Nat) :
    (s.assign node regId).nodes = s.nodes := by
  rw [State.nodes, State.assign, map_map]
  refine map_congr_left fun e _ => ?_
  rw [Function.comp_apply]
  split_ifs <;> rfl

theorem mem_assign {node : Nat} {regId : Option Nat} {e : Entry}
    (he : e ∈ (s.assign node regId).list) :
    e.node = node ∧ e.regId = regId ∨ e.node ≠ node ∧ e ∈ s.list := by
  obtain ⟨e', he', rfl⟩ := mem_map.mp he
  by_cases hnode : e'.node = node
  · rw [if_pos hnode]
    exact .inl ⟨hnode, rfl⟩
  · rw [if_neg hnode]
    exact .inr ⟨hnode, he'⟩

theorem free_inv (h : Inv s) {todo : List Nat}
    (henabled : Enabled s (.free t node todo)) : Inv (step s (.free t node todo)) := by
  have hrole : (s.thread t).role = .renewing (node :: todo) := henabled
  have hth := h.thread t
  have hcall := hth.call_eq (by rw [hrole]; nofun) (by rw [hrole]; nofun)
  have hok := hth.role
  rw [hrole] at hok
  obtain ⟨hrenewal, hstale⟩ := hok
  have hholds : (s.thread t).Holds := .inr (by rw [hrole]; trivial)
  have hlock := (h.lock t).mpr hholds
  have hold : ∀ t' k id, (update s.thread t ⟨.asking node todo, .out⟩ t').Awaits k id →
      (s.thread t').Awaits k id :=
    fun t' k id => awaits_update fun ha => absurd ha not_awaits_out
  have hnodes := assign_nodes s node none
  have hstep : step s (.free t node todo) =
      { s.assign node none with thread := update s.thread t ⟨.asking node todo, .out⟩ } := by
    rw [← hcall]
    rfl
  rw [hstep]
  refine { h with
    nodup := ?_
    bound := ?_
    current := fun e he hs => ?_
    listed := ?_
    dangling := fun e he hnone => ?_
    lock :=
      holds_update h.lock ((h.lock t).trans ⟨fun _ => .inr trivial, fun _ => hholds⟩) fun _ _ => Iff.rfl
    thread := fun t' => ?_
    awaits := h.awaits_of hold }
  · exact hnodes ▸ h.nodup
  · exact hnodes ▸ h.bound
  · rcases mem_assign he with ⟨hnode, -⟩ | ⟨-, he⟩
    · refine absurd ?_ hs
      change e.node ∈ s.stale
      rw [hstale, hnode]
      exact mem_cons_self
    · exact h.current e he hs
  · exact hnodes ▸ h.listed
  · rcases mem_assign he with ⟨hnode, -⟩ | ⟨-, he⟩
    · refine ⟨t, todo, ?_⟩
      dsimp only
      rw [hnode, update_self]
    · obtain ⟨t', todo', hasking⟩ := h.dangling e he hnone
      have ht : t' = t := by
        have hlock' := (h.lock t').mpr (.inr (by rw [hasking]; trivial))
        exact Option.some.inj (hlock'.symm.trans hlock)
      subst ht
      cases hrole.symm.trans hasking
  · have hthread : ThreadOk s t' (update s.thread t ⟨.asking node todo, .out⟩ t') := by
      by_cases ht : t' = t
      · subst ht
        rw [update_self]
        exact .out ⟨hrenewal, hstale⟩
      · rw [update_of_ne ht]
        exact h.thread t'
    exact hthread.same (Nat.le_refl _) (fun _ hx => hx) rfl hnodes rfl rfl fun t' k id _ => hold t' k id

theorem renewed_inv (h : Inv s) {todo : List Nat} {answer : Answer}
    (henabled : Enabled s (.renewed t node todo answer)) (hsound : Sound s (.renewed t node todo answer)) :
    Inv (step s (.renewed t node todo answer)) := by
  obtain ⟨id, rfl⟩ := hsound
  obtain ⟨hrole, hunused⟩ := henabled
  have hunused : ∀ x ∈ s.given, x.1 ≠ id := hunused
  have hth := h.thread t
  have hcall := hth.call_eq (by rw [hrole]; nofun) (by rw [hrole]; nofun)
  have hok := hth.role
  rw [hrole] at hok
  obtain ⟨hrenewal, hstale⟩ := hok
  have hholds : (s.thread t).Holds := .inr (by rw [hrole]; trivial)
  have hlock := (h.lock t).mpr hholds
  have hsub := h.listed
  rw [hstale] at hsub
  have herase : s.stale.erase node = todo := by
    rw [hstale, erase_cons_head]
  have hnodup : node ∉ todo := (nodup_cons.mp (h.nodup.sublist hsub)).1
  have hnode : ∀ x ∈ s.given, x.2 ≠ node := fun x hx heq =>
    h.stale x hx (by rw [hstale, heq]; exact mem_cons_self)
  have hold : ∀ t' k id, (update s.thread t ⟨.renewing todo, .out⟩ t').Awaits k id →
      (s.thread t').Awaits k id :=
    fun t' k id => awaits_update fun ha => absurd ha not_awaits_out
  have hnodes := assign_nodes s node (some id)
  have hstep : step s (.renewed t node todo (.granted id)) =
      { s.assign node (some id) with
        valid := (id, node) :: s.valid
        given := (id, node) :: s.given
        thread := update s.thread t ⟨.renewing todo, .out⟩
        stale := todo } := by
    rw [← hcall, ← herase]
    rfl
  rw [hstep]
  refine { h with
    nodup := hnodes ▸ h.nodup
    bound := hnodes ▸ h.bound
    givenIds := nodup_cons_of_ne h.givenIds hunused
    givenNodes := nodup_cons_of_ne h.givenNodes hnode
    givenBound := forall_mem_cons.mpr ⟨h.bound node (hsub.subset mem_cons_self), h.givenBound⟩
    valid := forall_mem_cons.mpr
      ⟨mem_cons_self, fun x hx => mem_cons_of_mem _ (h.valid x hx)⟩
    withdrawn := forall_mem_cons.mpr
      ⟨.inl mem_cons_self, fun x hx => (h.withdrawn x hx).imp_left (mem_cons_of_mem _)⟩
    current := fun e he hs => ?_
    stale := forall_mem_cons.mpr
      ⟨hnodup, fun x hx hs => h.stale x hx (by rw [hstale]; exact mem_cons_of_mem _ hs)⟩
    listed := hnodes ▸ (sublist_cons_self _ _).trans hsub
    dangling := fun e he hnone => ?_
    settled := fun hnone => absurd (hrenewal.symm.trans hnone) nofun
    lock :=
      holds_update h.lock ((h.lock t).trans ⟨fun _ => .inr trivial, fun _ => hholds⟩) fun _ _ => Iff.rfl
    thread := fun t' => ?_
    awaits := h.awaits_of hold }
  · rcases mem_assign he with ⟨hnode, hid⟩ | ⟨hne, he⟩
    · exact ⟨id, hid, hnode ▸ mem_cons_self⟩
    · have hstale' : e.node ∉ s.stale := by
        rw [hstale]
        exact fun hmem => (mem_cons.mp hmem).elim hne hs
      obtain ⟨id', hid', hmem⟩ := h.current e he hstale'
      exact ⟨id', hid', mem_cons_of_mem _ hmem⟩
  · rcases mem_assign he with ⟨-, hid⟩ | ⟨hne, he⟩
    · cases hid.symm.trans hnone
    · obtain ⟨t', todo', hasking⟩ := h.dangling e he hnone
      have ht : t' = t := by
        have hlock' := (h.lock t').mpr (.inr (by rw [hasking]; trivial))
        exact Option.some.inj (hlock'.symm.trans hlock)
      subst ht
      cases hrole.symm.trans hasking
      exact absurd rfl hne
  · dsimp only
    by_cases ht : t' = t
    · subst ht
      rw [update_self]
      exact .out ⟨hrenewal, rfl⟩
    rw [update_of_ne ht]
    have hok := h.thread t'
    have hmono : ∀ x ∈ s.given, x ∈ (id, node) :: s.given := fun x hx => mem_cons_of_mem _ hx
    refine hok.frame (Nat.le_refl _) (fun k _ hg => hg.mono ?_ fun _ _ => hold _ _ _)
      (fun _ _ _ => hok.notes hmono) (fun _ k hk => hnodes ▸ hk) (fun hr => ?_) (fun k id' ha => ?_)
      hok.fills
    · exact hnodes ▸ hg.unlisted
    · exact absurd (Option.some.inj ((hok.role.renewal hr).symm.trans hrenewal)) ht
    · obtain ⟨hgiven, hk, -⟩ := hok.awaits k id' ha
      exact ⟨hmono _ hgiven, hnodes ▸ hk⟩

theorem renewDone_inv (h : Inv s) {t : Nat} (henabled : Enabled s (.renewDone t)) :
    Inv (step s (.renewDone t)) := by
  have hrole : (s.thread t).role = .renewing [] := henabled
  have hth := h.thread t
  have hcall := hth.call_eq (by rw [hrole]; nofun) (by rw [hrole]; nofun)
  have hok := hth.role
  rw [hrole] at hok
  obtain ⟨hrenewal, hstale⟩ := hok
  have hlock : s.lock = some t := (h.lock t).mpr (.inr (by rw [hrole]; trivial))
  have hold : ∀ t' k id, (update s.thread t ⟨.ended, .out⟩ t').Awaits k id →
      (s.thread t').Awaits k id :=
    fun t' k id => awaits_update fun ha => absurd ha not_awaits_out
  simp only [step, State.setRole, hcall]
  refine { h with
    dangling := fun e he hnone => ?_
    settled := fun _ => hstale
    lock := holds_update h.lock ⟨nofun, fun hd => ?_⟩ (lock_given hlock)
    thread := fun t' => ?_
    awaits := h.awaits_of hold }
  · obtain ⟨t', todo', hasking⟩ := h.dangling e he hnone
    have hlock' := (h.lock t').mpr (.inr (by rw [hasking]; trivial))
    obtain rfl := Option.some.inj (hlock'.symm.trans hlock)
    cases hrole.symm.trans hasking
  · rcases hd with ⟨_, _, hc⟩ | hr
    · cases hc
    · cases hr
  · dsimp only
    by_cases ht : t' = t
    · subst ht
      rw [update_self]
      exact .out trivial
    rw [update_of_ne ht]
    have hok := h.thread t'
    refine hok.frame (Nat.le_refl _) (fun k _ hg => hg.mono hg.unlisted fun _ _ => hold _ _ _)
      (fun _ _ _ => hok.notes fun _ hx => hx) (fun _ _ hk => hk) (fun hr => ?_) (fun k id ha => ?_)
      fun _ _ _ => rfl
    · exact absurd (Option.some.inj ((hok.role.renewal hr).symm.trans hrenewal)) ht
    · exact ⟨(hok.awaits k id ha).1, (hok.awaits k id ha).2.1⟩

/-! ## The lock -/

def State.Releases (s : State) (t : Nat) : Prop :=
  ∃ s', Runs step (fun s e => Enabled s e ∧ e.thread = t) s s' ∧ s'.lock = none

variable {e : Event}

theorem State.Releases.step {t : Nat} (henabled : Enabled s e)
    (ht : e.thread = t) (h : (step s e).Releases t) : s.Releases t := by
  obtain ⟨s', hruns, hlock⟩ := h
  exact ⟨s', Relation.ReflTransGen.head ⟨e, ⟨henabled, ht⟩, rfl⟩ hruns, hlock⟩

theorem releases_of_lock {t : Nat} (henabled : Enabled s e) (ht : e.thread = t)
    (hlock : (Devicetree.step s e).lock = none) : s.Releases t :=
  .step henabled ht ⟨_, .refl _, hlock⟩

variable {call : Call}

theorem thread_setRole {t : Nat} {role : Role} (h : (s.thread t).call = call) :
    (s.setRole t role).thread t = ⟨role, call⟩ := by
  subst h
  exact update_self t _ s.thread

theorem thread_setCall {t : Nat} {role : Role} (h : (s.thread t).role = role) :
    (s.setCall t call).thread t = ⟨role, call⟩ := by
  subst h
  exact update_self t _ s.thread

theorem releases_scanning {todo : List Nat} {called : List Nat}
    (h : s.thread t = ⟨.scanning node called todo, .out⟩) : s.Releases t := by
  induction todo generalizing s called with
  | nil => exact releases_of_lock (e := .scanned t node called) (congrArg Thread.role h) rfl rfl
  | cons k todo ih =>
    have hcalling : (step s (.callback t node called k todo)).thread t =
        ⟨.calling node (called ++ [k]) todo, .out⟩ := thread_setRole (congrArg Thread.call h)
    have hscanning : (step (step s (.callback t node called k todo))
        (.returned t node (called ++ [k]) todo)).thread t =
          ⟨.scanning node (called ++ [k]) todo, .out⟩ :=
      thread_setRole (congrArg Thread.call hcalling)
    refine .step (e := .callback t node called k todo) (congrArg Thread.role h) rfl ?_
    exact .step (e := .returned t node (called ++ [k]) todo) hcalling rfl (ih hscanning)

theorem releases_calling
    (h : s.thread t = ⟨.calling node called todo, call⟩) (hlocks : ¬ call.Locks) : s.Releases t := by
  have hrole : (s.thread t).role = .calling node called todo := congrArg Thread.role h
  have hcall : (s.thread t).call = call := congrArg Thread.call h
  have hout : ∀ {s : State}, s.thread t = ⟨.calling node called todo, .out⟩ → s.Releases t := by
    intro s h
    have hscanning : (step s (.returned t node called todo)).thread t =
        ⟨.scanning node called todo, .out⟩ := thread_setRole (congrArg Thread.call h)
    exact .step (e := .returned t node called todo) h rfl (releases_scanning hscanning)
  have hderegister : ∀ {s : State} {k id : Nat},
      s.thread t = ⟨.calling node called todo, .deregister k id⟩ → s.Releases t := by
    intro s k id h
    refine .step (e := .deregister t k id .refused) ⟨congrArg Thread.call h, fun hne => absurd rfl hne⟩ rfl
      (hout ?_)
    exact thread_setCall (congrArg Thread.role h)
  have hread : ∀ {s : State} {k : Nat},
      s.thread t = ⟨.calling node called todo, .read k⟩ → s.Releases t := by
    intro s k h
    refine .step (e := .read t k) (congrArg Thread.call h) rfl ?_
    simp only [step]
    split
    · exact hderegister (thread_setCall (congrArg Thread.role h))
    · exact hout (thread_setCall (congrArg Thread.role h))
  cases call with
  | out => exact hout h
  | search k =>
    refine .step (e := .searched t k) hcall rfl ?_
    by_cases hk : k ∈ s.nodes
    · refine hread (k := k) ?_
      rw [step, if_pos hk]
      exact thread_setCall hrole
    · refine hout ?_
      rw [step, if_neg hk]
      exact thread_setCall hrole
  | read k => exact hread h
  | deregister k id => exact hderegister h
  | link k id => exact absurd trivial hlocks
  | fill k id => exact absurd trivial hlocks
  | unlink k => exact absurd trivial hlocks

theorem releases_renewing {t : Nat} {todo : List Nat}
    (h : (s.thread t).role = .renewing todo) : s.Releases t := by
  induction todo generalizing s with
  | nil => exact releases_of_lock (e := .renewDone t) h rfl rfl
  | cons node todo ih =>
    have hasking : ((step s (.free t node todo)).thread t).role = .asking node todo := by
      rw [step, thread_setRole rfl]
    refine .step (e := .free t node todo) h rfl ?_
    refine .step (e := .renewed t node todo .refused) ⟨hasking, trivial⟩ rfl (ih ?_)
    exact congrArg Thread.role (thread_setRole rfl)

theorem Inv.releases (h : Inv s) {t : Nat} (hlock : s.lock = some t) : s.Releases t := by
  have hth := h.thread t
  rcases (h.lock t).mp hlock with ⟨node, id, hcall⟩ | hrole
  · exact releases_of_lock (e := .inserted t node id) hcall rfl rfl
  cases hr : (s.thread t).role with
  | scanning node called todo =>
    have hthread : s.thread t = ⟨.scanning node called todo, .out⟩ := by
      rw [← hr, ← hth.call_eq (by rw [hr]; nofun) (by rw [hr]; nofun)]
    exact releases_scanning hthread
  | calling node called todo =>
    have hthread : s.thread t = ⟨.calling node called todo, (s.thread t).call⟩ := by
      rw [← hr]
    refine releases_calling hthread fun hlocks => ?_
    cases (hth.locks hlocks).symm.trans hr
  | renewing todo => exact releases_renewing hr
  | asking node todo =>
    have hrenewing : ((step s (.renewed t node todo .refused)).thread t).role = .renewing todo :=
      congrArg Thread.role (thread_setRole rfl)
    exact .step (e := .renewed t node todo .refused) ⟨hr, trivial⟩ rfl (releases_renewing hrenewing)
  | _ => simp [hr] at hrole

/-! ## Runs -/

theorem inv_init : Inv .init := by
  refine ⟨rfl, nodup_nil, nofun, nodup_nil, nodup_nil, nofun, nofun, nofun, nofun, nofun,
    List.Sublist.refl _, nofun, fun _ => rfl, fun t => ⟨nofun, fun hd => ?_⟩, fun t => .out trivial,
    fun t _ node id _ ha => absurd ha not_awaits_out⟩
  exact absurd hd (not_holds_user rfl)

theorem step_inv (h : Inv s) (henabled : Enabled s e) (hsound : Sound s e) :
    Inv (step s e) := by
  cases e with
  | register t answer => exact register_inv h henabled hsound
  | insert t node id => exact insert_inv h henabled hsound
  | inserted t node id => exact inserted_inv h henabled hsound
  | unregister t node => exact unregister_inv h henabled hsound
  | searched t node => exact searched_inv h henabled
  | read t node => exact read_inv h henabled hsound
  | deregister t node id consent => exact deregister_inv h henabled hsound
  | unlink t node => exact unlink_inv h henabled hsound
  | notify t id node => exact notify_inv h henabled
  | scan t id node connection => exact scan_inv h henabled hsound
  | callback t node called k todo => exact callback_inv h henabled
  | returned t node called todo => exact returned_inv h henabled
  | scanned t node called => exact scanned_inv h henabled
  | reconnect t => exact reconnect_inv h henabled hsound
  | renew t => exact renew_inv h henabled
  | free t node todo => exact free_inv h henabled
  | renewed t node todo answer => exact renewed_inv h henabled hsound
  | renewDone t => exact renewDone_inv h henabled

theorem Inv.correct (h : Inv s) : Correct s := by
  refine ⟨h.intact, fun t node called hrole => ?_, fun hrenewal e he => ?_, fun t => h.releases⟩
  · have hok := (h.thread t).role
    rw [hrole] at hok
    exact hok.2
  · obtain ⟨id, hid, hgiven⟩ := h.current e he (by rw [h.settled hrenewal]; exact not_mem_nil)
    exact ⟨id, hid, h.withdrawn _ hgiven⟩

/-- After a run of steps that are possible and meet the condition, every notification that was handled
has called the callback of its node once, unless the node is gone, every node has a valid id, and the
lock is given back; a callback that is called next is that of a node in the list. -/
theorem delivered_once {s : State} (h : Runs step (fun s e => Enabled s e ∧ Sound s e) .init s) :
    Correct s ∧ ∀ t node called k todo, Enabled s (.callback t node called k todo) →
      k = node ∧ k ∈ s.nodes ∧ k ∉ called := by
  have hinv := h.invariant (I := Inv) (fun _ _ he hs => step_inv hs he.1 he.2) inv_init
  refine ⟨hinv.correct, fun t node called k todo henabled => ?_⟩
  obtain ⟨-, -, -, htodo, honce⟩ := hinv.scanning henabled
  rcases honce with honce | ⟨honce, -⟩
  · cases called with
    | nil =>
      obtain ⟨rfl, -⟩ := List.cons.inj honce
      exact ⟨rfl, htodo _ mem_cons_self, not_mem_nil⟩
    | cons c called =>
      have hlength := congrArg List.length honce
      simp at hlength
  · simp at honce

def quietRun : List Event :=
  [.register 0 (.granted 7), .insert 0 0 7, .inserted 0 0 7, .notify 1 7 0, .scan 1 7 0 0,
    .callback 1 0 [] 0 [], .returned 1 0 [0] [], .scanned 1 0 [0]]

theorem delivered_once_quiet :
    Correct (quietRun.foldl step .init) ∧
      ((quietRun.foldl step .init).thread 1).role = .done 0 [0] := by
  have hrun : Runs step (fun s e => Enabled s e ∧ Sound s e) .init (quietRun.foldl step .init) := by
    apply Along.runs
    refine ⟨⟨by decide, rfl⟩, ⟨by decide, rfl, rfl⟩, ⟨by decide, rfl⟩, ⟨by decide, trivial⟩,
      ⟨by decide, fun t' id' ha => ?_, ?_⟩, ⟨by decide, trivial⟩, ⟨by decide, trivial⟩,
      ⟨by decide, trivial⟩, trivial⟩
    · rcases t' with _ | _ | t' <;> rcases ha with hc | hc <;> cases hc
    · decide
  exact ⟨(delivered_once hrun).1, by decide⟩

/-- The notification of an id that the agent has given is handled before its node is in the list: it calls
nothing. -/
theorem notification_lost :
    let events := [.register 0 (.granted 7), .notify 1 7 0, .scan 1 7 0 0, .scanned 1 0 [], .insert 0 0 7,
      .inserted 0 0 7]
    let s := events.foldl step .init
    Along step Enabled .init events ∧ (s.thread 1).role = .done 0 [] ∧ s.list = [⟨0, some 7⟩] := by
  decide

end Mihini.Devicetree
