import Mihini.Lib.Run
import Mihini.M3da.Security

/-!
# Authenticity and freshness of the secured session

Every nonce the session still relies on has one owner: the persisted state, a task,
or an envelope that was accepted with it.  The invariant says so, with the nonces a
running task holds in its hand as a parameter.
-/

namespace Mihini.M3da.Security

open Mihini.Lib List Option

/-! ## Assumptions about the environment -/

section
variable (c : Config)

def Authentic (signed : List (Bytes × Bytes)) (envelope : Envelope) : Prop :=
  ∀ nonce payload, envelope.payload = some payload →
    verifymsg c envelope nonce = some true → (nonce, payload) ∈ signed

def Allowed (w : World) : Event → Prop
  | .sign nonce payload => ∀ m, innerNonce c nonce payload = some m → m ≠ nonce ∧ m ∉ w.drawn
  | .deliver envelope => Authentic c w.signed envelope
  | .resume _ i => i.current ∉ w.drawn ∧ i.next ∉ w.drawn ∧ i.current ≠ i.next
  | _ => True

def CollisionFree : Prop :=
  ∀ payload nonce nonce' mac, c.digest (payload ++ nonce) = some mac →
    c.digest (payload ++ nonce') = some mac → nonce = nonce'

/-- An unsollicited envelope that verifies with the stored nonce is opened, and its
message handled, without an error and without a suspension. -/
def Completes (w : World) : Event → Prop
  | .resume t i => ∀ incoming nonce, w.session.tasks[t]? = some (.parse incoming) → i.ok = true →
      w.session.nonce = some nonce → verifymsg c incoming nonce = some true →
      ∃ inner, incoming.payload.bind (openPayload c nonce) = some inner ∧ inner.header ≠ none
        ∧ (inner.body ≠ none → i.handler = .returns)
  | _ => True

end

structure Initial (w : World) : Prop where
  tasks : w.session.tasks = []
  sent : w.session.sent = []
  accepted : w.session.accepted = []
  handled : w.session.handled = []
  signed : w.signed = []
  drawn : ∀ n, w.session.nonce = some n → n ∈ w.drawn

/-! ## Owners of nonces -/

def Task.expects : Task → List Bytes
  | .sending next _ => [next]
  | .receiving next _ _ => [next]
  | .challenging nonce => [nonce]
  | .rechecking nonce _ => [nonce]
  | _ => []

def Task.nonces : Task → List Bytes
  | .handling inner => (inner.header.bind id).toList
  | task => task.expects

def Task.envelopes : Task → List Envelope
  | .parse incoming => [incoming]
  | .receiving _ _ (some (.envelopeReceived incoming)) => [incoming]
  | .rechecking _ (some (.envelopeReceived incoming)) => [incoming]
  | _ => []

def Session.live (s : Session) : List Bytes :=
  s.nonce.toList ++ (s.tasks.flatMap Task.nonces ++ s.accepted.map Acceptance.nonce)

/-- What holds in every state, however the messages are handled. -/
structure Sound (c : Config) (drawn : List Bytes) (signed : List (Bytes × Bytes)) (s : Session) :
    Prop where
  drawn : ∀ e ∈ signed, e.1 ∈ drawn ∧ ∀ m, innerNonce c e.1 e.2 = some m → m ∈ drawn
  authentic : ∀ task ∈ s.tasks, ∀ envelope ∈ task.envelopes, Authentic c signed envelope
  expects : ∀ task ∈ s.tasks, ∀ n ∈ task.expects, n ∈ s.sent.map Sent.advertised
  accepted : ∀ a ∈ s.accepted, verifymsg c a.envelope a.nonce = some true
    ∧ (a.stored = some a.nonce ∨ a.nonce ∈ s.sent.map Sent.advertised)
  handled : ∀ h ∈ s.handled, verifymsg c h.envelope h.nonce = some true
    ∧ (∃ inner, h.envelope.payload.bind (openPayload c h.nonce) = some inner
      ∧ inner.body = some h.body)
    ∧ ∃ a ∈ s.accepted, a.envelope = h.envelope ∧ a.nonce = h.nonce

/-- Every nonce in use has one owner; `hand` are those of the task that runs. -/
structure Fresh (c : Config) (drawn : List Bytes) (signed : List (Bytes × Bytes)) (s : Session)
    (hand : List Bytes) : Prop where
  nodup : (hand ++ s.live).Nodup
  drawn : ∀ n ∈ hand ++ s.live, n ∈ drawn
  distinct : ∀ e ∈ signed, ∀ e' ∈ signed, ∀ m, innerNonce c e.1 e.2 = some m →
    innerNonce c e'.1 e'.2 = some m → e = e'
  unseen : ∀ e ∈ signed, (∀ a ∈ s.accepted, a.nonce = e.1 → a.envelope.payload ≠ some e.2) →
    ∀ m, innerNonce c e.1 e.2 = some m → m ∉ hand ++ s.live

section
variable {c : Config} {drawn : List Bytes} {signed : List (Bytes × Bytes)} {s s' : Session}
  {hand hand' : List Bytes} {n n' : Bytes}

theorem Fresh.mono (h : Fresh c drawn signed s hand) (hlive : (hand' ++ s'.live).Subperm (hand ++ s.live))
    (haccepted : s'.accepted = s.accepted) : Fresh c drawn signed s' hand' where
  nodup := by
    obtain ⟨l, hperm, hsub⟩ := hlive
    exact hperm.nodup_iff.mp (h.nodup.sublist hsub)
  drawn n hn := h.drawn n (hlive.subset hn)
  distinct := h.distinct
  unseen e he hnot m hm hmem := by
    rw [haccepted] at hnot
    exact h.unseen e he hnot m hm (hlive.subset hmem)

theorem Fresh.draw (hsound : Sound c drawn signed s) (h : Fresh c drawn signed s hand)
    (hn : n ∉ drawn) : Fresh c (n :: drawn) signed s (n :: hand) where
  nodup := nodup_cons.mpr ⟨fun hmem => hn (h.drawn n hmem), h.nodup⟩
  drawn m hm := by
    rcases mem_cons.mp hm with rfl | hm
    · exact mem_cons_self ..
    · exact mem_cons_of_mem _ (h.drawn m hm)
  distinct := h.distinct
  unseen e he hnot m hm hmem := by
    rcases mem_cons.mp hmem with rfl | hmem
    · exact hn ((hsound.drawn e he).2 m hm)
    · exact h.unseen e he hnot m hm hmem

variable {envelope : Envelope}

/-- An envelope is accepted with a nonce from the hand: the nonce in it takes its
place. -/
theorem Fresh.accept (h : Fresh c drawn signed s (n :: hand)) (hsound : Sound c drawn signed s)
    {payload : Bytes} (hpayload : envelope.payload = some payload)
    (hsigned : (n, payload) ∈ signed) (stored : Option Bytes) :
    Fresh c drawn signed { s with accepted := ⟨envelope, n, stored⟩ :: s.accepted }
      ((innerNonce c n payload).toList ++ hand) := by
  have hlive : (hand ++ Session.live { s with accepted := ⟨envelope, n, stored⟩ :: s.accepted }).Perm
      (n :: hand ++ s.live) := by
    simp only [Session.live, map_cons]
    refine .trans (List.Perm.append_left _ ?_) perm_middle
    exact .trans (List.Perm.append_left _ perm_middle) perm_middle
  have hnot : ∀ a ∈ s.accepted, a.nonce = n → a.envelope.payload ≠ some payload := by
    intro a ha hnonce
    have hmem : n ∈ hand ++ s.live := by
      simp only [Session.live, mem_append, List.mem_map]
      exact .inr (.inr (.inr ⟨a, ha, hnonce⟩))
    exact absurd hmem (nodup_cons.mp h.nodup).1
  have hnew (m : Bytes) (hm : innerNonce c n payload = some m) : m ∉ n :: hand ++ s.live :=
    h.unseen (n, payload) hsigned hnot m hm
  constructor
  · rw [append_assoc]
    cases hm : innerNonce c n payload with
    | none => exact hlive.nodup_iff.mpr h.nodup
    | some m =>
      refine nodup_cons.mpr ⟨fun hmem => ?_, hlive.nodup_iff.mpr h.nodup⟩
      exact hnew m hm (hlive.subset hmem)
  · intro m hm
    rw [append_assoc] at hm
    rcases mem_append.mp hm with hm | hm
    · exact (hsound.drawn _ hsigned).2 m (mem_toList.mp hm)
    · exact h.drawn m (hlive.subset hm)
  · exact h.distinct
  · intro e he hnot' m hm hmem
    have hold : ∀ a ∈ s.accepted, a.nonce = e.1 → a.envelope.payload ≠ some e.2 :=
      fun a ha => hnot' a (mem_cons_of_mem _ ha)
    rw [append_assoc] at hmem
    rcases mem_append.mp hmem with hmem | hmem
    · -- The nonce of another message of the server.
      have heq := h.distinct e he (n, payload) hsigned m hm (mem_toList.mp hmem)
      rw [heq] at hnot'
      exact hnot' _ (mem_cons_self ..) rfl hpayload
    · exact h.unseen e he hold m hm (hlive.subset hmem)

/-! ## What the code does with the nonces -/

theorem verifymsg_payload (h : verifymsg c envelope n = some true) :
    ∃ payload, envelope.payload = some payload := by
  obtain ⟨payload, hpayload, -⟩ := bind_eq_some_iff.mp h
  exact ⟨payload, hpayload⟩

/-- What an accepted envelope changes: the nonce in it is saved, or waits for the
handler, or is lost. -/
theorem dispatch_cases (s : Session) (n : Bytes) (envelope : Envelope) (handler : HandlerOutcome) :
    ∃ nonce tasks handled, dispatch c s n envelope handler
        = { s with
            nonce := nonce, tasks := tasks, handled := handled
            accepted := ⟨envelope, n, s.nonce⟩ :: s.accepted }
      ∧ (handled = s.handled ∨ ∃ inner body, envelope.payload.bind (openPayload c n) = some inner
        ∧ inner.body = some body ∧ handled = ⟨body, envelope, n⟩ :: s.handled)
      ∧ (nonce = s.nonce ∧ tasks = s.tasks
        ∨ (∃ inner, envelope.payload.bind (openPayload c n) = some inner
          ∧ inner.header = some nonce ∧ tasks = s.tasks)
        ∨ ∃ inner, envelope.payload.bind (openPayload c n) = some inner
          ∧ nonce = s.nonce ∧ tasks = .handling inner :: s.tasks) := by
  unfold dispatch
  cases hopen : envelope.payload.bind (openPayload c n) with
  | none => exact ⟨_, _, _, rfl, .inl rfl, .inl ⟨rfl, rfl⟩⟩
  | some inner =>
    have hconclude (s' : Session) : ∃ nonce, conclude inner s' = { s' with nonce := nonce }
        ∧ (nonce = s'.nonce ∨ inner.header = some nonce) := by
      unfold conclude
      cases hheader : inner.header with
      | none => exact ⟨_, rfl, .inl rfl⟩
      | some nonce => exact ⟨nonce, rfl, .inr rfl⟩
    cases hbody : inner.body with
    | none =>
      obtain ⟨nonce, heq, hnonce⟩ := hconclude
        { s with accepted := ⟨envelope, n, s.nonce⟩ :: s.accepted }
      refine ⟨nonce, s.tasks, s.handled, by simp [hbody, heq], .inl rfl, ?_⟩
      rcases hnonce with rfl | hheader
      · exact .inl ⟨rfl, rfl⟩
      · exact .inr (.inl ⟨inner, rfl, hheader, rfl⟩)
    | some body =>
      have hhandled : (⟨body, envelope, n⟩ :: s.handled : List Handled) = s.handled
          ∨ ∃ inner' body', some inner = some inner' ∧ inner'.body = some body'
            ∧ (⟨body, envelope, n⟩ :: s.handled : List Handled)
              = ⟨body', envelope, n⟩ :: s.handled := .inr ⟨inner, body, rfl, hbody, rfl⟩
      cases handler with
      | returns =>
        obtain ⟨nonce, heq, hnonce⟩ := hconclude
          { s with
            accepted := ⟨envelope, n, s.nonce⟩ :: s.accepted
            handled := ⟨body, envelope, n⟩ :: s.handled }
        refine ⟨nonce, s.tasks, _, by simp [hbody, heq], hhandled, ?_⟩
        rcases hnonce with rfl | hheader
        · exact .inl ⟨rfl, rfl⟩
        · exact .inr (.inl ⟨inner, rfl, hheader, rfl⟩)
      | fails => exact ⟨_, _, _, by simp [hbody], hhandled, .inl ⟨rfl, rfl⟩⟩
      | suspends =>
        exact ⟨_, _, _, by simp [hbody], hhandled, .inr (.inr ⟨inner, rfl, rfl, rfl⟩)⟩

/-! ## Soundness along a run -/

theorem Sound.draw (h : Sound c drawn signed s) (l : List Bytes) :
    Sound c (l ++ drawn) signed s where
  drawn e he := by
    constructor
    · exact mem_append_right _ (h.drawn e he).1
    · intro m hm
      exact mem_append_right _ ((h.drawn e he).2 m hm)
  authentic := h.authentic
  expects := h.expects
  accepted := h.accepted
  handled := h.handled

/-- Tasks may end, and may come up with nonces that were advertised. -/
theorem Sound.mono (h : Sound c drawn signed s) (hsent : s.sent ⊆ s'.sent)
    (htasks : ∀ task ∈ s'.tasks, task ∈ s.tasks
      ∨ (∀ envelope ∈ task.envelopes, Authentic c signed envelope)
        ∧ ∀ n ∈ task.expects, n ∈ s'.sent.map Sent.advertised)
    (haccepted : s'.accepted = s.accepted) (hhandled : s'.handled = s.handled) :
    Sound c drawn signed s' := by
  have hadvertised : ∀ n ∈ s.sent.map Sent.advertised, n ∈ s'.sent.map Sent.advertised :=
    map_subset _ hsent
  constructor
  · exact h.drawn
  · intro task ht
    rcases htasks task ht with hold | hnew
    · exact h.authentic task hold
    · exact hnew.1
  · intro task ht n hn
    rcases htasks task ht with hold | hnew
    · exact hadvertised n (h.expects task hold n hn)
    · exact hnew.2 n hn
  · rw [haccepted]
    intro a ha
    obtain ⟨hverified, hcurrent⟩ := h.accepted a ha
    exact ⟨hverified, hcurrent.imp_right (hadvertised a.nonce)⟩
  · rw [haccepted, hhandled]
    exact h.handled

theorem Sound.dispatch (h : Sound c drawn signed s)
    (hverified : verifymsg c envelope n = some true)
    (hcurrent : s.nonce = some n ∨ n ∈ s.sent.map Sent.advertised) (handler : HandlerOutcome) :
    Sound c drawn signed (dispatch c s n envelope handler) := by
  obtain ⟨nonce, tasks, handled, heq, hhandled, htasks⟩ := dispatch_cases (c := c) s n envelope handler
  rw [heq]
  have htasks' : ∀ task ∈ tasks, task ∈ s.tasks ∨ task.envelopes = [] ∧ task.expects = [] := by
    intro task ht
    rcases htasks with ⟨-, rfl⟩ | ⟨inner, -, -, rfl⟩ | ⟨inner, -, -, rfl⟩
    · exact .inl ht
    · exact .inl ht
    · rcases mem_cons.mp ht with rfl | ht
      · exact .inr ⟨rfl, rfl⟩
      · exact .inl ht
  constructor
  · exact h.drawn
  · intro task ht env henv
    rcases htasks' task ht with hold | ⟨hnone, -⟩
    · exact h.authentic task hold env henv
    · rw [hnone] at henv
      cases henv
  · intro task ht m hm
    rcases htasks' task ht with hold | ⟨-, hnone⟩
    · exact h.expects task hold m hm
    · rw [hnone] at hm
      cases hm
  · intro a ha
    rcases mem_cons.mp ha with rfl | ha
    · exact ⟨hverified, hcurrent⟩
    · exact h.accepted a ha
  · intro x hx
    have hold (hx : x ∈ s.handled) : verifymsg c x.envelope x.nonce = some true
        ∧ (∃ inner, x.envelope.payload.bind (openPayload c x.nonce) = some inner
          ∧ inner.body = some x.body)
        ∧ ∃ a ∈ (⟨envelope, n, s.nonce⟩ :: s.accepted : List Acceptance),
          a.envelope = x.envelope ∧ a.nonce = x.nonce := by
      obtain ⟨hv, hopened, a, ha, hsame⟩ := h.handled x hx
      exact ⟨hv, hopened, a, mem_cons_of_mem _ ha, hsame⟩
    rcases hhandled with rfl | ⟨inner, body, hopen, hbody, rfl⟩
    · exact hold hx
    · rcases mem_cons.mp hx with rfl | hx
      · exact ⟨hverified, ⟨inner, hopen, hbody⟩, _, mem_cons_self .., rfl, rfl⟩
      · exact hold hx

variable {i : Input}

theorem Sound.unprotectedparse (h : Sound c drawn signed s)
    (hcurrent : verifymsg c envelope n = some true →
      s.nonce = some n ∨ n ∈ s.sent.map Sent.advertised) :
    Sound c drawn signed (unprotectedparse c s n envelope i) := by
  unfold Security.unprotectedparse
  split
  · exact h
  · next hverified => exact h.dispatch hverified (hcurrent hverified) _
  · refine h.mono (subset_cons_self ..) (fun task ht => ?_) rfl rfl
    rcases mem_cons.mp ht with rfl | ht
    · exact .inr ⟨by simp [Task.envelopes], by simp [Task.expects, Sent.advertised]⟩
    · exact .inl ht

variable {task : Task}

theorem Sound.run (h : Sound c drawn signed s)
    (hauthentic : ∀ envelope ∈ task.envelopes, Authentic c signed envelope)
    (hexpects : ∀ n ∈ task.expects, n ∈ s.sent.map Sent.advertised) (hi : i.current ∉ drawn) :
    Sound c drawn signed (run c s i task) := by
  have hpush (task' : Task) {sent : List Sent} (hsent : s.sent ⊆ sent) (waiting : Bool)
      (hauthentic : ∀ envelope ∈ task'.envelopes, Authentic c signed envelope)
      (hexpects : ∀ n ∈ task'.expects, n ∈ sent.map Sent.advertised) :
      Sound c drawn signed
        { s with waitingresponse := waiting, sent := sent, tasks := task' :: s.tasks } := by
    refine h.mono hsent (fun task ht => ?_) rfl rfl
    rcases mem_cons.mp ht with rfl | ht
    · exact .inr ⟨hauthentic, hexpects⟩
    · exact .inl ht
  have hidle (waiting : Bool) : Sound c drawn signed { s with waitingresponse := waiting } :=
    h.mono (List.Subset.refl _) (fun task ht => .inl ht) rfl rfl
  cases task with
  | send =>
    simp only [Security.run]
    split
    · exact hpush (.sending i.next false) (subset_cons_self ..) s.waitingresponse (by simp [Task.envelopes])
        (by simp [Task.expects, Sent.advertised])
    · exact h
  | parse incoming =>
    simp only [Security.run]
    split
    · refine h.unprotectedparse fun hverified => ?_
      cases hnonce : s.nonce with
      | some n => exact .inl rfl
      | none =>
        -- A nonce that was just drawn: nothing is signed with it.
        obtain ⟨payload, hpayload⟩ := verifymsg_payload hverified
        rw [hnonce, getD_none] at hverified
        have hsigned := hauthentic incoming (mem_singleton.mpr rfl) _ payload hpayload hverified
        exact absurd (h.drawn _ hsigned).1 hi
    · exact h
  | sending next resend =>
    simp only [Security.run]
    split
    · exact hpush (.receiving next resend none) (List.Subset.refl _) true (by simp [Task.envelopes]) hexpects
    · exact h
  | challenging nonce =>
    simp only [Security.run]
    split
    · exact hpush (.rechecking nonce none) (List.Subset.refl _) true (by simp [Task.envelopes]) hexpects
    · exact h
  | handling inner =>
    simp only [Security.run]
    split
    · unfold conclude
      split
      · exact h
      · exact h.mono (List.Subset.refl _) (fun task ht => .inl ht) rfl rfl
    · exact h
    · exact hpush _ (List.Subset.refl _) s.waitingresponse hauthentic hexpects
  | receiving next resend ev =>
    rcases ev with _ | ⟨incoming⟩ | _ | _
    · exact hpush _ (List.Subset.refl _) s.waitingresponse hauthentic hexpects
    · have hnext : next ∈ s.sent.map Sent.advertised := hexpects next (mem_singleton.mpr rfl)
      simp only [Security.run]
      split
      · exact hidle false
      split
      · split
        · exact hidle false
        · split
          · exact hidle false
          · exact hpush (.sending next true) (subset_cons_self ..) false (by simp [Task.envelopes])
              (by simp [Task.expects, Sent.advertised])
      · exact (hidle false).unprotectedparse fun _ => .inr hnext
    · exact hidle false
    · exact hidle false
  | rechecking nonce ev =>
    rcases ev with _ | ⟨outerEnv⟩ | _ | _
    · exact hpush _ (List.Subset.refl _) s.waitingresponse hauthentic hexpects
    · have hnonce : nonce ∈ s.sent.map Sent.advertised := hexpects nonce (mem_singleton.mpr rfl)
      simp only [Security.run]
      split
      · next hverified => exact (hidle false).dispatch hverified (.inr hnonce) _
      · exact hidle false
    · exact hidle false
    · exact hidle false

theorem wake_envelopes (signal : Signal) (task : Task)
    (h : envelope ∈ (task.wake signal).envelopes) :
    envelope ∈ task.envelopes ∨ signal = .envelopeReceived envelope := by
  unfold Task.wake at h
  split at h
  · cases signal <;> simp_all [Task.envelopes]
  · cases signal <;> simp_all [Task.envelopes]
  · exact .inl h

theorem wake_expects (signal : Signal) (task : Task) :
    (task.wake signal).expects = task.expects := by
  unfold Task.wake
  split <;> rfl

theorem wake_nonces (signal : Signal) (task : Task) :
    (task.wake signal).nonces = task.nonces := by
  unfold Task.wake
  split <;> rfl

variable {tasks : List Task}

/-- A signal that carries nothing forged. -/
theorem Sound.wake (h : Sound c drawn signed s) (signal : Signal)
    (hsignal : ∀ envelope, signal = .envelopeReceived envelope → Authentic c signed envelope)
    (htasks : ∀ task ∈ tasks, task ∈ s.tasks ∨ ∃ task' ∈ s.tasks, task = task'.wake signal) :
    Sound c drawn signed { s with tasks := tasks } := by
  refine h.mono (List.Subset.refl _) (fun task ht => ?_) rfl rfl
  rcases htasks task ht with hold | ⟨task', hold, rfl⟩
  · exact .inl hold
  · refine .inr ⟨fun envelope henv => ?_, fun n hn => ?_⟩
    · rcases wake_envelopes signal task' henv with henv | henv
      · exact h.authentic task' hold envelope henv
      · exact hsignal envelope henv
    · rw [wake_expects] at hn
      exact h.expects task' hold n hn

/-! ## Freshness along a run -/

theorem innerNonce_of_open {payload : Bytes} {inner : InnerEnvelope}
    (hpayload : envelope.payload = some payload)
    (hopen : envelope.payload.bind (openPayload c n) = some inner) :
    innerNonce c n payload = inner.header.bind id := by
  rw [hpayload, bind_some] at hopen
  rw [innerNonce, hopen, bind_some]

theorem Fresh.dispatch (h : Fresh c drawn signed s [n]) (hsound : Sound c drawn signed s)
    (hauthentic : Authentic c signed envelope)
    (hverified : verifymsg c envelope n = some true) (handler : HandlerOutcome) :
    Fresh c drawn signed (dispatch c s n envelope handler) [] := by
  obtain ⟨payload, hpayload⟩ := verifymsg_payload hverified
  have hsigned := hauthentic n payload hpayload hverified
  have haccept := h.accept hsound hpayload hsigned s.nonce
  obtain ⟨nonce, tasks, handled, heq, -, htasks⟩ := dispatch_cases (c := c) s n envelope handler
  rw [heq]
  refine haccept.mono ?_ rfl
  simp only [Session.live, nil_append, append_nil]
  rcases htasks with ⟨rfl, rfl⟩ | ⟨inner, hopen, hheader, rfl⟩ | ⟨inner, hopen, rfl, rfl⟩
  · exact (sublist_append_right ..).subperm
  · -- The nonce is saved in the place of the one before.
    rw [innerNonce_of_open hpayload hopen, hheader]
    exact ((sublist_append_right ..).append_left _).subperm
  · -- The nonce waits in the task of the handler.
    rw [innerNonce_of_open hpayload hopen, flatMap_cons, append_assoc]
    exact (perm_append_comm_assoc ..).subperm

/-- The stored nonce is replaced in the step in which it is used. -/
theorem Fresh.dispatch_stored (h : Fresh c drawn signed s []) (hsound : Sound c drawn signed s)
    (hauthentic : Authentic c signed envelope) (hnonce : s.nonce = some n)
    (hverified : verifymsg c envelope n = some true) {handler : HandlerOutcome}
    {inner : InnerEnvelope} (hopen : envelope.payload.bind (openPayload c n) = some inner)
    (hheader : inner.header ≠ none) (hreturns : inner.body ≠ none → handler = .returns) :
    Fresh c drawn signed (Security.dispatch c s n envelope handler) [] := by
  obtain ⟨payload, hpayload⟩ := verifymsg_payload hverified
  have hsigned := hauthentic n payload hpayload hverified
  obtain ⟨nonce, hnonce'⟩ := ne_none_iff_exists'.mp hheader
  obtain ⟨handled, heq⟩ : ∃ handled, Security.dispatch c s n envelope handler
      = { s with
          nonce := nonce, handled := handled
          accepted := ⟨envelope, n, s.nonce⟩ :: s.accepted } := by
    unfold Security.dispatch
    rw [hopen]
    dsimp only
    cases hbody : inner.body with
    | none => exact ⟨s.handled, by simp [conclude, hnonce']⟩
    | some body =>
      rw [hreturns (by simp [hbody])]
      exact ⟨⟨body, envelope, n⟩ :: s.handled, by simp [conclude, hnonce']⟩
  have hheld : Fresh c drawn signed { s with nonce := none } [n] := by
    refine h.mono ?_ rfl
    simp only [Session.live, hnonce]
    exact List.Subperm.refl _
  have hsound' : Sound c drawn signed { s with nonce := none } :=
    hsound.mono (List.Subset.refl _) (fun task ht => .inl ht) rfl rfl
  have haccept := hheld.accept hsound' hpayload hsigned s.nonce
  rw [heq]
  refine haccept.mono ?_ rfl
  rw [innerNonce_of_open hpayload hopen, hnonce']
  simp only [Session.live, nil_append, append_nil]
  exact List.Subperm.refl _

theorem Fresh.unprotectedparse (h : Fresh c drawn signed s [n, n']) (hsound : Sound c drawn signed s)
    (hauthentic : Authentic c signed envelope)
    (hi : i.next = n') : Fresh c drawn signed (unprotectedparse c s n envelope i) [] := by
  unfold Security.unprotectedparse
  split
  · exact h.mono (sublist_append_right ..).subperm rfl
  · next hverified =>
    refine Fresh.dispatch (h.mono ?_ rfl) hsound hauthentic hverified _
    exact (List.Sublist.cons_cons n (sublist_cons_self ..)).subperm
  · subst hi
    refine h.mono ?_ rfl
    simp only [Session.live, flatMap_cons, Task.nonces, Task.expects, nil_append]
    refine .trans ?_ (sublist_cons_self ..).subperm
    exact perm_middle.subperm

/-- Running a task that completes what it accepts with the stored nonce. -/
theorem Fresh.run (h : Fresh c drawn signed s task.nonces)
    (hsound : Sound c drawn signed s)
    (hauthentic : ∀ envelope ∈ task.envelopes, Authentic c signed envelope)
    (hcurrent : i.current ∉ drawn) (hnext : i.next ∉ drawn) (hne : i.current ≠ i.next)
    (hcompletes : ∀ incoming nonce, task = .parse incoming → i.ok = true →
      s.nonce = some nonce → verifymsg c incoming nonce = some true →
      ∃ inner, incoming.payload.bind (openPayload c nonce) = some inner ∧ inner.header ≠ none
        ∧ (inner.body ≠ none → i.handler = .returns)) :
    Fresh c (i.current :: i.next :: drawn) signed (run c s i task) [] := by
  have hsound' : Sound c (i.current :: i.next :: drawn) signed s := hsound.draw [i.current, i.next]
  have hdrawn : Fresh c (i.current :: i.next :: drawn) signed s
      (i.current :: i.next :: task.nonces) := by
    refine Fresh.draw (hsound.draw [i.next]) (h.draw hsound hnext) ?_
    rw [mem_cons, not_or]
    exact ⟨hne, hcurrent⟩
  -- The end of a task, and its suspension with the nonces it has.
  have hend (waiting : Bool) :
      Fresh c (i.current :: i.next :: drawn) signed { s with waitingresponse := waiting } [] :=
    hdrawn.mono (sublist_append_right ..).subperm rfl
  have hpush (task' : Task) (waiting : Bool) (sent : List Sent)
      (hnonces : task'.nonces.Sublist (i.next :: task.nonces)) :
      Fresh c (i.current :: i.next :: drawn) signed
        { s with waitingresponse := waiting, sent := sent, tasks := task' :: s.tasks } [] := by
    refine hdrawn.mono ?_ rfl
    simp only [Session.live, nil_append, flatMap_cons, append_assoc]
    refine .trans (perm_append_comm_assoc ..).subperm ?_
    exact ((hnonces.cons _).append_right _).subperm
  have hsame (task' : Task) (waiting : Bool) (sent : List Sent)
      (hnonces : task'.nonces = task.nonces) := hpush task' waiting sent
        (hnonces ▸ sublist_cons_self ..)
  have hidle (waiting : Bool) : Sound c (i.current :: i.next :: drawn) signed
      { s with waitingresponse := waiting } :=
    hsound'.mono (List.Subset.refl _) (fun task ht => .inl ht) rfl rfl
  have hconclude (inner : InnerEnvelope) (hnonces : task.nonces = (inner.header.bind id).toList) :
      Fresh c (i.current :: i.next :: drawn) signed (conclude inner s) [] := by
    unfold conclude
    split
    · exact hend s.waitingresponse
    · next nonce hheader =>
      refine hdrawn.mono ?_ rfl
      rw [hnonces, hheader]
      simp only [Session.live, nil_append]
      refine List.Sublist.subperm ?_
      exact (((sublist_append_right ..).append_left _).cons _).cons _
  cases task with
  | send =>
    simp only [Security.run]
    split
    · exact hpush (.sending i.next false) _ _ (List.Sublist.refl _)
    · exact hend s.waitingresponse
  | parse incoming =>
    have hincoming := hauthentic incoming (mem_singleton.mpr rfl)
    simp only [Security.run]
    split
    · next hok =>
      cases hnonce : s.nonce with
      | none => exact hdrawn.unprotectedparse hsound' hincoming rfl
      | some nonce =>
        rw [getD_some]
        unfold Security.unprotectedparse
        split
        · exact hend s.waitingresponse
        · next hverified =>
          obtain ⟨inner, hopen, hheader, hreturns⟩ :=
            hcompletes incoming nonce rfl hok hnonce hverified
          exact (hend s.waitingresponse).dispatch_stored hsound' hincoming hnonce hverified hopen
            hheader hreturns
        · exact hpush (.challenging i.next) _ _ (List.Sublist.refl _)
    · exact hend s.waitingresponse
  | sending next resend =>
    simp only [Security.run]
    split
    · exact hsame (.receiving next resend none) _ _ rfl
    · exact hend s.waitingresponse
  | challenging nonce =>
    simp only [Security.run]
    split
    · exact hsame (.rechecking nonce none) _ _ rfl
    · exact hend s.waitingresponse
  | handling inner =>
    simp only [Security.run]
    split
    · exact hconclude inner rfl
    · exact hend s.waitingresponse
    · exact hsame (.handling inner) _ _ rfl
  | receiving next resend ev =>
    rcases ev with _ | ⟨incoming⟩ | _ | _
    · exact hsame (.receiving next resend none) _ _ rfl
    · have hincoming := hauthentic incoming (mem_singleton.mpr rfl)
      simp only [Security.run]
      split
      · exact hend false
      split
      · split
        · exact hend false
        · split
          · exact hend false
          · exact hsame (.sending next true) _ _ rfl
      · have hheld : Fresh c (i.current :: i.next :: drawn) signed
            { s with waitingresponse := false } [next, i.next] := by
          refine hdrawn.mono ?_ rfl
          exact .trans (List.Perm.swap ..).subperm (sublist_cons_self ..).subperm
        exact hheld.unprotectedparse (hidle false) hincoming rfl
    · exact hend false
    · exact hend false
  | rechecking nonce ev =>
    rcases ev with _ | ⟨outerEnv⟩ | _ | _
    · exact hsame (.rechecking nonce none) _ _ rfl
    · have houter := hauthentic outerEnv (mem_singleton.mpr rfl)
      simp only [Security.run]
      split
      · next hverified =>
        have hheld : Fresh c (i.current :: i.next :: drawn) signed
            { s with waitingresponse := false } [nonce] :=
          hdrawn.mono ((sublist_cons_self ..).cons _).subperm rfl
        exact hheld.dispatch (hidle false) houter hverified _
      · exact hend false
    · exact hend false
    · exact hend false

/-! ## Events -/

theorem mem_modify_wake {signal : Signal} {i : Nat}
    (h : task ∈ tasks.modify i (Task.wake signal)) :
    task ∈ tasks ∨ ∃ task' ∈ tasks, task = task'.wake signal := by
  induction tasks generalizing i with
  | nil => simp at h
  | cons t tasks ih =>
    cases i with
    | zero =>
      rw [modify_zero_cons] at h
      rcases mem_cons.mp h with rfl | h
      · exact .inr ⟨t, mem_cons_self .., rfl⟩
      · exact .inl (mem_cons_of_mem _ h)
    | succ i =>
      rw [modify_succ_cons] at h
      rcases mem_cons.mp h with rfl | h
      · exact .inl (mem_cons_self ..)
      · rcases ih h with h | ⟨task', ht, heq⟩
        · exact .inl (mem_cons_of_mem _ h)
        · exact .inr ⟨task', mem_cons_of_mem _ ht, heq⟩

theorem nonces_modify_wake (signal : Signal) (tasks : List Task) (i : Nat) :
    (tasks.modify i (Task.wake signal)).flatMap Task.nonces = tasks.flatMap Task.nonces := by
  induction tasks generalizing i with
  | nil => simp
  | cons t tasks ih =>
    cases i with
    | zero => rw [modify_zero_cons, flatMap_cons, wake_nonces, flatMap_cons]
    | succ i => rw [modify_succ_cons, flatMap_cons, ih, flatMap_cons]

theorem nonces_map_wake (signal : Signal) (tasks : List Task) :
    (tasks.map (Task.wake signal)).flatMap Task.nonces = tasks.flatMap Task.nonces := by
  rw [flatMap_map]
  simp only [wake_nonces]

theorem Sound.sign (h : Sound c drawn signed s) (nonce payload : Bytes) :
    Sound c (nonce :: ((innerNonce c nonce payload).toList ++ drawn)) ((nonce, payload) :: signed) s := by
  have hdrawn := h.draw (nonce :: (innerNonce c nonce payload).toList)
  constructor
  · intro e he
    rcases mem_cons.mp he with rfl | he
    · constructor
      · exact mem_cons_self ..
      · intro m hm
        exact mem_cons_of_mem _ (mem_append_left _ (mem_toList.mpr hm))
    · exact hdrawn.drawn e he
  · intro task ht envelope henv n p hp hv
    exact mem_cons_of_mem _ (h.authentic task ht envelope henv n p hp hv)
  · exact h.expects
  · exact h.accepted
  · exact h.handled

theorem Fresh.sign (h : Fresh c drawn signed s []) (hsound : Sound c drawn signed s)
    {nonce payload : Bytes}
    (hnew : ∀ m, innerNonce c nonce payload = some m → m ≠ nonce ∧ m ∉ drawn) :
    Fresh c (nonce :: ((innerNonce c nonce payload).toList ++ drawn))
      ((nonce, payload) :: signed) s [] := by
  constructor
  · exact h.nodup
  · intro n hn
    exact mem_cons_of_mem _ (mem_append_right _ (h.drawn n hn))
  · intro e he e' he' m hm hm'
    rcases mem_cons.mp he with rfl | he <;> rcases mem_cons.mp he' with rfl | he'
    · rfl
    · exact absurd ((hsound.drawn e' he').2 m hm') (hnew m hm).2
    · exact absurd ((hsound.drawn e he).2 m hm) (hnew m hm').2
    · exact h.distinct e he e' he' m hm hm'
  · intro e he hnot m hm hmem
    rcases mem_cons.mp he with rfl | he
    · exact (hnew m hm).2 (h.drawn m hmem)
    · exact h.unseen e he hnot m hm hmem

theorem getElem?_perm {i : Nat} (h : tasks[i]? = some task) :
    (task :: tasks.eraseIdx i).Perm tasks := by
  obtain ⟨hi, rfl⟩ := List.getElem?_eq_some_iff.mp h
  exact getElem_cons_eraseIdx_perm hi

variable {w : World} {ev : Event}

theorem Sound.step (hev : Allowed c w ev)
    (h : Sound c w.drawn w.signed w.session) :
    Sound c (step c w ev).drawn (step c w ev).signed (step c w ev).session := by
  cases ev with
  | sign nonce payload => exact h.sign nonce payload
  | send =>
    refine h.mono (List.Subset.refl _) (fun task ht => ?_) rfl rfl
    rcases mem_cons.mp ht with rfl | ht
    · exact .inr ⟨by simp [Task.envelopes], by simp [Task.expects]⟩
    · exact .inl ht
  | deliver envelope =>
    show Sound c w.drawn w.signed (w.session.sink envelope)
    unfold Session.sink
    split
    · refine h.wake (.envelopeReceived envelope) ?_ fun task ht => ?_
      · rintro _ ⟨⟩
        exact hev
      · obtain ⟨task', ht', rfl⟩ := mem_map.mp ht
        exact .inr ⟨task', ht', rfl⟩
    · refine h.mono (List.Subset.refl _) (fun task ht => ?_) rfl rfl
      rcases mem_cons.mp ht with rfl | ht
      · refine .inr ⟨fun env henv => ?_, by simp [Task.expects]⟩
        rw [mem_singleton.mp henv]
        exact hev
      · exact .inl ht
  | receptionError =>
    refine h.wake .receptionError (by simp) fun task ht => ?_
    obtain ⟨task', ht', rfl⟩ := mem_map.mp ht
    exact .inr ⟨task', ht', rfl⟩
  | timeout i => exact h.wake .timeout (by simp) fun task ht => mem_modify_wake ht
  | resume i input =>
    unfold Security.step
    dsimp only
    split
    · exact h
    · next task htask =>
      have hmem : task ∈ w.session.tasks := mem_of_getElem? htask
      have herased : Sound c w.drawn w.signed
          { w.session with tasks := w.session.tasks.eraseIdx i } :=
        h.mono (List.Subset.refl _) (fun task ht => .inl (mem_of_mem_eraseIdx ht)) rfl rfl
      have hrun := herased.run (h.authentic task hmem) (h.expects task hmem) hev.1
      exact hrun.draw [input.current, input.next]
  | restart => exact h.mono (List.Subset.refl _) (fun task ht => by cases ht) rfl rfl

theorem Fresh.step (hev : Allowed c w ev) (hcompletes : Completes c w ev)
    (hsound : Sound c w.drawn w.signed w.session) (h : Fresh c w.drawn w.signed w.session []) :
    Fresh c (step c w ev).drawn (step c w ev).signed (step c w ev).session [] := by
  have hsame {s' : Session} (hlive : s'.live = w.session.live)
      (haccepted : s'.accepted = w.session.accepted) : Fresh c w.drawn w.signed s' [] :=
    h.mono (hlive ▸ List.Subperm.refl _) haccepted
  cases ev with
  | sign nonce payload => exact h.sign hsound hev
  | send => exact hsame rfl rfl
  | deliver envelope =>
    show Fresh c w.drawn w.signed (w.session.sink envelope) []
    unfold Session.sink
    split
    · refine hsame ?_ rfl
      simp only [Session.live, nonces_map_wake]
    · exact hsame rfl rfl
  | receptionError =>
    refine hsame ?_ rfl
    simp only [Security.step, Session.live, nonces_map_wake]
  | timeout i =>
    refine hsame ?_ rfl
    simp only [Security.step, Session.live, nonces_modify_wake]
  | resume i input =>
    unfold Security.step
    dsimp only
    split
    · exact h
    · next task htask =>
      have hmem : task ∈ w.session.tasks := mem_of_getElem? htask
      have herased : Sound c w.drawn w.signed
          { w.session with tasks := w.session.tasks.eraseIdx i } :=
        hsound.mono (List.Subset.refl _) (fun task ht => .inl (mem_of_mem_eraseIdx ht)) rfl rfl
      have hheld : Fresh c w.drawn w.signed
          { w.session with tasks := w.session.tasks.eraseIdx i } task.nonces := by
        refine h.mono ?_ rfl
        simp only [Session.live, nil_append]
        refine .trans (perm_append_comm_assoc ..).subperm ?_
        have hperm := (getElem?_perm htask).flatMap_right Task.nonces
        rw [flatMap_cons] at hperm
        rw [← append_assoc task.nonces]
        exact ((hperm.append_right _).append_left _).subperm
      refine hheld.run herased (hsound.authentic task hmem) hev.1 hev.2.1 hev.2.2 ?_
      rintro incoming nonce rfl hok hnonce hverified
      exact hcompletes incoming nonce htask hok hnonce hverified
  | restart =>
    refine h.mono ?_ rfl
    simp only [Security.step, Session.live, nil_append, flatMap_nil]
    exact ((sublist_append_right ..).append_left _).subperm

theorem Initial.sound (h : Initial w) : Sound c w.drawn w.signed w.session := by
  constructor
  · rw [h.signed]
    simp
  · rw [h.tasks]
    simp
  · rw [h.tasks]
    simp
  · rw [h.accepted]
    simp
  · rw [h.handled]
    simp

theorem Initial.fresh (h : Initial w) : Fresh c w.drawn w.signed w.session [] := by
  have hlive : w.session.live = w.session.nonce.toList := by
    simp [Session.live, h.tasks, h.accepted]
  constructor
  · rw [nil_append, hlive]
    exact toList_nodup _
  · intro n hn
    rw [nil_append, hlive] at hn
    exact h.drawn n (mem_toList.mp hn)
  · rw [h.signed]
    simp
  · rw [h.signed]
    simp

/-- When an event does not complete what it accepts, the nonce it was accepted with
stays the current one. -/
theorem kept_of_not_completes (h : ¬ Completes c w ev) :
    ∃ a ∈ (step c w ev).session.accepted, (step c w ev).session.nonce = some a.nonce := by
  cases ev with
  | resume i input =>
    simp only [Completes, not_forall] at h
    obtain ⟨incoming, nonce, htask, hok, hnonce, hverified, hnot⟩ := h
    simp only [Security.step, htask, Security.run, hok, if_true, hnonce, getD_some,
      Security.unprotectedparse, hverified]
    refine ⟨⟨incoming, nonce, some nonce⟩, ?_⟩
    unfold Security.dispatch
    dsimp only
    cases hopen : incoming.payload.bind (openPayload c nonce) with
    | none => exact ⟨mem_cons_self .., rfl⟩
    | some inner =>
      by_cases hheader : inner.header = none
      · simp only [conclude, hheader]
        cases inner.body with
        | none => exact ⟨mem_cons_self .., rfl⟩
        | some body => cases input.handler <;> exact ⟨mem_cons_self .., rfl⟩
      · have hbody : inner.body ≠ none ∧ input.handler ≠ .returns := by
          by_contra hdone
          refine hnot ⟨inner, hopen, hheader, fun hbody => ?_⟩
          by_contra hreturns
          exact hdone ⟨hbody, hreturns⟩
        obtain ⟨body, hbody'⟩ := ne_none_iff_exists'.mp hbody.1
        simp only [hbody']
        cases hhandler : input.handler with
        | returns => exact absurd hhandler hbody.2
        | fails => exact ⟨mem_cons_self .., rfl⟩
        | suspends => exact ⟨mem_cons_self .., rfl⟩
  | _ => exact absurd trivial h

/-- An envelope is only valid for one nonce. -/
theorem nonce_unique (hdigest : CollisionFree c) {envelope envelope' : Envelope}
    (hpayload : envelope.payload = envelope'.payload) (hfooter : envelope.footer = envelope'.footer)
    (h : verifymsg c envelope n = some true) (h' : verifymsg c envelope' n' = some true) :
    n = n' := by
  obtain ⟨payload, hp, h⟩ := bind_eq_some_iff.mp h
  obtain ⟨footer, hf, h⟩ := bind_eq_some_iff.mp h
  obtain ⟨mac, hmac, h⟩ := bind_eq_some_iff.mp h
  obtain ⟨payload', hp', h'⟩ := bind_eq_some_iff.mp h'
  obtain ⟨footer', hf', h'⟩ := bind_eq_some_iff.mp h'
  obtain ⟨mac', hmac', h'⟩ := bind_eq_some_iff.mp h'
  have hsame : payload = payload' := by
    rw [hp, hp'] at hpayload
    exact Option.some.inj hpayload
  have hsame' : footer = footer' := by
    rw [hf, hf'] at hfooter
    exact Option.some.inj hfooter
  simp only [Option.some.injEq, decide_eq_true_eq] at h h'
  have hmacs : mac = mac' := Option.some.inj (h.symm.trans (hsame'.trans h'))
  rw [hsame] at hmac
  rw [hmacs] at hmac
  exact hdigest payload' n n' mac' hmac hmac'

end

/-- What reaches the message handler was accepted with the nonce the session relied
on.  As long as every envelope that is accepted with the stored nonce is completed in
its step, no envelope is accepted twice and no nonce outlives the envelope it was used
for; the first event that does not complete one leaves its nonce in place. -/
theorem accepted_once (c : Config) (hdigest : CollisionFree c) {w₀ w : World} (h₀ : Initial w₀)
    (hrun : Runs (step c) (Allowed c) w₀ w) :
    (∀ h ∈ w.session.handled, verifymsg c h.envelope h.nonce = some true
        ∧ (∃ inner, h.envelope.payload.bind (openPayload c h.nonce) = some inner
          ∧ inner.body = some h.body)
        ∧ ∃ a ∈ w.session.accepted, a.envelope = h.envelope ∧ a.nonce = h.nonce)
      ∧ (∀ a ∈ w.session.accepted, verifymsg c a.envelope a.nonce = some true
        ∧ (a.stored = some a.nonce ∨ a.nonce ∈ w.session.sent.map Sent.advertised))
      ∧ (Runs (step c) (fun w ev => Allowed c w ev ∧ Completes c w ev) w₀ w →
        (w.session.accepted.map fun a => (a.envelope.payload, a.envelope.footer)).Nodup
          ∧ (w.session.accepted.map Acceptance.nonce).Nodup
          ∧ ∀ a ∈ w.session.accepted, w.session.nonce ≠ some a.nonce)
      ∧ ∀ ev, ¬ Completes c w ev →
        ∃ a ∈ (step c w ev).session.accepted, (step c w ev).session.nonce = some a.nonce := by
  have hsound : Sound c w.drawn w.signed w.session :=
    hrun.invariant (I := fun w => Sound c w.drawn w.signed w.session)
      (fun w ev hev h => h.step hev) h₀.sound
  refine ⟨hsound.handled, hsound.accepted, fun hcomplete => ?_, fun ev => kept_of_not_completes⟩
  have hinv : Sound c w.drawn w.signed w.session ∧ Fresh c w.drawn w.signed w.session [] :=
    hcomplete.invariant
      (I := fun w => Sound c w.drawn w.signed w.session ∧ Fresh c w.drawn w.signed w.session [])
      (fun w ev hev h => ⟨h.1.step hev.1, h.2.step hev.1 hev.2 h.1⟩) ⟨h₀.sound, h₀.fresh⟩
  have hnodup := hinv.2.nodup
  simp only [Session.live, nil_append] at hnodup
  obtain ⟨-, hothers, hdisjoint⟩ := nodup_append'.mp hnodup
  have hnonces : (w.session.accepted.map Acceptance.nonce).Nodup :=
    (nodup_append'.mp hothers).2.1
  refine ⟨?_, hnonces, ?_⟩
  · refine List.Nodup.map_on ?_ hnonces.of_map
    intro a ha a' ha' hsame
    obtain ⟨hpayload, hfooter⟩ := Prod.mk.inj hsame
    have hnonce := nonce_unique hdigest hpayload hfooter (hsound.accepted a ha).1
      (hsound.accepted a' ha').1
    exact inj_on_of_nodup_map hnonces ha ha' hnonce
  · intro a ha hnonce
    refine hdisjoint (mem_toList.mpr hnonce) ?_
    exact mem_append_right _ (mem_map_of_mem ha)

/-! ## Two runs -/

/-- A serialized inner envelope with the nonce `2` and the body `42`. -/
def samplePayload : Bytes :=
  [0x60, 0x84, 0x06, 0x6e, 0x6f, 0x6e, 0x63, 0x65, 0x04, 0x02, 0x02, 0x2a, 0x83]

def sampleConfig : Config where
  digest := fun data => some (0x4b :: data)
  encryption := false
  decrypt := fun _ payload => some payload
  deserialize := fun payload =>
    if payload = samplePayload then some ⟨some (some [0x02]), some [0x2a]⟩ else none

def sampleEnvelope : Envelope where
  header := some ⟨false, none⟩
  payload := some samplePayload
  footer := some (some (0x4b :: (samplePayload ++ [0x01])))

def sampleWorld : World where
  session := ⟨some [0x01], false, [], [], [], []⟩
  drawn := [[0x01]]
  signed := []

def sampleInput (current next : Bytes) (handler : HandlerOutcome) : Input :=
  ⟨true, current, next, handler⟩

theorem sampleConfig_collisionFree : CollisionFree sampleConfig := by
  rintro payload nonce nonce' mac h h'
  have heq := h.trans h'.symm
  simpa [sampleConfig] using heq

theorem sampleWorld_initial : Initial sampleWorld := by
  refine ⟨rfl, rfl, rfl, rfl, rfl, fun n hn => ?_⟩
  obtain rfl := Option.some.inj hn
  exact mem_singleton.mpr rfl

theorem sampleEnvelope_authentic {signed : List (Bytes × Bytes)}
    (h : ([0x01], samplePayload) ∈ signed) : Authentic sampleConfig signed sampleEnvelope := by
  rintro nonce payload hpayload hverified
  obtain rfl := Option.some.inj hpayload
  have hnonce : nonce = [0x01] := by
    have := hverified
    simp only [verifymsg, sampleEnvelope, sampleConfig, bind_eq_bind, bind_some,
      Option.some.injEq, decide_eq_true_eq, List.cons.injEq, true_and] at this
    exact (append_cancel_left this).symm
  rw [hnonce]
  exact h

theorem sampleSign_allowed :
    Allowed sampleConfig sampleWorld (.sign [0x01] samplePayload) := by
  intro m hm
  have hinner : innerNonce sampleConfig [0x01] samplePayload = some [0x02] := by decide
  rw [hinner] at hm
  obtain rfl := Option.some.inj hm
  decide

def sampleRun (evs : List Event) : World := evs.foldl (step sampleConfig) sampleWorld

theorem accepted_once_sample :
    let w := sampleRun [.sign [0x01] samplePayload, .deliver sampleEnvelope,
      .resume 0 (sampleInput [0x0a] [0x0b] .returns)]
    w.session.handled.map Handled.body = [[0x2a]] ∧ w.session.accepted.length = 1
      ∧ ∀ a ∈ w.session.accepted, w.session.nonce ≠ some a.nonce := by
  intro w
  have hcompletes : Completes sampleConfig
      (sampleRun [.sign [0x01] samplePayload, .deliver sampleEnvelope])
      (.resume 0 (sampleInput [0x0a] [0x0b] .returns)) := by
    rintro incoming nonce htask - hnonce -
    obtain rfl := Option.some.inj hnonce
    cases htask
    exact ⟨⟨some (some [0x02]), some [0x2a]⟩, by decide, by decide, fun _ => rfl⟩
  have hrun : Runs (step sampleConfig)
      (fun w ev => Allowed sampleConfig w ev ∧ Completes sampleConfig w ev) sampleWorld w := by
    refine Along.runs ⟨⟨sampleSign_allowed, trivial⟩, ⟨?_, trivial⟩, ⟨?_, hcompletes⟩, trivial⟩
    · exact sampleEnvelope_authentic (mem_cons_self ..)
    · exact ⟨by decide, by decide, by decide⟩
  have honce := accepted_once sampleConfig sampleConfig_collisionFree sampleWorld_initial
    (hrun.mono fun w ev hev => hev.1)
  exact ⟨by decide, by decide, (honce.2.2.1 hrun).2.2⟩

/-- A handler that fails leaves the nonce in place, and the network can have the same
envelope accepted again. -/
theorem accepted_twice :
    let w := sampleRun [.sign [0x01] samplePayload, .deliver sampleEnvelope,
      .resume 0 (sampleInput [0x0a] [0x0b] .fails), .deliver sampleEnvelope,
      .resume 0 (sampleInput [0x0c] [0x0d] .fails)]
    Initial sampleWorld ∧ Runs (step sampleConfig) (Allowed sampleConfig) sampleWorld w
      ∧ w.session.accepted.map Acceptance.envelope = [sampleEnvelope, sampleEnvelope]
      ∧ w.session.handled.map Handled.body = [[0x2a], [0x2a]]
      ∧ w.session.nonce = some [0x01] := by
  intro w
  refine ⟨sampleWorld_initial, ?_, by decide, by decide, by decide⟩
  refine Along.runs ⟨sampleSign_allowed, ?_, ?_, ?_, ?_, trivial⟩
  · exact sampleEnvelope_authentic (mem_cons_self ..)
  · exact ⟨by decide, by decide, by decide⟩
  · exact sampleEnvelope_authentic (mem_cons_self ..)
  · exact ⟨by decide, by decide, by decide⟩

end Mihini.M3da.Security
