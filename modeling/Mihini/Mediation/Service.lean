import Mihini.Mediation.Modes

/-!
# The mediation client never stops silently

In a run with no overlapping calls, no packet that makes the listener fail and no keep-alive that the
client has lost track of, the client that is started has a listener or is about to restart, and nothing
is left of one that is stopped.
-/

namespace Mihini.Mediation

open Mihini.Lib Handles

namespace World

/-! ## What is promised -/

/-- At most one listener and one keep-alive, a started client that waits listens or has armed its
restart, and of a stopped one nothing is left. -/
structure Serves (w : World) : Prop where
  listener : ∀ t u, w.kind t = some .listener → w.kind u = some .listener → t = u
  keepalive : ∀ t u, w.kind t = some .keepalive → w.kind u = some .keepalive → t = u
  timer : ∀ k k' id id', w.timers k = some (.sendkeepalive id) → w.timers k' = some (.sendkeepalive id') →
    k = k'
  either : ∀ t k id, w.kind t = some .keepalive → w.timers k ≠ some (.sendkeepalive id)
  waits : 0 < w.status → (∀ t, w.place t ≠ none → w.woken t = none) →
    (∃ t i s, w.place t = some (.receiving i s) ∧ w.closed s = false) ∨ ∃ k, w.timers k = some .restart
  stopped : w.status = 0 → w.Clean
  left : w.left = false

theorem Inv.serves (h : Inv w) : Serves w where
  listener t u ht hu := h.sane.engine t u (Or.inl ht) (Or.inl hu)
  keepalive := h.sane.chain
  timer k k' id id' hk hk' := by
    rcases h.sane.armed k _ hk with ⟨-, -, hvar, -⟩ | ⟨heq, -⟩
    · rcases h.sane.armed k' _ hk' with ⟨-, -, hvar', -⟩ | ⟨heq, -⟩
      · exact Option.some.inj (hvar.symm.trans hvar')
      · nomatch heq
    · nomatch heq
  either t k id ht hk := by
    rcases h.sane.armed k _ hk with ⟨-, -, -, hnone⟩ | ⟨heq, -⟩
    · exact hnone t ht
    · nomatch heq
  waits hstatus hrest := by
    have hready : ∀ t k, w.kind t = some k → w.woken t = none := fun t k hk => hrest t (place_ne_none hk)
    cases h.mode with
    | stopped heq => omega
    | searching _ _ _ hcover =>
      rcases hcover with ⟨t, ht⟩ | hk | ⟨t, ht⟩
      · exact absurd (hready t _ ht) (h.sane.woken_of_kind (Or.inl ht))
      · exact Or.inr hk
      · exact absurd (hready t _ ht) (h.sane.woken_of_kind (Or.inr ht))
    | broken t _ ht hw => exact absurd (hready t _ ht) hw
    | listening t s hl =>
      rcases h.sane.listener_place hl.listener with ⟨index, -, hw⟩ | ⟨index, s', hplace⟩
      · exact absurd (hready t _ hl.listener) hw
      · obtain rfl := hl.receiving _ s' hplace
        exact Or.inl ⟨t, _, s', hplace, hl.opened⟩
    | stopping q _ _ hq _ _ _ _ _ hcover =>
      rcases hcover with ⟨t, ht, hw, -⟩ | ⟨-, hw⟩
      · exact absurd (hready t _ ht) hw
      · exact absurd (hready q _ hq) hw
  stopped hstatus := by
    by_contra hclean
    exact absurd (status_pos_of_mode h.mode hclean) (by omega)
  left := h.left

/-! ## What is asked of a run -/

def SoundTurn (cfg : Config) (w : World) (t : Task) (o : Outcome) : Place → Prop
  | .called (.mediationlistener _) | .receiving _ _ => w.SoundPackets o
  | .called (.findserver last) => 0 < w.status → ∀ index ∈ last,
    finds o (index + 1) (w.servers.drop index) ≠ none ∧
      (finds o (index + 1) (w.servers.drop index) = some true → w.Tracked)
  | .called .restart => w.SoundStop t .restart o
  | .called (.netmanhook bearername) => ∀ period ∈ cfg.pollingperiod bearername,
    w.SoundStop t (.start period) o
  | .called (.sendkeepalive _) | .acking _ _ | .connecting _ _ => True
  | .stopping after => (w.die t).SoundReturn after o

end World

open World

/-- No call of `stop` begins while another one waits or a restart is about to begin; when `stop` returns,
and when a server is found, no other keep-alive runs than that of `heartbeat`; `start` is not called while
the search of a listener that has ended is still to run; a socket can be had; and what the listener reads is
handled without an error and at once. -/
def Sound (cfg : Config) (w : World) : Event → Prop
  | .start _ index o => w.status = 0 → w.SoundStart o (index.getD 0)
  | .stop o => SoundStop { w with fresh := w.fresh + 1 } w.fresh .returns o
  | .turn t o => ∀ p ∈ w.place t, w.woken t ≠ none → w.SoundTurn cfg t o p
  | .connected _ | .elapse _ | .timeout _ | .readable _ | .connectReturns _ => True

section

variable (cfg : Config) (w : World) (t : Task) (o : Outcome)

instance (index : Nat) : Decidable (w.SoundStart o index) := inferInstanceAs (Decidable (_ ∧ _))

instance : Decidable w.Tracked := inferInstanceAs (Decidable (∀ t < w.fresh, _))

instance (after : After) : Decidable (w.SoundReturn after o) := by
  unfold SoundReturn
  cases after <;> exact inferInstanceAs (Decidable (_ ∧ _))

instance (after : After) : Decidable (w.SoundStop t after o) := inferInstanceAs (Decidable (_ ∧ _ ∧ _))

instance : Decidable (w.SoundPackets o) := inferInstanceAs (Decidable (∀ s ∈ w.listens, _))

instance : (p : Place) → Decidable (w.SoundTurn cfg t o p)
  | .called (.mediationlistener _) | .receiving _ _ => inferInstanceAs (Decidable (w.SoundPackets o))
  | .called (.findserver last) => inferInstanceAs (Decidable (0 < w.status → ∀ index ∈ last, _ ∧ _))
  | .called .restart => inferInstanceAs (Decidable (w.SoundStop t .restart o))
  | .called (.netmanhook bearername) =>
    inferInstanceAs (Decidable (∀ period ∈ cfg.pollingperiod bearername, _))
  | .called (.sendkeepalive _) | .acking _ _ | .connecting _ _ => isTrue trivial
  | .stopping after => inferInstanceAs (Decidable ((w.die t).SoundReturn after o))

instance : DecidablePred (Sound cfg w)
  | .start _ index o => inferInstanceAs (Decidable (w.status = 0 → w.SoundStart o (index.getD 0)))
  | .stop o => inferInstanceAs (Decidable (SoundStop { w with fresh := w.fresh + 1 } w.fresh .returns o))
  | .turn t o => inferInstanceAs (Decidable (∀ p ∈ w.place t, w.woken t ≠ none → w.SoundTurn cfg t o p))
  | .connected _ | .elapse _ | .timeout _ | .readable _ | .connectReturns _ => isTrue trivial

end

namespace World

variable {cfg : Config} {w : World} {t : Task} {o : Outcome}

theorem Inv.init (servers : List Server) : Inv (init servers) where
  sane := by
    constructor
    · exact fun n _ => ⟨rfl, rfl⟩
    · nofun
    · nofun
    · rintro t u (ht | ht) <;> nomatch ht
    · nofun
    · nofun
    · nofun
    · nofun
    · nofun
    · nofun
    · exact fun hr => absurd rfl hr
  mode := .stopped rfl ⟨nofun, nofun, nofun, fun _ => rfl⟩ nofun
  left := rfl

theorem Inv.findserver (h : Inv w) {index : Nat} (hplace : w.place t = some (.called (.findserver (some index))))
    (hs : 0 < w.status → finds o (index + 1) (w.servers.drop index) ≠ none ∧
      (finds o (index + 1) (w.servers.drop index) = some true → w.Tracked)) :
    Inv ((w.die t).findserver (some index) o) := by
  have hk : w.kind t = some .search := by
    rw [Handles.kind, hplace]
    rfl
  have hengine : ∀ u, ¬ (w.die t).Engine u := by
    intro u hu
    have hne : u ≠ t := hu.elim ne_of_die ne_of_die
    exact hne (h.sane.engine u t (hu.imp kind_of_die kind_of_die) (Or.inr hk))
  have hsane : (w.die t).Sane := h.sane.die (by rw [hk]; rintro ⟨⟩)
  have hother : ∀ u, w.kind u = some .listener → False := by
    intro u hu
    obtain rfl := h.sane.engine t u (Or.inr hk) (Or.inl hu)
    cases hk.symm.trans hu
  rw [World.findserver]
  cases h.mode with
  | stopped heq hclean hstop =>
    have hzero : ¬ 0 < (w.die t).status := Nat.not_lt.mpr (Nat.le_of_eq heq)
    rw [if_neg hzero]
    refine ⟨hsane, .stopped heq ⟨?_, ?_, ?_, hclean.timers⟩ fun u hu => hstop u (kind_of_die hu), h.left⟩
    · exact fun u hu => hclean.listener u (kind_of_die hu)
    · exact fun u hu => hclean.keepalive u (kind_of_die hu)
    · exact fun u hu => hclean.restart u (kind_of_die hu)
  | searching heq _ hstop _ =>
    have hpos : 0 < w.status := by omega
    obtain ⟨hfinds, htracked⟩ := hs hpos
    rw [if_pos (show 0 < (w.die t).status from hpos)]
    have hseeking : Seeking (w.die t) := ⟨hsane, heq, hengine, fun u hu => hstop u (kind_of_die hu), h.left⟩
    exact hseeking.search hfinds fun hf u hu hku => htracked hf u hu (kind_of_die hku)
  | broken u _ hu => exact (hother u hu).elim
  | listening u s hl => exact (hother u hl.listener).elim
  | stopping _ _ _ _ _ _ _ _ hsearch => exact absurd hk (hsearch t)

theorem Inv.stop_turn (h : Inv w) {k : Kind} (hk : w.kind t = some k) (hrestart : k = .restart ∨ k = .hook)
    {after : After} (hs : w.SoundStop t after o) : Inv (w.stop t after o) := by
  refine h.stop hs (h.sane.lt hk) (fun hl => ?_) fun hb => ?_
  · rcases (h.sane.listener t hl).2 with hkind | hkind
    · nomatch hkind.symm.trans hk
    · obtain rfl := Option.some.inj (hkind.symm.trans hk)
      rcases hrestart with heq | heq <;> nomatch heq
  · rcases (h.sane.heartbeat t hb).2 with hkind | hkind
    · nomatch hkind.symm.trans hk
    · obtain rfl := Option.some.inj (hkind.symm.trans hk)
      rcases hrestart with heq | heq <;> nomatch heq

theorem Inv.stopped_turn (h : Inv w) (hk : w.kind t = some .stop) {after : After}
    (hs : (w.die t).SoundReturn after o) : Inv ((w.die t).stopped after o) := by
  cases h.mode with
  | stopped _ _ hstop | searching _ _ hstop | broken _ _ _ _ _ _ hstop => exact absurd hk (hstop t)
  | listening _ _ hl => exact absurd hk (hl.stop t)
  | stopping q _ hskt _ hstop hkeepalive hrestart hnone _ _ =>
    have hhalted : Halted (w.die t) := by
      refine ⟨h.sane.die fun _ => hrestart, hskt, hkeepalive, hrestart, fun u hu => hnone u (kind_of_die hu),
        fun u hu => ?_⟩
      exact ne_of_die hu ((hstop u (kind_of_die hu)).trans (hstop t hk).symm)
    exact hhalted.stopped h.left hs

theorem Inv.turn (h : Inv w) (hs : ∀ p ∈ w.place t, w.woken t ≠ none → w.SoundTurn cfg t o p) :
    Inv (w.turn cfg t o) := by
  unfold World.turn
  split
  · rename_i p e hplace hwoken
    have hsound := hs p hplace (by rw [hwoken]; nofun)
    have hsteady := h.sane.steady t p hplace
    have hkind : w.kind t = some p.kind := by
      rw [Handles.kind, hplace]
      rfl
    cases p with
    | called f =>
      cases f with
      | mediationlistener index => exact h.mediationlistener hplace hsound
      | sendkeepalive currentid => exact h.trysend hkind currentid _
      | findserver index =>
        cases index with
        | none => exact hsteady.elim
        | some index => exact h.findserver hplace fun hpos => hsound hpos index rfl
      | restart => exact h.stop_turn hkind (Or.inl rfl) hsound
      | netmanhook bearername =>
        rw [resume]
        split
        · exact h.die hkind (Or.inr rfl)
        · rename_i period hperiod
          exact h.stop_turn hkind (Or.inr rfl) (hsound period hperiod)
    | receiving index s =>
      cases index with
      | none => exact hsteady.elim
      | some index => exact h.received hplace hsound e
    | connecting => exact hsteady.elim
    | acking currentid retries => exact h.acked hkind currentid retries e
    | stopping after => exact h.stopped_turn hkind hsound
  · exact h

theorem Inv.stop_called (h : Inv w) (hs : SoundStop { w with fresh := w.fresh + 1 } w.fresh .returns o) :
    Inv (World.stop { w with fresh := w.fresh + 1 } w.fresh .returns o) := by
  have hinv : Inv { w with fresh := w.fresh + 1 } := by
    refine ⟨h.sane.skip, h.mode.alike ?_, h.left⟩
    exact ⟨rfl, rfl, rfl, rfl, fun _ _ _ => Iff.rfl, fun _ _ => rfl, fun _ _ hw => hw,
      fun hc => ⟨hc.listener, hc.keepalive, hc.restart, hc.timers⟩, id, fun _ hk hr hnone => ⟨hk, hr, hnone⟩⟩
  refine hinv.stop hs (Nat.lt_succ_self _) (fun hl => ?_) fun hb => ?_
  · exact Nat.lt_irrefl _ (h.sane.listener _ hl).1
  · exact Nat.lt_irrefl _ (h.sane.heartbeat _ hb).1

theorem Inv.elapse (h : Inv w) {k : Timer} {f : Call} (hk : w.timers k = some f) :
    Inv { w with toHandles := Handles.run { w.toHandles with timers := Function.update w.timers k none } f } := by
  have htimers : ∀ k' g, Function.update w.timers k none k' = some g → w.timers k' = some g ∧ k' ≠ k := by
    intro k' g hg
    rw [Function.update_apply] at hg
    split at hg
    · nomatch hg
    · rename_i hne
      exact ⟨hg, hne⟩
  have hnone : ¬ ∀ k, w.timers k = none := fun hnone => nomatch (hnone k).symm.trans hk
  rcases h.sane.armed k f hk with ⟨id, rfl, hvar, hkeep⟩ | ⟨rfl, hvar⟩
  · refine h.run (Or.inl rfl) (fun k' g hg => ⟨(htimers k' g hg).1, fun _ hkind => ?_⟩) (fun _ => hkeep)
      (fun hc => absurd hc hnone) fun k' hk' => Or.inl ⟨k', ?_⟩
    · obtain ⟨hg', hne⟩ := htimers k' g hg
      rcases h.sane.armed k' g hg' with ⟨_, -, hvar', -⟩ | ⟨rfl, -⟩
      · exact hne (Option.some.inj (hvar'.symm.trans hvar))
      · nomatch hkind
    · refine (Function.update_of_ne ?_ _ _).trans hk'
      rintro rfl
      nomatch hk.symm.trans hk'
  · exact h.run (Or.inr (Or.inl rfl)) (fun k' g hg => ⟨(htimers k' g hg).1, nofun⟩) nofun
      (fun hc => absurd hc hnone) fun _ _ => Or.inr rfl

theorem Inv.step (h : Inv w) {e : Event} (hs : Sound cfg w e) : Inv (Mediation.step cfg w e) := by
  have hwoken : ∀ t e u, w.woken u ≠ none → Function.update w.woken t (some e) u ≠ none := by
    intro t e u hu
    rw [Function.update_apply]
    split
    · nofun
    · exact hu
  cases e with
  | start period index o => exact h.start hs period
  | stop o => exact h.stop_called hs
  | connected bearername =>
    exact h.run (Or.inr (Or.inr rfl)) (fun k g hk => ⟨hk, nofun⟩) nofun (fun _ => rfl) fun k hk => Or.inl ⟨k, hk⟩
  | turn t o => exact h.turn hs
  | elapse k =>
    unfold Mediation.step
    simp only
    split
    · exact h
    · rename_i f hk
      exact h.elapse hk
  | timeout t =>
    unfold Mediation.step
    simp only
    split
    · exact h.woken (hwoken t _)
    · exact h.woken (hwoken t _)
    · exact h
  | readable s => exact h.woken fun _ => woken_wake
  | connectReturns t =>
    unfold Mediation.step
    simp only
    split
    · exact h.woken (hwoken t _)
    · exact h

end World

/-- In every run whose steps are sound, the client serves in every state reached. -/
theorem mediation_serves {cfg : Config} {servers : List Server} {w : World}
    (h : Runs (step cfg) (Sound cfg) (.init servers) w) : w.Serves :=
  (h.invariant (fun _ _ he hi => hi.step he) (Inv.init servers)).serves

def reads (packets : List (List UInt8)) : Outcome where
  receipts := packets.map fun packet => ⟨packet, true, .returns⟩
  failed := false
  sent := fun _ => true
  udp := fun _ => true
  peer := fun _ => true

def noBearer : Config := ⟨3, fun _ => none⟩

def one : World := .init [⟨some ['h'], some 8888⟩]

def polled : World :=
  [Event.start (some 10) none (reads []), .turn 1 (reads []), .turn 2 (reads []), .readable 0,
    .turn 1 (reads [[0, 1]]), .turn 2 (reads [])].foldl (step noBearer) one

/-- The client is stopped between two keep-alives. -/
theorem mediation_serves_stopped :
    let w := [Event.stop (reads []), .turn 1 (reads []), .turn 4 (reads [])].foldl (step noBearer) polled
    w.status = 0 ∧ w.Serves := by
  have hpolled : Along (step noBearer) (Sound noBearer) one
      [Event.start (some 10) none (reads []), .turn 1 (reads []), .turn 2 (reads []), .readable 0,
        .turn 1 (reads [[0, 1]]), .turn 2 (reads [])] := by decide +kernel
  have hstopped : Along (step noBearer) (Sound noBearer) polled
      [Event.stop (reads []), .turn 1 (reads []), .turn 4 (reads [])] := by decide +kernel
  exact ⟨by decide +kernel, mediation_serves (hpolled.runs.trans hstopped.runs)⟩

/-- The client is stopped while the second keep-alive, which a timer has run, waits for its
acknowledgement: it is left, and when the client is started again there are two of them. -/
theorem keepalive_left :
    let stopped := [Event.elapse 3, .turn 4 (reads []), .stop (reads []), .turn 1 (reads []),
      .turn 5 (reads [])].foldl (step noBearer) polled
    let started := step noBearer stopped (.start (some 10) none (reads []))
    Runs (step noBearer) (fun _ _ => True) one started ∧ stopped.status = 0 ∧ ¬ stopped.Serves ∧
      started.kind 4 = some .keepalive ∧ started.kind 8 = some .keepalive ∧ ¬ started.Serves := by
  have hpolled : Along (step noBearer) (fun _ _ => True) one
      [Event.start (some 10) none (reads []), .turn 1 (reads []), .turn 2 (reads []), .readable 0,
        .turn 1 (reads [[0, 1]]), .turn 2 (reads [])] := by simp [Along]
  have hstarted : Along (step noBearer) (fun _ _ => True) polled
      [Event.elapse 3, .turn 4 (reads []), .stop (reads []), .turn 1 (reads []), .turn 5 (reads []),
        .start (some 10) none (reads [])] := by simp [Along]
  have hfour : Handles.kind (step noBearer ([Event.elapse 3, .turn 4 (reads []), .stop (reads []),
      .turn 1 (reads []), .turn 5 (reads [])].foldl (step noBearer) polled)
      (.start (some 10) none (reads []))).toHandles 4 = some .keepalive := by decide +kernel
  have height : Handles.kind (step noBearer ([Event.elapse 3, .turn 4 (reads []), .stop (reads []),
      .turn 1 (reads []), .turn 5 (reads [])].foldl (step noBearer) polled)
      (.start (some 10) none (reads []))).toHandles 8 = some .keepalive := by decide +kernel
  refine ⟨hpolled.runs.trans hstarted.runs, by decide +kernel, fun h => ?_, hfour, height, fun h => ?_⟩
  · exact absurd h.left (by decide +kernel)
  · exact absurd (h.keepalive 4 8 hfour height) (by decide)

end Mihini.Mediation
