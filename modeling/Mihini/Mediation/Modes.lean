import Mihini.Mediation.Handles

/-!
# The modes of the mediation client

The client is stopped, looks for a server, has lost one, listens or is being stopped.  Each part of the
code goes from one of these to another.
-/

namespace Mihini.Mediation

open Handles Function

/-! ## Packets -/

/-- A packet that the listener handles without an error and at once, on a socket that is connected or
not: an acknowledgement has its number, and nothing is to be acknowledged on a socket that is not
connected. -/
def Receipt.Fine (r : Receipt) (connected : Bool) : Prop :=
  (r.packet.head? = some 0 → r.packet[1]? ≠ none) ∧
    (r.packet.head? = some 4 → r.connect = .returns) ∧
    (r.packet.head? ≠ some 0 → r.packet[1]? ≠ none → connected = true)

instance (r : Receipt) (connected : Bool) : Decidable (r.Fine connected) :=
  inferInstanceAs (Decidable (_ ∧ _))

def Receipt.leaves (r : Receipt) (connected : Bool) : Bool :=
  match r.packet.head?, r.packet.drop 2 with
  | some 3, _ :: _ :: _ :: _ :: _ :: _ :: _ => r.switched
  | _, _ => connected

def AllFine : Bool → List Receipt → Prop
  | _, [] => True
  | connected, r :: rs => r.Fine connected ∧ AllFine (r.leaves connected) rs

instance : (connected : Bool) → (rs : List Receipt) → Decidable (AllFine connected rs)
  | _, [] => isTrue trivial
  | connected, r :: rs =>
    have : Decidable (AllFine (r.leaves connected) rs) := instDecidableAllFine _ rs
    inferInstanceAs (Decidable (r.Fine connected ∧ _))

namespace World

variable {w w' : World} {t : Task} {o : Outcome}

structure Heard (w w' : World) : Prop where
  handles : ∃ g, w'.toHandles = { w.toHandles with woken := g } ∧ ∀ t, w.woken t ≠ none → g t ≠ none
  status : w'.status = w.status
  skt : w'.skt = w.skt
  closed : w'.closed = w.closed
  watched : w'.watched = w.watched
  left : w'.left = w.left

theorem Heard.refl (w : World) : Heard w w := ⟨⟨w.woken, rfl, fun _ h => h⟩, rfl, rfl, rfl, rfl, rfl⟩

theorem Heard.trans {w'' : World} (h : Heard w w') (h' : Heard w' w'') : Heard w w'' := by
  obtain ⟨g, hg, hmono⟩ := h.handles
  obtain ⟨g', hg', hmono'⟩ := h'.handles
  refine ⟨⟨g', ?_, fun t ht => hmono' t ?_⟩, h'.status.trans h.status, h'.skt.trans h.skt,
    h'.closed.trans h.closed, h'.watched.trans h.watched, h'.left.trans h.left⟩
  · rw [hg', hg]
  · rw [hg]
    exact hmono t ht

variable {s : Socket}

theorem acknowledge_done {reqid : Option UInt8} (hskt : w.skt = some s)
    (h : reqid ≠ none → w.connected s = true) : w.acknowledge reqid = .done := by
  rw [acknowledge, if_neg]
  rintro ⟨hsome, hraises⟩
  have hconnected := h (Option.isSome_iff_ne_none.mp hsome)
  rw [sendackRaises, listens] at hraises
  split at hraises
  · nomatch hraises
  rename_i s' hs'
  split at hs'
  · obtain rfl := Option.some.inj (hskt.symm.trans hs')
    rw [hconnected] at hraises
    nomatch hraises
  · nomatch hs'

theorem sendackRaises_eq (hskt : w.skt = some s) (h : w.connected s = true) :
    w.sendackRaises = false := by
  have hdone : w.acknowledge (some 0) = .done := acknowledge_done hskt fun _ => h
  rw [acknowledge] at hdone
  split at hdone
  · nomatch hdone
  · rename_i hnot
    exact Bool.eq_false_iff.mpr fun hraises => hnot ⟨rfl, hraises⟩

theorem leaves_of_ne {r : Receipt} {connected : Bool} (h : r.packet.head? ≠ some 3) :
    r.leaves connected = connected := by
  unfold Receipt.leaves
  split
  · rename_i h3 _
    exact absurd h3 h
  · rfl

theorem handle_fine {r : Receipt} (hskt : w.skt = some s) (hr : r.Fine (w.connected s)) :
    ∃ w', w.handle r = (w', .done) ∧ Heard w w' ∧ w'.connected s = r.leaves (w.connected s) := by
  obtain ⟨hnumber, hconnect, hconnected⟩ := hr
  unfold handle
  simp only
  split
  · rename_i hcmd
    cases hid : r.packet[1]? with
    | none => exact absurd hid (hnumber hcmd)
    | some id =>
      refine ⟨_, rfl, ⟨⟨_, rfl, fun t => woken_wake⟩, rfl, rfl, rfl, rfl, rfl⟩, ?_⟩
      exact (leaves_of_ne (by rw [hcmd]; nofun)).symm
  · rename_i hcmd
    rw [acknowledge_done hskt (hconnected (by rw [hcmd]; nofun))]
    refine ⟨_, rfl, ⟨⟨w.woken, rfl, fun t h => h⟩, rfl, rfl, rfl, rfl, rfl⟩, ?_⟩
    exact (leaves_of_ne (by rw [hcmd]; nofun)).symm
  · rename_i hcmd
    split
    · rename_i ip1 ip2 ip3 ip4 high low rest s' hdrop hskt'
      obtain rfl := Option.some.inj (hskt.symm.trans hskt')
      have hid : r.packet[1]? ≠ none := by
        have hlength := congrArg List.length hdrop
        rw [List.length_drop, List.length_cons] at hlength
        rw [List.getElem?_eq_getElem (by omega)]
        nofun
      rw [if_neg (by rw [sendackRaises_eq hskt (hconnected (by rw [hcmd]; nofun) hid)]; nofun)]
      refine ⟨_, rfl, ⟨⟨w.woken, rfl, fun t h => h⟩, rfl, rfl, rfl, rfl, rfl⟩, ?_⟩
      rw [Receipt.leaves, hcmd, hdrop]
      exact update_self ..
    · rename_i hnot
      rw [acknowledge_done hskt (hconnected (by rw [hcmd]; nofun))]
      refine ⟨_, rfl, Heard.refl w, ?_⟩
      unfold Receipt.leaves
      split
      · rename_i hdrop
        exact (hnot _ _ _ _ _ _ _ s hdrop hskt).elim
      · rfl
  · rename_i hcmd
    rw [hconnect hcmd]
    simp only
    rw [acknowledge_done hskt (hconnected (by rw [hcmd]; nofun))]
    exact ⟨_, rfl, Heard.refl w, (leaves_of_ne (by rw [hcmd]; nofun)).symm⟩
  · rename_i h0 _ h3 _
    rw [acknowledge_done hskt (hconnected h0)]
    exact ⟨_, rfl, Heard.refl w, (leaves_of_ne h3).symm⟩

/-- The listener handles its packets and waits, or ends. -/
theorem listen_fine (failed : Bool) {rs : List Receipt} (hstatus : 2 < w.status)
    (hskt : w.skt = some s) (hopen : w.closed s = false) (hwatched : w.watched s = false)
    (hrs : AllFine (w.connected s) rs) :
    ∃ w', Heard w w' ∧ (w.listen failed rs = (w', .ends) ∨
      w.listen failed rs = ({ w' with watched := update w'.watched s true }, .waits s)) := by
  induction rs generalizing w with
  | nil =>
    refine ⟨w, Heard.refl w, ?_⟩
    have hlistens : w.listens = some s := (if_pos hstatus).trans hskt
    rw [listen, hlistens]
    simp only [hopen, hwatched]
    cases failed with
    | true => exact Or.inl rfl
    | false => exact Or.inr rfl
  | cons r rs ih =>
    obtain ⟨hr, hrs⟩ := hrs
    obtain ⟨w₁, hhandle, hheard, hconnected⟩ := handle_fine hskt hr
    rw [← hconnected] at hrs
    obtain ⟨w', hheard', hlisten⟩ := ih (hheard.status ▸ hstatus) (hheard.skt.trans hskt)
      (by rw [hheard.closed, hopen]) (by rw [hheard.watched, hwatched]) hrs
    have hlistens : w.listens = some s := (if_pos hstatus).trans hskt
    rw [listen, hlistens]
    simp only [hopen, hhandle]
    exact ⟨w', hheard.trans hheard', hlisten⟩

theorem listen_none {failed : Bool} (hnone : w.listens = none) (rs : List Receipt) :
    w.listen failed rs = (w, .ends) := by
  cases rs with
  | nil => rw [listen, hnone]
  | cons r rs => rw [listen, hnone]

/-! ## Closing the socket -/

theorem close_handles (w : World) :
    ∃ g, w.close.toHandles = { w.toHandles with woken := g } ∧ ∀ t, w.woken t ≠ none → g t ≠ none := by
  unfold close
  split
  · exact ⟨w.woken, rfl, fun t h => h⟩
  · exact ⟨_, rfl, fun t => woken_wake⟩

theorem close_place (w : World) : w.close.place = w.place := by
  obtain ⟨g, hg, -⟩ := w.close_handles
  rw [hg]

theorem close_kind (w : World) (t : Task) : w.close.kind t = w.kind t := congrArg _ (congrFun w.close_place t)

theorem close_status (w : World) : w.close.status = w.status := by
  unfold close
  split <;> rfl

theorem close_skt (w : World) : w.close.skt = w.skt := by
  unfold close
  split <;> rfl

theorem close_left (w : World) : w.close.left = w.left := by
  unfold close
  split <;> rfl

theorem close_closed (hskt : w.skt = some s) : w.close.closed s = true := by
  rw [close, hskt]
  exact update_self ..

theorem woken_close {index : Option Nat} (hskt : w.skt = some s)
    (hplace : w.place t = some (.receiving index s)) : w.close.woken t ≠ none := by
  rw [close, hskt]
  show ((w.woken t).or ((w.place t).bind _)) ≠ none
  rw [hplace]
  cases w.woken t with
  | none => exact fun h => nomatch (if_pos rfl).symm.trans h
  | some e => nofun

/-! ## The modes -/

structure Clean (w : World) : Prop where
  listener : ∀ t, w.kind t ≠ some .listener
  keepalive : ∀ t, w.kind t ≠ some .keepalive
  restart : ∀ t, w.kind t ≠ some .restart
  timers : ∀ k, w.timers k = none

structure Listening (w : World) (t : Task) (s : Socket) : Prop where
  status : w.status = 3
  listener : w.kind t = some .listener
  skt : w.skt = some s
  opened : w.closed s = false
  receiving : ∀ i s', w.place t = some (.receiving i s') → s' = s
  free : ∀ f, w.place t = some (.called f) → w.watched s = false
  stop : ∀ t, w.kind t ≠ some .stop

inductive Mode (w : World) : Prop where
  | stopped (hstatus : w.status = 0) (hclean : w.Clean) (hstop : ∀ t, w.kind t ≠ some .stop)
  | searching (hstatus : w.status = 1) (hlistener : ∀ t, w.kind t ≠ some .listener)
    (hstop : ∀ t, w.kind t ≠ some .stop) (hcover : (∃ t, w.kind t = some .search) ∨ w.Restarts)
  | broken (t : Task) (hstatus : w.status = 1) (hkind : w.kind t = some .listener) (hwoken : w.woken t ≠ none)
    (hskt : w.skt ≠ none) (hclosed : ∀ i s, w.place t = some (.receiving i s) → w.closed s = true)
    (hstop : ∀ t, w.kind t ≠ some .stop)
  | listening (t : Task) (s : Socket) (h : w.Listening t s)
  /-- A call of `stop` waits, or is about to go on. -/
  | stopping (q : Task) (hstatus : w.status = 3) (hskt : w.skt = none) (hkind : w.kind q = some .stop)
    (hstop : ∀ t, w.kind t = some .stop → t = q) (hkeepalive : w.keepalive = none)
    (hrestart : w.restart = none) (hnone : ∀ t, w.kind t ≠ some .restart)
    (hsearch : ∀ t, w.kind t ≠ some .search)
    (hcover : (∃ t, w.kind t = some .listener ∧ w.woken t ≠ none ∧
        ∀ i s, w.place t = some (.receiving i s) → w.closed s = true) ∨
      (∀ t, w.kind t ≠ some .listener) ∧ w.woken q ≠ none)

structure Inv (w : World) : Prop where
  sane : w.Sane
  mode : w.Mode
  left : w.left = false

/-! ## The search of a server -/

def Tracked (w : World) : Prop := ∀ t < w.fresh, w.kind t = some .keepalive → w.heartbeat = some t

def finds (o : Outcome) (index : Nat) : List Server → Option Bool
  | [] => some false
  | server :: servers =>
    if server.addr.isSome ∧ server.port.isSome then
      if o.udp index then
        if o.peer index then some true else finds o (index + 1) servers
      else none
    else finds o (index + 1) servers

structure Seeking (w : World) : Prop where
  sane : w.Sane
  status : w.status = 1
  engine : ∀ t, ¬ w.Engine t
  stop : ∀ t, w.kind t ≠ some .stop
  left : w.left = false

theorem kill_eq_die (ht : ∀ index, w.place t ≠ some (.called (.mediationlistener index))) :
    w.kill o t = w.die t := by
  unfold kill
  split
  · rename_i index hplace
    exact absurd hplace (ht index)
  · rfl

theorem place_ne_called {k : Kind} {f : Call} (hk : w.kind t = none ∨ w.kind t = some k) (hf : f.kind ≠ k) :
    w.place t ≠ some (.called f) := by
  intro hplace
  rw [Handles.kind, hplace] at hk
  rcases hk with h | h
  · cases h
  · exact hf (Option.some.inj h)

structure Vacant (h : Handles) : Prop where
  sane : h.Sane
  engine : ∀ t, ¬ h.Engine t
  keepalive : ∀ t, h.kind t ≠ some .keepalive
  still : h.Still
  stop : ∀ t, h.kind t ≠ some .stop

theorem killHeartbeat_eq (hs : w.Sane) (hstill : w.Still) (htracked : w.Tracked)
    (hengine : ∀ t, ¬ w.Engine t) (hstop : ∀ t, w.kind t ≠ some .stop) :
    ∃ h, w.killHeartbeat o = { w with toHandles := h } ∧ Vacant h := by
  unfold killHeartbeat
  cases hb : w.heartbeat with
  | none =>
    refine ⟨w.toHandles, rfl, hs, hengine, fun t ht => ?_, hstill, hstop⟩
    nomatch hb.symm.trans (htracked t (hs.lt ht) ht)
  | some t =>
    have hkind := (hs.heartbeat t hb).2
    have hrestart : w.kind t = some .restart → w.restart = none := by
      intro hr
      rw [hr] at hkind
      rcases hkind with h | h <;> nomatch h
    simp only
    rw [kill_eq_die fun index => place_ne_called hkind nofun]
    refine ⟨{ w.toHandles.die t with heartbeat := none }, rfl, (hs.die hrestart).forgetHeartbeat, ?_, ?_,
      hstill, ?_⟩
    · rintro u (hu | hu)
      · exact hengine u (Or.inl (kind_of_die hu))
      · exact hengine u (Or.inr (kind_of_die hu))
    · intro u hu
      have hu' := kind_of_die hu
      have heq := hb.symm.trans (htracked u (hs.lt hu') hu')
      exact ne_of_die hu (Option.some.inj heq).symm
    · exact fun u hu => hstop u (kind_of_die hu)

theorem killListener_eq (hv : Vacant w.toHandles) :
    ∃ h, w.killListener o = { w with toHandles := h } ∧ Vacant h := by
  unfold killListener
  cases hl : w.listener with
  | none => exact ⟨w.toHandles, rfl, hv⟩
  | some t =>
    have hkind := ((hv.sane.listener t hl).2).resolve_right fun h => hv.engine t (Or.inl h)
    have hrestart : w.kind t = some .restart → w.restart = none := by
      rw [hkind]
      rintro ⟨⟩
    simp only
    rw [kill_eq_die fun index hplace => by rw [Handles.kind, hplace] at hkind; cases hkind]
    have hnone : ∀ u, (w.toHandles.die t).kind u ≠ some .listener :=
      fun u hu => hv.engine u (Or.inl (kind_of_die hu))
    refine ⟨{ w.toHandles.die t with listener := none }, rfl, (hv.sane.die hrestart).forgetListener hnone,
      ?_, ?_, hv.still, ?_⟩
    · rintro u (hu | hu)
      · exact hv.engine u (Or.inl (kind_of_die hu))
      · exact hv.engine u (Or.inr (kind_of_die hu))
    · exact fun u hu => hv.keepalive u (kind_of_die hu)
    · exact fun u hu => hv.stop u (kind_of_die hu)

/-- A server is found: the listener and the keep-alive are run. -/
theorem Seeking.found (h : Seeking w) (htracked : w.Tracked) (hskt : w.skt = some s)
    (hopen : w.closed s = false) (hwatched : w.watched s = false) (index : Nat) :
    Inv (w.found index o) := by
  have htracked' : Tracked { w with status := 3, toHandles := w.cancelKeepalive } := by
    unfold Tracked
    simp only [cancelKeepalive_eq]
    exact htracked
  have hengine : ∀ t, ¬ w.cancelKeepalive.Engine t := by
    rw [cancelKeepalive_eq]
    exact h.engine
  have hstop : ∀ t, w.cancelKeepalive.kind t ≠ some .stop := by
    rw [cancelKeepalive_eq]
    exact h.stop
  obtain ⟨h₁, heq₁, hv₁⟩ := killHeartbeat_eq (o := o) (w := { w with status := 3, toHandles := w.cancelKeepalive })
    h.sane.cancelKeepalive h.sane.still_cancelKeepalive htracked' hengine hstop
  obtain ⟨h₂, heq₂, hv₂⟩ := killListener_eq (o := o) (w := { w with status := 3, toHandles := h₁ }) hv₁
  rw [World.found, heq₁, heq₂]
  have hlistener : Sane { h₂.run (.mediationlistener index) with listener := some h₂.fresh } :=
    hv₂.sane.run trivial (fun k g hk => ⟨hk, nofun⟩) (fun _ => hv₂.engine) nofun rfl (Or.inl rfl)
      fun hr => (hv₂.sane.delayed hr).imp_right Or.inr
  have hkind : ∀ t, (h₂.run (.mediationlistener index)).kind t =
      if t = h₂.fresh then some .listener else h₂.kind t := fun t => kind_run
  have hnone : ∀ t, (h₂.run (.mediationlistener index)).kind t ≠ some .keepalive := by
    intro t
    rw [hkind]
    split
    · nofun
    · exact hv₂.keepalive t
  have htimers : ∀ k g, h₂.timers k = some g → g.kind ≠ .keepalive := by
    intro k g hk
    cases g with
    | sendkeepalive id => exact absurd hk (hv₂.still k id)
    | mediationlistener | findserver | restart | netmanhook => nofun
  have hfresh : h₂.fresh ≠ (h₂.run (.mediationlistener index)).fresh := Nat.ne_of_lt (Nat.lt_succ_self _)
  have hplace : ((h₂.run (.mediationlistener index)).run (.sendkeepalive 1)).place h₂.fresh =
      some (.called (.mediationlistener index)) := by
    rw [place_run, if_neg hfresh, place_run, if_pos rfl]
  refine ⟨hlistener.run trivial (fun k g hk => ⟨hk, fun _ => htimers k g hk⟩) (fun hf => ?_) (fun _ => hnone) rfl
    (Or.inr ⟨rfl, rfl⟩) fun hr => (hlistener.delayed hr).imp_right Or.inr, ?_, h.left⟩
  · rcases hf with hf | hf <;> nomatch hf
  · refine .listening h₂.fresh s ⟨rfl, congrArg _ hplace, hskt, hopen, fun i s' heq => ?_, fun _ _ => hwatched,
      fun t ht => ?_⟩
    · nomatch hplace.symm.trans heq
    · have ht' : ((h₂.run (.mediationlistener index)).run (.sendkeepalive 1)).kind t = some .stop := ht
      rw [kind_run, hkind] at ht'
      split at ht'
      · nomatch ht'
      · split at ht'
        · nomatch ht'
        · exact hv₂.stop t ht'

theorem Seeking.close (h : Seeking w) : Seeking { w.close with skt := none } := by
  obtain ⟨g, hg, hmono⟩ := w.close_handles
  have hkind : ∀ t, w.close.kind t = w.kind t := w.close_kind
  refine ⟨?_, w.close_status.trans h.status, fun t ht => h.engine t ?_, fun t ht => h.stop t ?_,
    w.close_left.trans h.left⟩
  · show w.close.Sane
    rw [hg]
    exact h.sane.woken fun t _ => hmono t
  · exact ht.imp (hkind t).symm.trans (hkind t).symm.trans
  · exact (hkind t).symm.trans ht

theorem Seeking.udp (h : Seeking w) (connected : Bool) : Seeking (w.udp connected) :=
  ⟨h.sane.skip, h.status, h.engine, h.stop, h.left⟩

theorem tracked_close (h : w.Tracked) : Tracked { w.close with skt := none } := by
  obtain ⟨g, hg, -⟩ := w.close_handles
  unfold Tracked
  simp only [hg]
  exact h

theorem tracked_udp (h : w.Tracked) (hs : w.Sane) (connected : Bool) : (w.udp connected).Tracked :=
  fun t _ ht => h t (hs.lt ht) ht

variable {index : Nat}

/-- A search finds a server, or leaves the restart to a timer. -/
theorem Seeking.search (h : Seeking w) {servers : List Server}
    (hraises : finds o index servers ≠ none) (hfound : finds o index servers = some true → w.Tracked) :
    Inv (w.search o index servers) := by
  induction servers generalizing w index with
  | nil =>
    rw [World.search]
    cases hr : w.restart with
    | none =>
      refine ⟨h.sane.armRestart hr, ?_, h.left⟩
      exact .searching h.status (fun t ht => h.engine t (Or.inl ht)) h.stop
        (Or.inr (Or.inl ⟨w.fresh, update_self ..⟩))
    | some k =>
      refine ⟨h.sane, ?_, h.left⟩
      exact .searching h.status (fun t ht => h.engine t (Or.inl ht)) h.stop
        (Or.inr (h.sane.delayed (by rw [hr]; nofun)))
  | cons server servers ih =>
    rw [finds] at hraises hfound
    rw [World.search]
    simp only
    split
    · rename_i hserver
      rw [if_pos hserver] at hraises hfound
      split
      · rename_i hudp
        rw [if_pos hudp] at hraises hfound
        split
        · rename_i hpeer
          rw [if_pos hpeer] at hfound
          exact (h.close.udp _).found (tracked_udp (tracked_close (hfound rfl)) h.close.sane _) rfl
            (update_self ..) (update_self ..) index
        · rename_i hpeer
          rw [if_neg hpeer] at hraises hfound
          exact ih (h.close.udp _) hraises fun hf => tracked_udp (tracked_close (hfound hf)) h.close.sane _
      · rename_i hudp
        rw [if_neg hudp] at hraises
        exact absurd rfl hraises
    · rename_i hserver
      rw [if_neg hserver] at hraises hfound
      exact ih h.close hraises fun hf => tracked_close (hfound hf)

/-! ## Starting and stopping -/

/-- No search is left from before, and looking for a server ends in no error. -/
def SoundStart (w : World) (o : Outcome) (index : Nat) : Prop :=
  (∀ t < w.fresh, w.kind t ≠ some .search) ∧ finds o (index + 1) (w.servers.drop index) ≠ none

theorem status_pos_of_mode (h : w.Mode) (hclean : ¬ w.Clean) : 0 < w.status := by
  cases h with
  | stopped _ hc => exact absurd hc hclean
  | searching hstatus | broken _ hstatus | stopping _ hstatus => omega
  | listening _ _ hl =>
    have hstatus := hl.status
    omega

theorem Inv.start (h : Inv w) {index : Option Nat}
    (hs : w.status = 0 → w.SoundStart o (index.getD 0)) (period : Option ℚ) :
    Inv (w.start period index o) := by
  rw [World.start]
  split
  · exact h
  rename_i hstatus
  obtain ⟨hsearch, hfinds⟩ := hs (Nat.eq_zero_of_not_pos hstatus)
  have hclean : w.Clean := by
    by_contra hnot
    exact hstatus (status_pos_of_mode h.mode hnot)
  have hstop : ∀ t, w.kind t ≠ some .stop := by
    cases h.mode with
    | stopped _ _ hstop | searching _ _ hstop | broken _ _ _ _ _ _ hstop => exact hstop
    | listening _ _ hl => exact hl.stop
    | stopping _ heq => exact absurd (by omega) hstatus
  have hengine : ∀ t, ¬ w.Engine t := by
    rintro t (ht | ht)
    · exact hclean.listener t ht
    · exact hsearch t (h.sane.lt ht) ht
  have hseeking : Seeking { w with status := 1, pollingperiod := period.filter (0 < ·) } :=
    ⟨h.sane, rfl, hengine, hstop, h.left⟩
  rw [findserver, if_pos Nat.one_pos]
  exact hseeking.search hfinds fun _ t _ ht => absurd ht (hclean.keepalive t)

/-- The socket is closed, the timers are cancelled, and no other restart or call of `stop` is left. -/
structure Halted (w : World) : Prop where
  sane : w.Sane
  skt : w.skt = none
  keepalive : w.keepalive = none
  restart : w.restart = none
  restarts : ∀ t, w.kind t ≠ some .restart
  stop : ∀ t, w.kind t ≠ some .stop

theorem lost_none (hskt : w.skt = none) (index : Option Nat) :
    w.lost index = { w with toHandles := w.cancelKeepalive.signalStopped } := by
  rw [lost]
  simp only [hskt]
  exact if_neg fun hlive => nomatch hlive.2

theorem kill_eq (hskt : w.skt = none) (hkeepalive : w.keepalive = none) (t : Task) :
    ∃ g, w.kill o t = { w with toHandles := { w.toHandles.die t with woken := g } } ∧
      ∀ u, u ≠ t → w.woken u ≠ none → g u ≠ none := by
  unfold kill
  split
  · have hlistens : w.listens = none := by
      rw [listens, hskt]
      exact ite_self none
    have hcancel : (w.die t).toHandles.cancelKeepalive = w.toHandles.die t := by
      rw [cancelKeepalive, show (w.die t).keepalive = none from hkeepalive]
      rfl
    rw [mediationlistener, listen_none hlistens, listened,
      lost_none (show (w.die t).skt = none from hskt), hcancel]
    refine ⟨_, rfl, fun u hu hw => ?_⟩
    rw [update_of_ne hu]
    exact woken_wake hw
  · exact ⟨w.woken, rfl, fun _ _ hw => hw⟩

theorem Halted.timers (h : Halted w) (k : Timer) : w.timers k = none := by
  cases hk : w.timers k with
  | none => rfl
  | some f =>
    rcases h.sane.armed k f hk with ⟨-, -, hvar, -⟩ | ⟨-, hvar⟩
    · nomatch h.keepalive.symm.trans hvar
    · nomatch h.restart.symm.trans hvar

theorem Halted.kill (h : Halted w) (t : Task) :
    ∃ h', w.kill o t = { w with toHandles := h' } ∧ Halted { w with toHandles := h' } ∧
      (∀ u k, h'.kind u = some k → w.kind u = some k ∧ u ≠ t) ∧ h'.listener = w.listener ∧
      h'.heartbeat = w.heartbeat ∧ h'.fresh = w.fresh := by
  obtain ⟨g, hg, hmono⟩ := kill_eq (o := o) h.skt h.keepalive t
  refine ⟨_, hg, ⟨?_, h.skt, h.keepalive, h.restart, fun u hu => h.restarts u (kind_of_die hu),
    fun u hu => h.stop u (kind_of_die hu)⟩, fun u k hu => ⟨kind_of_die hu, ne_of_die hu⟩, rfl, rfl, rfl⟩
  refine (h.sane.die fun hr => absurd hr (h.restarts t)).woken fun u hplace hw => hmono u (fun heq => ?_) hw
  rw [place_die, if_pos heq] at hplace
  exact hplace rfl

/-- What remains once `stop` has killed the listener and the keep-alive. -/
theorem Halted.killed (h : Halted w) (htracked : w.Tracked) :
    ∃ h', (w.killListener o).killHeartbeat o = { w with toHandles := h' } ∧
      h'.Sane ∧ Clean { w with toHandles := h' } ∧ (∀ u k, h'.kind u = some k → w.kind u = some k) ∧
      h'.fresh = w.fresh := by
  have hfirst : ∃ h', w.killListener o = { w with toHandles := h' } ∧ Halted { w with toHandles := h' } ∧
      (∀ u, h'.kind u ≠ some .listener) ∧ (∀ u k, h'.kind u = some k → w.kind u = some k) ∧
      h'.heartbeat = w.heartbeat ∧ h'.fresh = w.fresh := by
    unfold killListener
    cases hl : w.listener with
    | none =>
      refine ⟨w.toHandles, rfl, h, fun u hu => ?_, fun _ _ hu => hu, rfl, rfl⟩
      nomatch hl.symm.trans (h.sane.named u hu)
    | some t =>
      obtain ⟨h', heq, hhalted, hkind, -, hb, hfresh⟩ := h.kill (o := o) t
      have hnone : ∀ u, h'.kind u ≠ some .listener := by
        intro u hu
        obtain ⟨hu', hne⟩ := hkind u _ hu
        exact hne (Option.some.inj ((h.sane.named u hu').symm.trans hl))
      simp only [heq]
      exact ⟨{ h' with listener := none }, rfl, ⟨hhalted.sane.forgetListener hnone, hhalted.skt,
        hhalted.keepalive, hhalted.restart, hhalted.restarts, hhalted.stop⟩, hnone,
        fun u k hu => (hkind u k hu).1, hb, hfresh⟩
  obtain ⟨h₁, heq₁, hhalted₁, hlistener₁, hkind₁, hb₁, hfresh₁⟩ := hfirst
  have htracked₁ : ∀ t, h₁.kind t = some .keepalive → h₁.heartbeat = some t := by
    intro t ht
    rw [hb₁]
    exact htracked t (h.sane.lt (hkind₁ t _ ht)) (hkind₁ t _ ht)
  rw [heq₁, killHeartbeat]
  cases hb : h₁.heartbeat with
  | none =>
    refine ⟨h₁, rfl, hhalted₁.sane, ⟨hlistener₁, fun t ht => ?_, hhalted₁.restarts, hhalted₁.timers⟩, hkind₁,
      hfresh₁⟩
    nomatch hb.symm.trans (htracked₁ t ht)
  | some t =>
    obtain ⟨h₂, heq₂, hhalted₂, hkind₂, -, -, hfresh₂⟩ := hhalted₁.kill (o := o) t
    simp only [heq₂]
    refine ⟨{ h₂ with heartbeat := none }, rfl, hhalted₂.sane.forgetHeartbeat,
      ⟨fun u hu => hlistener₁ u (hkind₂ u _ hu).1, fun u hu => ?_, hhalted₂.restarts, hhalted₂.timers⟩,
      fun u k hu => hkind₁ u k (hkind₂ u k hu).1, hfresh₂.trans hfresh₁⟩
    obtain ⟨hu', hne⟩ := hkind₂ u _ hu
    exact hne (Option.some.inj ((htracked₁ u hu').symm.trans hb))

theorem remains_of_clean (h : w.Clean) : w.remains = false := by
  refine List.any_eq_false.mpr fun n _ => ?_
  rw [h.timers n]
  simp [h.listener n, h.keepalive n, h.restart n]

/-- Only the keep-alive that `stop` knows is left, and what the caller of `stop` does next is sound. -/
def SoundReturn (w : World) (after : After) (o : Outcome) : Prop :=
  w.Tracked ∧ match after with
    | .returns => True
    | .restart | .start _ => w.SoundStart o 0

variable {after : After}

theorem Halted.stopped (h : Halted w) (hleft : w.left = false) (hs : w.SoundReturn after o) :
    Inv (w.stopped after o) := by
  obtain ⟨htracked, hafter⟩ := hs
  obtain ⟨h', heq, hsane, hclean, hkind, hfresh⟩ := h.killed (o := o) htracked
  have hremains : h'.remains = false := remains_of_clean hclean
  have hinv : Inv { w with toHandles := h', status := 0, left := w.left || h'.remains } := by
    refine ⟨hsane, .stopped rfl ⟨hclean.listener, hclean.keepalive, hclean.restart, hclean.timers⟩
      fun t ht => h.stop t (hkind t _ ht), ?_⟩
    rw [hleft, hremains]
    rfl
  have hstart : ∀ period, w.SoundStart o 0 →
      Inv (World.start { w with toHandles := h', status := 0, left := w.left || h'.remains } period none o) :=
    fun period hsound => hinv.start (fun _ => ⟨fun t ht hk => hsound.1 t (hfresh ▸ ht) (hkind t _ hk),
      hsound.2⟩) period
  unfold World.stopped
  simp only [heq]
  cases after with
  | returns => exact hinv
  | restart => exact hstart _ hafter
  | start period => exact hstart _ hafter

/-- No other call of `stop` waits, no other restart is about to begin, and a call that returns at once
does so soundly. -/
def SoundStop (w : World) (t : Task) (after : After) (o : Outcome) : Prop :=
  (∀ u < w.fresh, w.kind u ≠ some .stop) ∧ (∀ u < w.fresh, u ≠ t → w.kind u ≠ some .restart) ∧
    (w.status ≤ 2 → (w.die t).SoundReturn after o)

theorem woken_of_close (hs : w.Sane) (hk : w.kind t = some .listener) (hskt : w.skt = some s)
    (hplace : ∀ i s', w.place t = some (.receiving i s') → s' = s) : w.close.woken t ≠ none := by
  rcases hs.listener_place hk with ⟨index, -, hwoken⟩ | ⟨index, s', hreceiving⟩
  · obtain ⟨g, hg, hmono⟩ := w.close_handles
    rw [hg]
    exact hmono t hwoken
  · obtain rfl := hplace _ s' hreceiving
    exact woken_close hskt hreceiving

theorem halt_handles (w : World) : ∃ g, w.halt.toHandles =
    { w.toHandles with
      woken := g
      timers := without (without w.timers w.keepalive) w.restart
      keepalive := none
      restart := none } ∧ ∀ t, w.close.woken t ≠ none → g t ≠ none := by
  obtain ⟨g, hg, -⟩ := w.close_handles
  refine ⟨g, ?_, fun t ht => ?_⟩
  · show w.close.cancelKeepalive.cancelRestart = _
    rw [hg, cancelKeepalive_eq, cancelRestart_eq]
  · rwa [hg] at ht

theorem halt_kind (w : World) (t : Task) : w.halt.kind t = w.kind t := by
  obtain ⟨g, hg, -⟩ := w.halt_handles
  rw [hg]
  rfl

theorem Inv.halt (h : Inv w) : w.halt.Sane := by
  obtain ⟨g, hg, hmono⟩ := w.close_handles
  have hclose : w.close.Sane := by
    rw [hg]
    exact h.sane.woken fun u _ => hmono u
  exact hclose.cancelKeepalive.cancelRestart

theorem soundReturn_halt (h : (w.die t).SoundReturn after o) :
    (w.halt.die t).SoundReturn after o := by
  obtain ⟨g, hg, -⟩ := w.halt_handles
  have hdie : (w.halt.die t).toHandles = { (w.die t).toHandles with
      woken := g
      timers := without (without w.timers w.keepalive) w.restart
      keepalive := none
      restart := none } := by
    show w.halt.toHandles.die t = _
    rw [hg]
    rfl
  have hservers : (w.halt.die t).servers = (w.die t).servers := by
    show w.close.servers = w.servers
    unfold World.close
    split <;> rfl
  unfold SoundReturn Tracked SoundStart at h ⊢
  rw [hdie, hservers]
  exact h

/-- `stop` is called in a task that has come to it. -/
theorem Inv.stop (h : Inv w) (hs : w.SoundStop t after o) (ht : t < w.fresh)
    (hl : w.listener ≠ some t) (hb : w.heartbeat ≠ some t) : Inv (w.stop t after o) := by
  obtain ⟨hstop, hrestarts, hreturn⟩ := hs
  replace hstop : ∀ u, w.kind u ≠ some .stop := fun u hu => hstop u (h.sane.lt hu) hu
  replace hrestarts : ∀ u, u ≠ t → w.kind u ≠ some .restart :=
    fun u hne hu => hrestarts u (h.sane.lt hu) hne hu
  have hsane := h.halt
  have hkind := w.halt_kind
  have hstatus : w.halt.status = w.status := w.close_status
  have hleft : w.halt.left = false := w.close_left.trans h.left
  obtain ⟨g, hg, hmono⟩ := w.halt_handles
  have hkeepalive : w.halt.keepalive = none := by rw [hg]
  have hrestart : w.halt.restart = none := by rw [hg]
  unfold World.stop
  simp only
  split
  · rename_i hlive
    rw [hstatus] at hlive
    have hplaces : (w.halt.goto t (.stopping after)).place =
        update w.place t (some (.stopping after)) := by
      rw [hg]
      rfl
    have hgoto : ∀ u, (w.halt.goto t (.stopping after)).kind u = if u = t then some .stop else w.kind u := by
      intro u
      rw [kind_goto, hkind]
      rfl
    refine ⟨hsane.goto trivial nofun (Or.inr ⟨rfl, ?_, ?_, ?_, hrestart⟩), ?_, hleft⟩
    · rwa [hg]
    · rwa [hg]
    · rwa [hg]
    · cases h.mode with
      | stopped heq | searching heq | broken _ heq => omega
      | stopping q _ _ hq => exact absurd hq (hstop q)
      | listening l s hlistening =>
        obtain ⟨heq, hlistener, hskt, -, hreceiving, -, -⟩ := hlistening
        have hne : l ≠ t := fun heq => hl (heq ▸ h.sane.named l hlistener)
        have hwoken := woken_of_close h.sane hlistener hskt hreceiving
        refine .stopping t (hstatus.trans heq) rfl ((hgoto t).trans (if_pos rfl)) (fun u hu => ?_) hkeepalive
          hrestart (fun u hu => ?_) (fun u hu => ?_)
          (Or.inl ⟨l, (hgoto l).trans ((if_neg hne).trans hlistener), ?_, fun i s' hplace => ?_⟩)
        · by_contra hut
          rw [hgoto, if_neg hut] at hu
          exact hstop u hu
        · rw [hgoto] at hu
          split at hu
          · nomatch hu
          · rename_i hut
            exact hrestarts u hut hu
        · rw [hgoto] at hu
          split at hu
          · nomatch hu
          · have heq' := h.sane.engine u l (Or.inr hu) (Or.inl hlistener)
            rw [heq', hlistener] at hu
            nomatch hu
        · have hupdate : (w.halt.goto t (.stopping after)).woken l = w.halt.woken l :=
            update_of_ne hne _ _
          refine fun hnone => hmono l hwoken ?_
          rw [← show w.halt.woken l = g l by rw [hg]]
          exact hupdate.symm.trans hnone
        · replace hplace : (w.halt.goto t (.stopping after)).place l = some (.receiving i s') := hplace
          rw [hplaces, update_of_ne hne] at hplace
          rw [hreceiving i s' hplace]
          exact close_closed hskt
  · rename_i hlive
    have hhalted : Halted (w.halt.die t) := by
      refine ⟨hsane.die fun _ => hrestart, rfl, hkeepalive, hrestart, fun u hu => ?_, fun u hu => ?_⟩
      · exact hrestarts u (ne_of_die hu) ((hkind u).symm.trans (kind_of_die hu))
      · exact hstop u ((hkind u).symm.trans (kind_of_die hu))
    rw [hstatus] at hlive
    exact hhalted.stopped hleft (soundReturn_halt (hreturn (by omega)))

/-! ## The listener -/

theorem Heard.kind (h : Heard w w') (t : Task) : w'.kind t = w.kind t := by
  obtain ⟨g, hg, -⟩ := h.handles
  rw [hg]
  rfl

theorem Heard.place (h : Heard w w') : w'.place = w.place := by
  obtain ⟨g, hg, -⟩ := h.handles
  rw [hg]

theorem Listening.heard (h : w.Listening t s) (hheard : Heard w w') : w'.Listening t s where
  status := hheard.status.trans h.status
  listener := (hheard.kind t).trans h.listener
  skt := hheard.skt.trans h.skt
  opened := by rw [hheard.closed, h.opened]
  receiving := by
    rw [hheard.place]
    exact h.receiving
  free := by
    rw [hheard.place, hheard.watched]
    exact h.free
  stop u := by
    rw [hheard.kind]
    exact h.stop u

theorem Heard.sane (h : Heard w w') (hs : w.Sane) : w'.Sane := by
  obtain ⟨g, hg, hmono⟩ := h.handles
  rw [hg]
  exact hs.woken fun t _ => hmono t

theorem Inv.unwatch (h : Inv w) (s : Socket) :
    Inv { w with watched := update w.watched s false } := by
  refine ⟨h.sane, ?_, h.left⟩
  cases h.mode with
  | stopped heq hclean hstop =>
    exact .stopped heq ⟨hclean.listener, hclean.keepalive, hclean.restart, hclean.timers⟩ hstop
  | searching heq hlistener hstop hcover => exact .searching heq hlistener hstop hcover
  | broken t heq hlistener hw hs hreceiving hstop =>
    exact .broken t heq hlistener hw hs hreceiving hstop
  | listening t s' hl =>
    refine .listening t s' ⟨hl.status, hl.listener, hl.skt, hl.opened, hl.receiving, fun f hf => ?_, hl.stop⟩
    show update w.watched s false s' = false
    rw [update_apply]
    split
    · rfl
    · exact hl.free f hf
  | stopping q heq hs hq hstop hk hr hnone hsearch hcover =>
    exact .stopping q heq hs hq hstop hk hr hnone hsearch hcover

theorem woken_signalStopped {h : Handles} (hk : h.kind t = some .stop) :
    h.signalStopped.woken t ≠ none := by
  show ((h.woken t).or ((h.place t).bind _)) ≠ none
  cases hp : h.place t with
  | none =>
    rw [Handles.kind, hp] at hk
    cases hk
  | some p =>
    rw [Handles.kind, hp] at hk
    cases p with
    | stopping after =>
      cases h.woken t with
      | none => rintro ⟨⟩
      | some e => rintro ⟨⟩
    | called f => cases f <;> cases hk
    | receiving | connecting | acking => cases hk

/-- The listener ends; unless `stop` waits for that, a server is looked for. -/
theorem Inv.lost (h : Inv w) (hk : w.kind t = some .listener) (index : Nat) :
    Inv ((w.die t).lost (some index)) := by
  have hengine : ∀ u, ¬ (w.die t).Engine u := by
    intro u hu
    have hne : u ≠ t := hu.elim ne_of_die ne_of_die
    exact hne (h.sane.engine u t (hu.imp kind_of_die kind_of_die) (Or.inl hk))
  have hsane : (w.die t).cancelKeepalive.signalStopped.Sane :=
    (h.sane.die (by rw [hk]; nofun)).cancelKeepalive.wake _
  have hkind : ∀ u, (w.die t).cancelKeepalive.signalStopped.kind u = (w.die t).kind u := by
    rw [cancelKeepalive_eq]
    exact fun u => rfl
  have hkeepalive : (w.die t).cancelKeepalive.keepalive = none := by rw [cancelKeepalive_eq]
  have hrestart : (w.die t).cancelKeepalive.restart = w.restart := by
    rw [cancelKeepalive_eq]
    rfl
  unfold World.lost
  simp only
  generalize (w.die t).toHandles.cancelKeepalive = h₁ at hsane hkind hkeepalive hrestart
  split
  · rename_i hlive
    have hstop : ∀ u, w.kind u ≠ some .stop := by
      cases h.mode with
      | stopped _ _ hstop | searching _ _ hstop | broken _ _ _ _ _ _ hstop => exact hstop
      | listening _ _ hl => exact hl.stop
      | stopping _ _ hskt =>
        have hsome : w.skt.isSome := hlive.2
        rw [hskt] at hsome
        nomatch hsome
    obtain ⟨g, hg, hmono⟩ := World.close_handles { w.die t with toHandles := h₁.signalStopped, status := 1 }
    have hclose : (World.close { w.die t with toHandles := h₁.signalStopped, status := 1 }).Sane := by
      rw [hg]
      exact hsane.woken fun u _ => hmono u
    have hclosed : ∀ u, (World.close { w.die t with toHandles := h₁.signalStopped, status := 1 }).kind u =
        (w.die t).kind u := fun u => (World.close_kind _ u).trans (hkind u)
    have hstatus : (World.close { w.die t with toHandles := h₁.signalStopped, status := 1 }).status = 1 :=
      World.close_status _
    have hleft : (World.close { w.die t with toHandles := h₁.signalStopped, status := 1 }).left = false :=
      (World.close_left _).trans h.left
    generalize World.close { w.die t with toHandles := h₁.signalStopped, status := 1 } = w₁ at hclose hclosed hstatus hleft
    have hrun : ∀ u, (w₁.run (.findserver (some index))).kind u =
        if u = w₁.fresh then some .search else (w.die t).kind u := by
      intro u
      rw [kind_run, hclosed]
      rfl
    have hengine₁ : ∀ u, ¬ w₁.Engine u := by
      intro u hu
      unfold Engine at hu
      rw [hclosed] at hu
      exact hengine u hu
    refine ⟨hclose.run trivial (fun k g hk => ⟨hk, nofun⟩) (fun _ => hengine₁) nofun rfl (Or.inl rfl)
      fun hr => (hclose.delayed hr).imp_right Or.inr, ?_, hleft⟩
    refine .searching hstatus (fun u hu => ?_) (fun u hu => ?_)
      (Or.inl ⟨w₁.fresh, (hrun _).trans (if_pos rfl)⟩)
    · replace hu := (hrun u).symm.trans hu
      split at hu
      · nomatch hu
      · exact hengine u (Or.inl hu)
    · replace hu := (hrun u).symm.trans hu
      split at hu
      · nomatch hu
      · exact hstop u (kind_of_die hu)
  · rename_i hlive
    refine ⟨hsane, ?_, h.left⟩
    cases h.mode with
    | stopped _ hclean => exact absurd hk (hclean.listener t)
    | searching _ hlistener => exact absurd hk (hlistener t)
    | broken _ hstatus _ _ hskt =>
      have hpos : 0 < w.status := by omega
      exact absurd ⟨hpos, Option.isSome_iff_ne_none.mpr hskt⟩ hlive
    | listening _ _ hl =>
      have hpos : 0 < w.status := by rw [hl.status]; omega
      exact absurd ⟨hpos, Option.isSome_iff_ne_none.mpr fun hnone => nomatch hl.skt.symm.trans hnone⟩ hlive
    | stopping q hstatus hskt hq hstop _ hr hnone hsearch _ =>
      have hne : q ≠ t := by
        rintro rfl
        rw [hq] at hk
        nomatch hk
      have hq' : (w.die t).kind q = some .stop := by
        show (w.toHandles.die t).kind q = _
        rw [kind_die, if_neg hne]
        exact hq
      refine .stopping q hstatus hskt ((hkind q).trans hq') (fun u hu => ?_) hkeepalive (hrestart.trans hr)
        (fun u hu => ?_) (fun u hu => ?_) (Or.inr ⟨fun u hu => ?_, ?_⟩)
      · exact hstop u (kind_of_die ((hkind u).symm.trans hu))
      · exact hnone u (kind_of_die ((hkind u).symm.trans hu))
      · exact hsearch u (kind_of_die ((hkind u).symm.trans hu))
      · exact hengine u (Or.inl ((hkind u).symm.trans hu))
      · exact woken_signalStopped ((hkind q).trans hq')

theorem Inv.waits (hs : w.Sane) (hleft : w.left = false) (hl : w.Listening t s) (index : Nat) :
    Inv { w with
      toHandles := w.goto t (.receiving (some index) s)
      watched := update w.watched s true } := by
  have hkind : ∀ u, (w.toHandles.goto t (.receiving (some index) s)).kind u = w.kind u := by
    intro u
    rw [kind_goto]
    split
    · rename_i heq
      rw [heq]
      exact hl.listener.symm
    · rfl
  have hplace : (w.toHandles.goto t (.receiving (some index) s)).place t = some (.receiving (some index) s) :=
    update_self ..
  refine ⟨hs.goto trivial nofun (Or.inl hl.listener), .listening t s ⟨hl.status, (hkind t).trans hl.listener,
    hl.skt, hl.opened, fun i s' heq => ?_, fun f heq => ?_, fun u hu => ?_⟩, hleft⟩
  · have heq' := hplace.symm.trans heq
    exact (Place.receiving.inj (Option.some.inj heq')).2.symm
  · nomatch hplace.symm.trans heq
  · exact hl.stop u ((hkind u).symm.trans hu)

theorem Inv.listen (h : Inv w) (hl : w.Listening t s) (hwatched : w.watched s = false)
    {rs : List Receipt} (hrs : AllFine (w.connected s) rs) (failed : Bool) (index : Nat) :
    Inv (listened t (some index) (w.listen failed rs)) := by
  obtain ⟨w', hheard, hlisten⟩ :=
    listen_fine failed (by rw [hl.status]; omega) hl.skt hl.opened hwatched hrs
  have hsane := hheard.sane h.sane
  have hleft := hheard.left.trans h.left
  have hl' := hl.heard hheard
  rcases hlisten with hends | hwaits
  · rw [hends]
    exact Inv.lost ⟨hsane, .listening t s hl', hleft⟩ hl'.listener index
  · rw [hwaits]
    exact Inv.waits hsane hleft hl' index

def SoundPackets (w : World) (o : Outcome) : Prop :=
  ∀ s ∈ w.listens, AllFine (w.connected s) o.receipts

theorem Inv.mediationlistener (h : Inv w)
    (hplace : w.place t = some (.called (.mediationlistener index))) (hs : w.SoundPackets o) :
    Inv (w.mediationlistener t (some index) o) := by
  have hk : w.kind t = some .listener := by
    rw [Handles.kind, hplace]
    rfl
  rw [World.mediationlistener]
  by_cases hnone : w.listens = none
  · rw [listen_none hnone]
    exact h.lost hk index
  cases h.mode with
  | stopped heq | searching heq | broken _ heq => exact absurd (if_neg (by omega)) hnone
  | stopping _ heq hskt => exact absurd ((if_pos (by omega)).trans hskt) hnone
  | listening t' s hl =>
    obtain rfl : t = t' := h.sane.engine t t' (Or.inl hk) (Or.inl hl.listener)
    have hlistens : w.listens = some s := (if_pos (by rw [hl.status]; omega)).trans hl.skt
    exact h.listen hl (hl.free _ hplace) (hs s hlistens) o.failed index

theorem Inv.received (h : Inv w)
    (hplace : w.place t = some (.receiving (some index) s)) (hs : w.SoundPackets o) (e : Wake) :
    Inv (w.received t (some index) s e o) := by
  have hk : w.kind t = some .listener := by
    rw [Handles.kind, hplace]
    rfl
  have hinv := h.unwatch s
  unfold World.received
  simp only
  split
  · rename_i r rs hreceipts
    split
    · exact hinv.lost hk index
    rename_i hopen
    cases h.mode with
    | stopped _ hclean => exact absurd hk (hclean.listener t)
    | searching _ hlistener => exact absurd hk (hlistener t)
    | broken t' _ hlistener _ _ hclosed =>
      obtain rfl : t = t' := h.sane.engine t t' (Or.inl hk) (Or.inl hlistener)
      exact absurd (hclosed _ s hplace) hopen
    | stopping q _ _ _ _ _ _ _ _ hcover =>
      rcases hcover with ⟨t', hlistener, -, hclosed⟩ | ⟨hlistener, -⟩
      · obtain rfl : t = t' := h.sane.engine t t' (Or.inl hk) (Or.inl hlistener)
        exact absurd (hclosed _ s hplace) hopen
      · exact absurd hk (hlistener t)
    | listening t' s' hl =>
      obtain rfl : t = t' := h.sane.engine t t' (Or.inl hk) (Or.inl hl.listener)
      obtain rfl := hl.receiving _ s hplace
      have hlistens : w.listens = some s := (if_pos (by rw [hl.status]; omega)).trans hl.skt
      have hrs := hs s hlistens
      rw [hreceipts] at hrs
      obtain ⟨hr, hrs⟩ := hrs
      have hl₁ : Listening { w with watched := update w.watched s false } t s :=
        ⟨hl.status, hl.listener, hl.skt, hl.opened, hl.receiving, fun f hf => update_self ..,
          hl.stop⟩
      obtain ⟨w', hhandle, hheard, hconnected⟩ := handle_fine hl₁.skt hr
      rw [← hconnected] at hrs
      simp only [hhandle]
      refine Inv.listen ⟨hheard.sane h.sane, .listening t s (hl₁.heard hheard), hheard.left.trans h.left⟩
        (hl₁.heard hheard) ?_ hrs o.failed index
      rw [hheard.watched]
      exact update_self ..
  · exact hinv.lost hk index

/-! ## The keep-alive and the timers -/

structure Alike (w w' : World) : Prop where
  status : w'.status = w.status
  skt : w'.skt = w.skt
  closed : w'.closed = w.closed
  watched : w'.watched = w.watched
  kind : ∀ t k, k = .listener ∨ k = .search ∨ k = .stop → (w'.kind t = some k ↔ w.kind t = some k)
  place : ∀ t, w.kind t = some .listener → w'.place t = w.place t
  woken : ∀ t, w.kind t = some .listener ∨ w.kind t = some .stop → w.woken t ≠ none → w'.woken t ≠ none
  clean : w.Clean → w'.Clean
  restarts : w.Restarts → w'.Restarts
  quiet : w.skt = none → w.keepalive = none → w.restart = none → (∀ t, w.kind t ≠ some .restart) →
    w'.keepalive = none ∧ w'.restart = none ∧ ∀ t, w'.kind t ≠ some .restart

theorem Mode.alike (h : w.Mode) (ha : Alike w w') : w'.Mode := by
  have hlisten : ∀ t, w'.kind t = some .listener ↔ w.kind t = some .listener :=
    fun t => ha.kind t _ (Or.inl rfl)
  have hsearch : ∀ t, w'.kind t = some .search ↔ w.kind t = some .search :=
    fun t => ha.kind t _ (Or.inr (Or.inl rfl))
  have hstops : ∀ t, w'.kind t = some .stop ↔ w.kind t = some .stop :=
    fun t => ha.kind t _ (Or.inr (Or.inr rfl))
  cases h with
  | stopped heq hclean hstop =>
    exact .stopped (ha.status.trans heq) (ha.clean hclean) fun t ht => hstop t ((hstops t).mp ht)
  | searching heq hlistener hstop hcover =>
    refine .searching (ha.status.trans heq) (fun t ht => hlistener t ((hlisten t).mp ht))
      (fun t ht => hstop t ((hstops t).mp ht)) (hcover.imp ?_ ha.restarts)
    exact fun ⟨t, ht⟩ => ⟨t, (hsearch t).mpr ht⟩
  | broken t heq hlistener hw hs hclosed hstop =>
    refine .broken t (ha.status.trans heq) ((hlisten t).mpr hlistener) (ha.woken t (Or.inl hlistener) hw)
      (by rwa [ha.skt]) ?_ fun u hu => hstop u ((hstops u).mp hu)
    rw [ha.place t hlistener, ha.closed]
    exact hclosed
  | listening t s hl =>
    refine .listening t s ⟨ha.status.trans hl.status, (hlisten t).mpr hl.listener, ha.skt.trans hl.skt,
      by rw [ha.closed, hl.opened], ?_, ?_, fun u hu => hl.stop u ((hstops u).mp hu)⟩
    · rw [ha.place t hl.listener]
      exact hl.receiving
    · rw [ha.place t hl.listener, ha.watched]
      exact hl.free
  | stopping q heq hs hq hstop hk hr hnone hsearching hcover =>
    obtain ⟨hk', hr', hnone'⟩ := ha.quiet hs hk hr hnone
    refine .stopping q (ha.status.trans heq) (ha.skt.trans hs) ((hstops q).mpr hq)
      (fun t ht => hstop t ((hstops t).mp ht)) hk' hr' hnone' (fun t ht => hsearching t ((hsearch t).mp ht)) ?_
    rcases hcover with ⟨t, ht, hw, hclosed⟩ | ⟨hlistener, hw⟩
    · refine Or.inl ⟨t, (hlisten t).mpr ht, ha.woken t (Or.inl ht) hw, ?_⟩
      rw [ha.place t ht, ha.closed]
      exact hclosed
    · exact Or.inr ⟨fun t ht => hlistener t ((hlisten t).mp ht), ha.woken q (Or.inr hq) hw⟩

/-- A keep-alive or a task for a network connection ends. -/
theorem alike_die {k : Kind} (ht : w.kind t = some k) (hk : k = .keepalive ∨ k = .hook) :
    Alike w (w.die t) := by
  have hne : ∀ u k', w.kind u = some k' → k' ≠ .keepalive → k' ≠ .hook → u ≠ t := by
    rintro u k' hu hkeep hhook rfl
    obtain rfl := Option.some.inj (ht.symm.trans hu)
    exact hk.elim hkeep hhook
  have hkind : ∀ u k', k' ≠ .keepalive → k' ≠ .hook →
      ((w.die t).kind u = some k' ↔ w.kind u = some k') := by
    refine fun u k' hkeep hhook => ⟨kind_of_die, fun hu => ?_⟩
    have hdie : (w.toHandles.die t).kind u = if u = t then none else w.kind u := kind_die
    exact hdie.trans ((if_neg (hne u k' hu hkeep hhook)).trans hu)
  refine ⟨rfl, rfl, rfl, rfl, fun u k' hk' => ?_, fun u hu => ?_, fun _ _ hw => hw, fun hc => ?_, fun hr => ?_,
    fun _ hkeep hr hnone => ⟨hkeep, hr, fun u hu => hnone u (kind_of_die hu)⟩⟩
  · rcases hk' with rfl | rfl | rfl <;> exact hkind u _ nofun nofun
  · exact update_of_ne (hne u _ hu nofun nofun) _ _
  · exact ⟨fun u hu => hc.listener u (kind_of_die hu), fun u hu => hc.keepalive u (kind_of_die hu),
      fun u hu => hc.restart u (kind_of_die hu), hc.timers⟩
  · exact hr.imp_right fun ⟨u, hu⟩ => ⟨u, (hkind u .restart nofun nofun).mpr hu⟩

theorem Inv.die (h : Inv w) {k : Kind} (ht : w.kind t = some k) (hk : k = .keepalive ∨ k = .hook) :
    Inv (w.die t) := by
  refine ⟨h.sane.die fun hr => ?_, h.mode.alike (alike_die ht hk), h.left⟩
  obtain rfl := Option.some.inj (ht.symm.trans hr)
  rcases hk with heq | heq <;> nomatch heq

theorem Inv.acking (h : Inv w) (ht : w.kind t = some .keepalive) (currentid retries : Nat) :
    Inv { w with toHandles := w.goto t (.acking currentid retries) } := by
  have hkind : ∀ u, (w.toHandles.goto t (.acking currentid retries)).kind u = w.kind u := by
    intro u
    rw [kind_goto]
    split
    · rename_i heq
      rw [heq]
      exact ht.symm
    · rfl
  have hne : ∀ u k, w.kind u = some k → k ≠ .keepalive → u ≠ t := by
    rintro u k hu hk rfl
    exact hk (Option.some.inj (hu.symm.trans ht))
  refine ⟨h.sane.goto trivial nofun (Or.inl ht), h.mode.alike ?_, h.left⟩
  refine ⟨rfl, rfl, rfl, rfl, fun u k _ => ?_, fun u hu => ?_, fun u hu hw => ?_, fun hc => ?_, fun hr => ?_,
    fun _ hk hr hnone => ⟨hk, hr, fun u hu => hnone u ((hkind u).symm.trans hu)⟩⟩
  · exact ⟨(hkind u).symm.trans, (hkind u).trans⟩
  · exact update_of_ne (hne u _ hu nofun) _ _
  · have hut : u ≠ t := hu.elim (fun hu => hne u _ hu nofun) fun hu => hne u _ hu nofun
    exact fun hnone => hw ((update_of_ne hut _ _).symm.trans hnone)
  · exact absurd ht (hc.keepalive t)
  · exact hr.imp_right fun ⟨u, hu⟩ => ⟨u, (hkind u).trans hu⟩

/-- A keep-alive that has used its tries closes the socket. -/
theorem Inv.giveUp (h : Inv w) (ht : w.kind t = some .keepalive) (hstatus : 1 < w.status)
    (hskt : w.skt.isSome) : Inv (World.close { w.die t with status := 1 }) := by
  have hsane : (w.die t).Sane := h.sane.die (by rw [ht]; nofun)
  obtain ⟨g, hg, hmono⟩ := World.close_handles { w.die t with status := 1 }
  have hkind : ∀ u, (World.close { w.die t with status := 1 }).kind u = (w.die t).kind u := World.close_kind _
  cases h.mode with
  | stopped heq | searching heq | broken _ heq => omega
  | stopping _ _ hnone =>
    rw [hnone] at hskt
    nomatch hskt
  | listening l s hl =>
    have hne : l ≠ t := by
      rintro rfl
      nomatch hl.listener.symm.trans ht
    have hlistener : (w.die t).kind l = some .listener := by
      show (w.toHandles.die t).kind l = _
      rw [kind_die, if_neg hne]
      exact hl.listener
    have hplace : (w.die t).place l = w.place l := update_of_ne hne _ _
    have hskt' : World.skt { w.die t with status := 1 } = some s := hl.skt
    refine ⟨?_, ?_, (World.close_left _).trans h.left⟩
    · rw [hg]
      exact hsane.woken fun u _ => hmono u
    · refine .broken l (World.close_status _) ((hkind l).trans hlistener) ?_ ?_ (fun i s' heq => ?_) fun u hu => ?_
      · refine World.woken_of_close (w := { w.die t with status := 1 }) hsane hlistener hskt' fun i s' heq => ?_
        exact hl.receiving i s' (hplace.symm.trans heq)
      · rw [World.close_skt, hskt']
        nofun
      · rw [World.close_place] at heq
        rw [hl.receiving i s' (hplace.symm.trans heq)]
        exact World.close_closed hskt'
      · exact hl.stop u (kind_of_die ((hkind u).symm.trans hu))

theorem Inv.trysend (h : Inv w) (ht : w.kind t = some .keepalive) (currentid retries : Nat) :
    Inv (trysend t currentid o w retries) := by
  induction retries with
  | zero =>
    rw [World.trysend]
    split
    · rename_i hlive
      exact h.giveUp ht hlive.1 hlive.2
    · exact h.die ht (Or.inl rfl)
  | succ retries ih =>
    rw [World.trysend]
    split
    · exact h.die ht (Or.inl rfl)
    split
    · split
      · exact h.acking ht currentid _
      · exact ih
    · exact h.die ht (Or.inl rfl)

theorem Inv.rearm (h : Inv w) (ht : w.kind t = some .keepalive) (hskt : w.skt.isSome) (id : Nat) :
    Inv { w.die t with
      toHandles :=
        { (w.die t).cancelKeepalive.arm (.sendkeepalive id) with
          keepalive := some (w.die t).cancelKeepalive.fresh } } := by
  have hsane : (w.die t).Sane := h.sane.die (by rw [ht]; nofun)
  have hnone : ∀ u, (w.die t).cancelKeepalive.kind u ≠ some .keepalive := by
    rw [cancelKeepalive_eq]
    intro u hu
    exact ne_of_die hu (h.sane.chain u t (kind_of_die hu) ht)
  refine ⟨hsane.cancelKeepalive.armKeepalive hsane.still_cancelKeepalive hnone id, h.mode.alike ?_, h.left⟩
  have ha := alike_die ht (Or.inl rfl)
  rw [cancelKeepalive_eq]
  refine ⟨rfl, rfl, rfl, rfl, ha.kind, ha.place, ha.woken, fun hc => absurd ht (hc.keepalive t), fun hr => ?_,
    fun hnil => ?_⟩
  · refine (ha.restarts hr).imp_left ?_
    rintro ⟨k, hk⟩
    refine ⟨k, (update_of_ne (fun heq => ?_) _ _).trans ((if_neg fun hvar => ?_).trans hk)⟩
    · rw [heq] at hk
      nomatch (hsane.old _ (Nat.le_refl _)).2.symm.trans hk
    · exact (hsane.apart k hvar).2 hk
  · rw [hnil] at hskt
    nomatch hskt

theorem Inv.acked (h : Inv w) (ht : w.kind t = some .keepalive) (currentid retries : Nat) (e : Wake) :
    Inv (w.acked t currentid retries e o) := by
  unfold World.acked
  split
  · rename_i hlive
    cases e with
    | timeout => exact h.trysend ht currentid _
    | begins | read | closed | ack | stopped | returned =>
      simp only
      split
      · exact h.die ht (Or.inl rfl)
      · exact h.rearm ht hlive.2 _
  · exact h.die ht (Or.inl rfl)

theorem Inv.woken (h : Inv w) {g : Task → Option Wake} (hg : ∀ t, w.woken t ≠ none → g t ≠ none) :
    Inv { w with woken := g } := by
  refine ⟨h.sane.woken fun t _ => hg t, h.mode.alike ?_, h.left⟩
  exact ⟨rfl, rfl, rfl, rfl, fun _ _ _ => Iff.rfl, fun _ _ => rfl, fun t _ => hg t,
    fun hc => ⟨hc.listener, hc.keepalive, hc.restart, hc.timers⟩, id, fun _ hk hr hnone => ⟨hk, hr, hnone⟩⟩

theorem Inv.run (h : Inv w) {f : Call} {timers' : Timer → Option Call}
    (hf : f.kind = .keepalive ∨ f.kind = .restart ∨ f.kind = .hook)
    (htimers : ∀ k g, timers' k = some g → w.timers k = some g ∧ (f.kind = .keepalive → g.kind ≠ .keepalive))
    (hkeep : f.kind = .keepalive → ∀ t, w.kind t ≠ some .keepalive)
    (hclean : (∀ k, w.timers k = none) → f.kind = .hook)
    (hrestart : ∀ k, w.timers k = some .restart → (∃ k, timers' k = some .restart) ∨ f.kind = .restart) :
    Inv { w with toHandles := Handles.run { w.toHandles with timers := timers' } f } := by
  have hsteady : (Place.called f).Steady := by
    cases f with
    | findserver => rcases hf with hf | hf | hf <;> nomatch hf
    | mediationlistener | sendkeepalive | restart | netmanhook => trivial
  have hne : f.kind ≠ .listener ∧ f.kind ≠ .search ∧ f.kind ≠ .stop := by
    rcases hf with hf | hf | hf <;> rw [hf] <;> exact ⟨nofun, nofun, nofun⟩
  have hrun : ∀ t, (Handles.run { w.toHandles with timers := timers' } f).kind t =
      if t = w.fresh then some f.kind else w.kind t := fun t => kind_run
  have hnew : ∀ t k, k ≠ f.kind → (Handles.run { w.toHandles with timers := timers' } f).kind t = some k →
      w.kind t = some k := by
    intro t k hk ht
    rw [hrun] at ht
    split at ht
    · exact absurd (Option.some.inj ht).symm hk
    · exact ht
  have hold : ∀ t k, w.kind t = some k →
      (Handles.run { w.toHandles with timers := timers' } f).kind t = some k := by
    intro t k ht
    rw [hrun, if_neg (Nat.ne_of_lt (h.sane.lt ht))]
    exact ht
  have hnone : w.keepalive = none → w.restart = none → ∀ k, w.timers k = none := by
    intro hk hr k
    cases htimer : w.timers k with
    | none => rfl
    | some g =>
      rcases h.sane.armed k g htimer with ⟨-, -, hvar, -⟩ | ⟨-, hvar⟩
      · nomatch hk.symm.trans hvar
      · nomatch hr.symm.trans hvar
  refine ⟨h.sane.run hsteady htimers (fun hfe => ?_) hkeep (if_neg hne.1).symm (Or.inl rfl) fun hr => ?_,
    h.mode.alike ?_, h.left⟩
  · exact (hfe.elim hne.1 hne.2.1).elim
  · rcases h.sane.delayed hr with ⟨k, hk⟩ | hrestarts
    · exact (hrestart k hk).imp_right Or.inl
    · exact Or.inr (Or.inr hrestarts)
  · refine ⟨rfl, rfl, rfl, rfl, fun t k hk => ⟨hnew t k ?_, hold t k⟩, fun t ht => ?_,
      fun t _ hw => woken_run hw, fun hc => ?_, fun hr => ?_, fun _ hk hr hrestarts => ⟨hk, hr, fun t ht => ?_⟩⟩
    · rcases hk with rfl | rfl | rfl
      · exact hne.1.symm
      · exact hne.2.1.symm
      · exact hne.2.2.symm
    · exact update_of_ne (Nat.ne_of_lt (h.sane.lt ht)) _ _
    · have hhook := hclean hc.timers
      refine ⟨fun t ht => hc.listener t (hnew t _ (by rw [hhook]; nofun) ht),
        fun t ht => hc.keepalive t (hnew t _ (by rw [hhook]; nofun) ht),
        fun t ht => hc.restart t (hnew t _ (by rw [hhook]; nofun) ht), fun k => ?_⟩
      cases hk : timers' k with
      | none => exact hk
      | some g => nomatch (hc.timers k).symm.trans (htimers k g hk).1
    · rcases hr with ⟨k, hk⟩ | ⟨t, ht⟩
      · refine (hrestart k hk).imp_right fun hfr => ⟨w.fresh, ?_⟩
        exact (hrun _).trans ((if_pos rfl).trans (congrArg some hfr))
      · exact Or.inr ⟨t, hold t _ ht⟩
    · have hhook := hclean (hnone hk hr)
      exact hrestarts t (hnew t _ (by rw [hhook]; nofun) ht)

end World

end Mihini.Mediation
