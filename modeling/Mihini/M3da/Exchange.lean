import Mihini.M3da.Connections

/-!
# A request and its response

`M:send` of both sessions gives the request to the transport, and waits for a signal once the
transport's `send` has returned.  The sink runs in the task of the transport.  It announces an
envelope by a signal, which reaches nobody when nobody waits.
-/

open Mihini.Bysant List

namespace Mihini.M3da.Sink

/-- What `M:send` gets for its request. -/
inductive Reply
  /-- of the default session: the status in the header of the envelope -/
  | status (s : Option LuaValue)
  | envelope (v : LuaValue)
  | failed (msg : String)

/-- Where `M:send` stands.  It is `woken` when the event it waits for has come, until its task
runs again. -/
inductive Phase
  | sending
  | waiting
  | woken (r : Reply)
  | ended (r : Reply)

def Phase.reply : Phase → Option Reply
  | .woken r => some r
  | .ended r => some r
  | _ => none

def Phase.waitingresponse : Phase → Bool
  | .waiting => true
  | .woken _ => true
  | _ => false

def Phase.signal (r : Reply) : Phase → Phase
  | .waiting => .woken r
  | phase => phase

structure Exchange where
  sink : SinkState
  phase : Phase
  /-- what goes another way: the payloads in the pipe `incoming` of the default session, and the
  envelopes that the secured session takes for unsollicited ones -/
  aside : List LuaValue

inductive Event
  | data (srcData : Bytes) (junk : Data)
  | closed
  /-- `self.transport:send` returns -/
  | sent (ok : Bool)
  | elapsed
  /-- the task of `M:send` runs again -/
  | resumed

def Session.reply : Session → LuaValue → Reply
  | .default, v => .status (headerStatus v).join
  | .security, v => .envelope v

def Session.envelope (session : Session) (v : LuaValue) (s : Exchange) : Exchange :=
  match session with
  | .default =>
    { s with phase := s.phase.signal (session.reply v), aside := payload v :: s.aside }
  | .security =>
    if s.phase.waitingresponse then { s with phase := s.phase.signal (session.reply v) }
    else { s with aside := v :: s.aside }

def Session.closing : Session → Reply
  | .default => .failed "connection_closed"
  | .security => .failed "reception_error"

/-- What an event means for the task of `M:send`, as long as no envelope is complete. -/
def Phase.on (session : Session) (phase : Phase) : Event → Phase
  | .data _ _ => phase
  | .closed => phase.signal session.closing
  | .sent ok =>
    match phase with
    | .sending => if ok then .waiting else .ended (.failed "not sent")
    | phase => phase
  | .elapsed => phase.signal (.failed "timeout")
  | .resumed =>
    match phase with
    | .woken r => .ended r
    | phase => phase

def Session.step [CFloat] (session : Session) (fuel : Nat) (s : Exchange) :
    Event → Option Exchange
  | .data srcData junk => do
    let (outcome, sink) ← session.sink fuel s.sink junk srcData
    let s := { s with sink := sink }
    match outcome with
    | .envelope v => some (session.envelope v s)
    | .waits => some s
    | .refused _ => some { s with phase := s.phase.signal (.failed "Received non-M3DA data") }
    | .raises _ => some s
  | ev => some { s with phase := s.phase.on session ev }

def Session.run [CFloat] (session : Session) (fuel : Nat) (s : Exchange) (evs : List Event) :
    Option Exchange :=
  evs.foldlM (session.step fuel) s

def Exchange.start (d : DCtx) : Exchange := ⟨⟨d, [], none⟩, .sending, []⟩

/-! ## Transports that deliver the response -/

def fragments (evs : List Event) : List Bytes :=
  evs.filterMap fun
    | .data srcData _ => some srcData
    | _ => none

def returned (evs : List Event) : List Bool :=
  evs.filterMap fun
    | .sent ok => some ok
    | _ => none

/-- The transport delivers the response, whose last bytes are `last`, before the limit, and
`send` returns once. -/
structure Delivers (es : List (DCtx × Bytes)) (pre : List Event) (last : Bytes)
    (post : List Event) : Prop where
  bytes : (fragments pre).flatten ++ last = streamBytes es
  pieces : ∀ frag ∈ fragments pre, frag ≠ []
  final : last ≠ []
  cuts : ∀ i < (fragments pre).length, SafeCut es ((fragments pre).take (i + 1)).flatten.length
  after : fragments post = []
  sent : (returned (pre ++ post)).length = 1
  inTime : .elapsed ∉ pre

/-- `send` has returned, and the connection was not closed since. -/
def Awaited (pre : List Event) : Prop :=
  ∃ before since, pre = before ++ .sent true :: since ∧ .closed ∉ since

/-! ## The task of `M:send` -/

section Task

variable (session : Session) {evs : List Event} {r : Reply}

variable {phase : Phase}

theorem reply_kept (h : phase.reply = some r) (ev : Event) :
    (phase.on session ev).reply = some r := by
  cases phase with
  | sending => cases h
  | waiting => cases h
  | woken r' => cases ev <;> exact h
  | ended r' => cases ev <;> exact h

theorem reply_kept_all (h : phase.reply = some r) :
    (evs.foldl (Phase.on session) phase).reply = some r := by
  induction evs generalizing phase with
  | nil => exact h
  | cons ev evs ih => exact ih (reply_kept session h ev)

def Phase.Unanswered (phase : Phase) : Prop :=
  ∀ r, phase.reply = some r → ∃ msg, r = .failed msg

theorem signal_unanswered (h : phase.Unanswered) (msg : String) :
    (phase.signal (.failed msg)).Unanswered := by
  cases phase with
  | waiting =>
    intro r hr
    cases hr
    exact ⟨msg, rfl⟩
  | sending => exact h
  | woken r => exact h
  | ended r => exact h

theorem on_unanswered (h : phase.Unanswered) (ev : Event) :
    (phase.on session ev).Unanswered := by
  cases ev with
  | data srcData junk => exact h
  | closed =>
    cases session with
    | default => exact signal_unanswered h _
    | security => exact signal_unanswered h _
  | elapsed => exact signal_unanswered h _
  | sent ok =>
    cases phase with
    | sending =>
      cases ok with
      | true => exact nofun
      | false =>
        intro r hr
        cases hr
        exact ⟨_, rfl⟩
    | waiting => exact h
    | woken r => exact h
    | ended r => exact h
  | resumed =>
    cases phase with
    | woken r => exact h
    | sending => exact h
    | waiting => exact h
    | ended r => exact h

theorem unanswered_all (h : phase.Unanswered) :
    (evs.foldl (Phase.on session) phase).Unanswered := by
  induction evs generalizing phase with
  | nil => exact h
  | cons ev evs ih => exact ih (on_unanswered session h ev)

theorem sending_until_sent (h : returned evs = []) :
    evs.foldl (Phase.on session) .sending = .sending := by
  induction evs with
  | nil => rfl
  | cons ev evs ih =>
    cases ev with
    | sent ok => cases h
    | data srcData junk => exact ih h
    | closed => exact ih h
    | elapsed => exact ih h
    | resumed => exact ih h

theorem waiting_iff (hreturned : returned evs = []) (htime : .elapsed ∉ evs) :
    evs.foldl (Phase.on session) .waiting = .waiting ↔ .closed ∉ evs := by
  induction evs with
  | nil => exact ⟨fun _ => not_mem_nil, fun _ => rfl⟩
  | cons ev evs ih =>
    have htime' : .elapsed ∉ evs := fun h => htime (mem_cons_of_mem _ h)
    have hskip (hne : ev ≠ .closed) : .closed ∉ evs ↔ .closed ∉ ev :: evs :=
      ⟨fun h hc => h ((mem_cons.mp hc).resolve_left hne.symm),
        fun h hc => h (mem_cons_of_mem _ hc)⟩
    cases ev with
    | sent ok => cases hreturned
    | elapsed => exact absurd mem_cons_self htime
    | data srcData junk => exact (ih hreturned htime').trans (hskip nofun)
    | resumed => exact (ih hreturned htime').trans (hskip nofun)
    | closed =>
      refine iff_of_false (fun h => ?_) fun h => h mem_cons_self
      have hwaiting : evs.foldl (Phase.on session) (.woken session.closing) = .waiting := h
      have hkept : (evs.foldl (Phase.on session) (.woken session.closing)).reply =
          some session.closing := reply_kept_all session rfl
      rw [hwaiting] at hkept
      cases hkept

theorem returned_append (evs evs' : List Event) :
    returned (evs ++ evs') = returned evs ++ returned evs' := filterMap_append

theorem split_at_sent {ok : Bool} (h : returned evs = [ok]) :
    ∃ before since, evs = before ++ .sent ok :: since ∧ returned before = [] ∧
      returned since = [] := by
  induction evs with
  | nil => cases h
  | cons ev evs ih =>
    have hskip (hreturned : returned (ev :: evs) = returned evs)
        (hev : ∀ before, returned before = [] → returned (ev :: before) = []) :
        ∃ before since, ev :: evs = before ++ .sent ok :: since ∧ returned before = [] ∧
          returned since = [] := by
      rw [hreturned] at h
      obtain ⟨before, since, rfl, hbefore, hsince⟩ := ih h
      exact ⟨ev :: before, since, rfl, hev before hbefore, hsince⟩
    cases ev with
    | sent ok' =>
      have hcons : ok' :: returned evs = [ok] := h
      obtain ⟨rfl, hnil⟩ := List.cons.inj hcons
      exact ⟨[], evs, rfl, rfl, hnil⟩
    | data srcData junk => exact hskip rfl fun _ hb => hb
    | closed => exact hskip rfl fun _ hb => hb
    | elapsed => exact hskip rfl fun _ hb => hb
    | resumed => exact hskip rfl fun _ hb => hb

/-- The task waits when `send` has returned and the connection was not closed since. -/
theorem waiting_iff_awaited (h : (returned evs).length ≤ 1) (htime : .elapsed ∉ evs) :
    evs.foldl (Phase.on session) .sending = .waiting ↔ Awaited evs := by
  have hsplit {before since : List Event} (heq : evs = before ++ .sent true :: since)
      (hbefore : returned before = []) (hsince : returned since = []) :
      evs.foldl (Phase.on session) .sending = .waiting ↔ .closed ∉ since := by
    have htime' : .elapsed ∉ since := by
      intro hmem
      refine htime ?_
      rw [heq]
      exact mem_append_right _ (mem_cons_of_mem _ hmem)
    rw [heq, foldl_append, sending_until_sent session hbefore]
    exact waiting_iff session hsince htime'
  constructor
  · intro hwaiting
    cases hreturned : returned evs with
    | nil =>
      rw [sending_until_sent session hreturned] at hwaiting
      cases hwaiting
    | cons ok rest =>
      rw [hreturned, length_cons] at h
      rw [length_eq_zero_iff.mp (show rest.length = 0 by omega)] at hreturned
      obtain ⟨before, since, heq, hbefore, hsince⟩ := split_at_sent hreturned
      cases ok with
      | true => exact ⟨before, since, heq, (hsplit heq hbefore hsince).mp hwaiting⟩
      | false =>
        rw [heq, foldl_append, sending_until_sent session hbefore] at hwaiting
        have hkept : (since.foldl (Phase.on session) (.ended (.failed "not sent"))).reply =
            some (.failed "not sent") := reply_kept_all session rfl
        have hfailed : since.foldl (Phase.on session) (.ended (.failed "not sent")) = .waiting :=
          hwaiting
        rw [hfailed] at hkept
        cases hkept
  · rintro ⟨before, since, heq, hopen⟩
    have hreturned : returned evs = returned before ++ true :: returned since := by
      rw [heq, returned_append]
      rfl
    rw [hreturned, length_append, length_cons] at h
    have hbefore := length_eq_zero_iff.mp (show (returned before).length = 0 by omega)
    have hsince := length_eq_zero_iff.mp (show (returned since).length = 0 by omega)
    exact (hsplit heq hbefore hsince).mpr hopen

theorem envelope_phase (v : LuaValue) (s : Exchange) :
    (session.envelope v s).phase = s.phase.signal (session.reply v) := by
  cases session with
  | default => rfl
  | security =>
    unfold Session.envelope
    cases hphase : s.phase with
    | waiting => rfl
    | woken r => rfl
    | sending => rfl
    | ended r => rfl

end Task

/-! ## Runs -/

section Runs

variable [CFloat] (session : Session) {fuel : Nat} {s : Exchange} {evs : List Event}
  {d' : DCtx} {es : List (DCtx × Bytes)} {v : LuaValue} {n : Nat}

theorem run_append (evs evs' : List Event) :
    session.run fuel s (evs ++ evs') =
      (session.run fuel s evs).bind fun s => session.run fuel s evs' :=
  foldlM_append

theorem run_quiet (h : fragments evs = []) :
    session.run fuel s evs =
      some { s with phase := evs.foldl (Phase.on session) s.phase } := by
  induction evs generalizing s with
  | nil => rfl
  | cons ev evs ih =>
    cases ev with
    | data srcData junk => cases h
    | closed => exact ih h
    | sent ok => exact ih h
    | elapsed => exact ih h
    | resumed => exact ih h

/-- While the response is not complete, the events matter for the task alone. -/
theorem run_pending (h : Pending es v d' s.sink n)
    (hbytes : (streamBytes es).take n ++ (fragments evs).flatten =
      (streamBytes es).take (n + (fragments evs).flatten.length))
    (hlt : n + (fragments evs).flatten.length < (streamBytes es).length)
    (hpieces : ∀ frag ∈ fragments evs, frag ≠ [])
    (hcuts : ∀ i < (fragments evs).length,
      SafeCut es (n + ((fragments evs).take (i + 1)).flatten.length))
    (hlen : (streamBytes es).length < 2 ^ 31) (hfuel : es.length ≤ fuel) :
    ∃ s', session.run fuel s evs = some s' ∧
      Pending es v d' s'.sink (n + (fragments evs).flatten.length) ∧
      s'.phase = evs.foldl (Phase.on session) s.phase := by
  induction evs generalizing s n with
  | nil => exact ⟨s, rfl, h, rfl⟩
  | cons ev evs ih =>
    cases ev with
    | data frag junk =>
      have hcons : fragments (.data frag junk :: evs) = frag :: fragments evs := rfl
      rw [hcons, flatten_cons, length_append] at hbytes hlt
      rw [hcons] at hpieces hcuts
      have hfrag : 0 < frag.length :=
        length_pos_iff.mpr (hpieces frag mem_cons_self)
      have hsafe := hcuts 0 (Nat.zero_lt_succ _)
      rw [take_succ_cons, take_zero, flatten_singleton] at hsafe
      have hsrc : (streamBytes es).take n ++ frag = (streamBytes es).take (n + frag.length) := by
        have htake := congrArg (List.take (n + frag.length)) hbytes
        have hn : ((streamBytes es).take n).length = n := by
          rw [length_take]
          omega
        rw [← append_assoc, take_append_of_le_length (by
          rw [length_append, hn]), take_of_length_le (by
          rw [length_append, hn]), take_take, Nat.min_eq_left (by omega)] at htake
        exact htake
      obtain ⟨st, hsink, hpending⟩ :=
        Sink.sink_waits h (by omega) (by omega) hsrc hsafe (by omega) hfuel junk
      have hstep : session.step fuel s (.data frag junk) = some { s with sink := st } := by
        rw [Session.step, session.sink_waits hsink]
        rfl
      have hrest : (streamBytes es).take (n + frag.length) ++ (fragments evs).flatten =
          (streamBytes es).take (n + frag.length + (fragments evs).flatten.length) := by
        rw [← hsrc, append_assoc, Nat.add_assoc]
        exact hbytes
      obtain ⟨s', hrun, hpending', hphase⟩ := ih (s := { s with sink := st }) hpending hrest
        (by omega) (fun f hf => hpieces f (mem_cons_of_mem _ hf)) (by
          intro i hi
          have hcut := hcuts (i + 1) (Nat.succ_lt_succ hi)
          rw [take_succ_cons, flatten_cons, length_append] at hcut
          rw [Nat.add_assoc]
          exact hcut)
      refine ⟨s', ?_, ?_, hphase⟩
      · rw [Session.run, foldlM_cons, hstep]
        exact hrun
      · rw [hcons, flatten_cons, length_append, ← Nat.add_assoc]
        exact hpending'
    | closed => exact ih h hbytes hlt hpieces hcuts
    | sent ok => exact ih h hbytes hlt hpieces hcuts
    | elapsed => exact ih h hbytes hlt hpieces hcuts
    | resumed => exact ih h hbytes hlt hpieces hcuts

/-- The task of `M:send` after a transport has delivered the response. -/
theorem run_delivery {d : DCtx} (h : Envelope d es v d') (hv : session.Accepts v)
    (hlen : (streamBytes es).length < 2 ^ 31) (hfuel : es.length ≤ fuel) {pre post : List Event}
    {last : Bytes} (hdelivers : Delivers es pre last post) (junk : Data) :
    ∃ s, session.run fuel (.start d) (pre ++ .data last junk :: post) = some s ∧
      s.phase = post.foldl (Phase.on session)
        ((pre.foldl (Phase.on session) .sending).signal (session.reply v)) := by
  have hbytes := hdelivers.bytes
  have hlast : 0 < last.length := length_pos_iff.mpr hdelivers.final
  have hsize := congrArg List.length hbytes
  rw [length_append] at hsize
  have hpre : (fragments pre).flatten =
      (streamBytes es).take (0 + (fragments pre).flatten.length) := by
    rw [← hbytes, Nat.zero_add, take_left]
  have hfresh : Pending es v d' (Exchange.start d).sink 0 := .fresh h h.pos
  obtain ⟨s, hrun, hpending, hphase⟩ := run_pending session hfresh hpre (by omega)
    hdelivers.pieces (by
      intro i hi
      rw [Nat.zero_add]
      exact hdelivers.cuts i hi) hlen hfuel
  have hall : streamBytes es ++ [] = streamBytes es := append_nil _
  have hsink := sink_completes hpending
    (show (streamBytes es).take (0 + (fragments pre).flatten.length) ++ last = streamBytes es ++ []
      by rw [← hpre, hbytes, hall]) (by rw [hall]; exact hlen) hfuel junk
  have hstep : session.step fuel s (.data last junk) =
      some (session.envelope v { s with sink := ⟨d', [], none⟩ }) := by
    rw [Session.step, Session.sink_envelope hsink hv]
    rfl
  have hrest : session.run fuel (.start d) (pre ++ .data last junk :: post) =
      session.run fuel (session.envelope v { s with sink := ⟨d', [], none⟩ }) post := by
    rw [run_append, hrun, Option.bind_some, Session.run, foldlM_cons, hstep]
    rfl
  rw [hrest, run_quiet session hdelivers.after]
  refine ⟨_, rfl, ?_⟩
  rw [envelope_phase]
  show post.foldl _ (s.phase.signal _) = post.foldl _ _
  rw [hphase]
  rfl

end Runs

/-- Every transport that delivers the complete response, in any fragments and while `send` runs
or later: `M:send` gets it as the response to its request exactly when the last fragment comes
while it waits. -/
theorem reply_received_iff [CFloat] (session : Session) {d d' : DCtx} {es : List (DCtx × Bytes)}
    {v : LuaValue} (h : Envelope d es v d') (hv : session.Accepts v)
    (hlen : (streamBytes es).length < 2 ^ 31) {fuel : Nat} (hfuel : es.length ≤ fuel)
    {pre post : List Event} {last : Bytes} (hdelivers : Delivers es pre last post) (junk : Data) :
    ∃ s, session.run fuel (.start d) (pre ++ .data last junk :: post) = some s ∧
      (s.phase.reply = some (session.reply v) ↔ Awaited pre) := by
  obtain ⟨s, hrun, hphase⟩ := run_delivery session h hv hlen hfuel hdelivers junk
  refine ⟨s, hrun, ?_⟩
  have hreturned : (returned pre).length ≤ 1 := by
    have hsent := hdelivers.sent
    rw [returned_append, length_append] at hsent
    omega
  rw [← waiting_iff_awaited session hreturned hdelivers.inTime, hphase]
  have hbefore : (pre.foldl (Phase.on session) .sending).Unanswered :=
    unanswered_all session (show Phase.sending.Unanswered from nofun)
  generalize pre.foldl (Phase.on session) .sending = phase at hbefore
  constructor
  · intro hreply
    by_contra hnot
    have hlost : phase.signal (session.reply v) = phase := by
      cases phase with
      | waiting => exact absurd rfl hnot
      | sending => rfl
      | woken r => rfl
      | ended r => rfl
    rw [hlost] at hreply
    obtain ⟨msg, hfailed⟩ := unanswered_all session hbefore _ hreply
    cases session with
    | default => cases hfailed
    | security => cases hfailed
  · rintro rfl
    exact reply_kept_all session rfl

/-- The transport over HTTP calls the sink with the whole response, and without data at its end,
before `send` returns: `M:send` waits for nothing. -/
theorem http_reply_missed [CFloat] (session : Session) {d d' : DCtx} {es : List (DCtx × Bytes)}
    {v : LuaValue} (h : Envelope d es v d') (hv : session.Accepts v)
    (hlen : (streamBytes es).length < 2 ^ 31) {fuel : Nat} (hfuel : es.length ≤ fuel)
    {frags : List (Bytes × Data)} {last : Bytes}
    (hdelivers : Delivers es (frags.map fun frag => .data frag.1 frag.2) last
      [.closed, .sent true, .elapsed, .resumed]) (junk : Data) :
    ∃ s, session.run fuel (.start d) ((frags.map fun frag => .data frag.1 frag.2) ++
        .data last junk :: [.closed, .sent true, .elapsed, .resumed]) = some s ∧
      s.phase = .ended (.failed "timeout") := by
  obtain ⟨s, hrun, hphase⟩ := run_delivery session h hv hlen hfuel hdelivers junk
  have hsending : (frags.map fun frag => Event.data frag.1 frag.2).foldl (Phase.on session)
      .sending = .sending := by
    refine sending_until_sent session ?_
    rw [returned, filterMap_map]
    exact filterMap_eq_nil_iff.mpr fun _ _ => rfl
  refine ⟨s, hrun, ?_⟩
  rw [hphase, hsending]
  rfl

/-! ## An example, and a response that comes too early -/

section

local instance : CFloat := oneAndAHalf

theorem sample_cut {n : Nat} (hn : n = 2) :
    SafeCut (elements deserializer [] sampleElements) n := by
  subst hn
  exact Or.inl rfl

theorem reply_received_iff_halves : ∃ s,
    Session.default.run 7 (.start deserializer)
        ([.data [0x60, 0x83] blankData, .sent true] ++ .data [0x01, 0x83] blankData :: [.resumed]) =
      some s ∧
      (s.phase.reply = some (Session.default.reply sampleValue) ↔
        Awaited [.data [0x60, 0x83] blankData, .sent true]) := by
  refine reply_received_iff .default envelope_first nofun (by decide) (Nat.le_refl 7) ?_ blankData
  refine ⟨rfl, by decide, nofun, fun i hi => sample_cut ?_, rfl, rfl, nofun⟩
  have h0 : i = 0 := Nat.lt_one_iff.mp hi
  rw [h0]
  rfl

/-- Over HTTP the sample envelope is not taken for the response, in both sessions. -/
theorem early_reply_missed : ¬ ∃ session : Session,
    ∀ (pre post : List Event) (last : Bytes),
      Delivers (elements deserializer [] sampleElements) pre last post →
      ∃ s, session.run 7 (.start deserializer) (pre ++ .data last blankData :: post) = some s ∧
        s.phase.reply = some (session.reply sampleValue) := by
  rintro ⟨session, hall⟩
  have hdelivers : Delivers (elements deserializer [] sampleElements)
      ([([0x60, 0x83], blankData)].map fun frag => .data frag.1 frag.2) [0x01, 0x83]
      [.closed, .sent true, .elapsed, .resumed] := by
    refine ⟨rfl, by decide, nofun, fun i hi => sample_cut ?_, rfl, rfl, nofun⟩
    have h0 : i = 0 := Nat.lt_one_iff.mp hi
    rw [h0]
    rfl
  have hv : session.Accepts sampleValue := by
    cases session with
    | default => exact nofun
    | security => trivial
  obtain ⟨s, hrun, hphase⟩ :=
    http_reply_missed session envelope_first hv (by decide) (Nat.le_refl 7) hdelivers blankData
  obtain ⟨s', hrun', hreply⟩ := hall _ _ _ hdelivers
  rw [hrun] at hrun'
  cases hrun'
  rw [hphase] at hreply
  cases session <;> cases hreply

end

end Mihini.M3da.Sink
