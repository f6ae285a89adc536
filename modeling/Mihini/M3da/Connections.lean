import Mihini.Bysant.Independence
import Mihini.M3da.Fragments

/-!
# Connections, one after the other

What a connection leaves in the sink.  After connections that end where an envelope ends, the
sink works as a new one: it depends on the bytes of the next connection only.  One that ends
inside an envelope, or on invalid bytes, changes what the next one gives.
-/

open Mihini.Bysant List Option

namespace Mihini.M3da.Sink

/-! ## Sinks that agree -/

inductive Agree {α σ : Type} (R : σ → σ → Prop) : Option (α × σ) → Option (α × σ) → Prop
  | none : Agree R none none
  | some (a : α) {s s' : σ} (h : R s s') : Agree R (some (a, s)) (some (a, s'))

theorem Agree.bind {α β σ τ : Type} {R : σ → σ → Prop} {Q : τ → τ → Prop}
    {r r' : Option (α × σ)} (h : Agree R r r') {k k' : α × σ → Option (β × τ)}
    (hk : ∀ a s s', R s s' → Agree Q (k (a, s)) (k' (a, s'))) :
    Agree Q (r.bind k) (r'.bind k') := by
  cases h with
  | none => exact .none
  | some a h => exact hk a _ _ h

theorem Agree.map_eq {α σ : Type} {R : σ → σ → Prop} {r r' : Option (α × σ)}
    (h : Agree R r r') : r.map (·.1) = r'.map (·.1) := by
  cases h with
  | none => rfl
  | some a h => rfl

structure SinkState.Like (s s' : SinkState) : Prop where
  ctx : Alike 0 s.ctx s'.ctx
  pendingData : s.pendingData = s'.pendingData
  hibernated : s.hibernated = s'.hibernated

theorem SinkState.Like.trans {s s' s'' : SinkState} (h : s.Like s') (h' : s'.Like s'') :
    s.Like s'' :=
  ⟨h.ctx.trans h'.ctx, h.pendingData.trans h'.pendingData, h.hibernated.trans h'.hibernated⟩

section
variable [CFloat]

theorem deserializeLoop_alike (buffer : Bytes) {c c' : DCtx} (h : Alike 0 c c') (fuel : Nat)
    (data : Data) (stack : List Slot) (offset : Nat) :
    Agree (Alike 0) (deserializeLoop buffer fuel c data stack offset)
      (deserializeLoop buffer fuel c' data stack offset) := by
  induction fuel generalizing c c' data stack offset with
  | zero => exact .none
  | succ fuel ih =>
    have hread := bsdRead_alike h data (buffer.drop offset) (intOfSize (buffer.length - offset))
    rw [deserializeLoop, deserializeLoop]
    revert hread
    generalize bsdRead c data (buffer.drop offset) (intOfSize (buffer.length - offset)) = r
    generalize bsdRead c' data (buffer.drop offset) (intOfSize (buffer.length - offset)) = r'
    intro hread
    cases hread with
    | none => exact .none
    | @some n x d d' h _ =>
      simp only [bind_eq_bind, bind_some]
      by_cases hn : n < 0
      · rw [if_pos hn, if_pos hn]
        exact .some _ h
      rw [if_neg hn, if_neg hn]
      cases bysant2lua x stack with
      | none => exact .none
      | some result =>
        cases result with
        | error msg => exact .some _ (bsdInit_alike _ _)
        | ok stack =>
          simp only [bind_some, ← h.stacksize]
          by_cases hmore : 0 < d.stacksize ∨ x.type = .classdef
          · rw [if_pos hmore, if_pos hmore]
            exact ih h x stack _
          · rw [if_neg hmore, if_neg hmore]
            split
            · exact .some _ h
            · exact .none

theorem deserialize_alike {c c' : DCtx} (h : Alike 0 c c') (fuel : Nat) (data : Data)
    (buffer : Bytes) (hibernated : Option Hibernated) :
    Agree (Alike 0) (deserialize fuel c data buffer hibernated)
      (deserialize fuel c' data buffer hibernated) := by
  unfold deserialize
  rw [← h.stacksize]
  cases hibernated with
  | none =>
    dsimp only
    split
    · exact .some _ h
    · split
      · exact .some _ h
      · exact deserializeLoop_alike buffer h fuel data [] 0
  | some hib =>
    dsimp only
    split
    · exact .some _ h
    · split
      · exact .some _ h
      · exact deserializeLoop_alike buffer h fuel data _ _

theorem sink_like {s s' : SinkState} (h : s.Like s') (session : Session) (fuel : Nat)
    (data : Data) (srcData : Bytes) :
    Agree SinkState.Like (session.sink fuel s data srcData)
      (session.sink fuel s' data srcData) := by
  obtain ⟨c, pendingData, hibernated⟩ := s
  obtain ⟨c', pendingData', hibernated'⟩ := s'
  obtain ⟨hctx, rfl, rfl⟩ := h
  have hdata := deserialize_alike hctx fuel data (pendingData ++ srcData) hibernated
  cases session with
  | security =>
    show Agree _ (sink _ _ _ _) (sink _ _ _ _)
    unfold sink
    refine hdata.bind fun result c c' hc => ?_
    cases result with
    | value v offset =>
      dsimp only
      split
      · exact .some _ ⟨hc, rfl, rfl⟩
      · exact .some _ ⟨hc, rfl, rfl⟩
    | suspended hib => exact .some _ ⟨hc, rfl, rfl⟩
    | nothing offset => exact .some _ ⟨hc, rfl, rfl⟩
    | error msg => exact .some _ ⟨hc, rfl, rfl⟩
  | default =>
    show Agree _ (defaultSink _ _ _ _) (defaultSink _ _ _ _)
    unfold defaultSink
    refine hdata.bind fun result c c' hc => ?_
    cases result with
    | value v offset =>
      dsimp only
      split
      · cases headerStatus v with
        | none => exact .some _ ⟨hc, rfl, rfl⟩
        | some status => exact .some _ ⟨hc, rfl, rfl⟩
      · exact .some _ ⟨hc, rfl, rfl⟩
    | suspended hib => exact .some _ ⟨hc, rfl, rfl⟩
    | nothing offset => exact .some _ ⟨hc, rfl, rfl⟩
    | error msg => exact .some _ ⟨hc, rfl, rfl⟩

theorem feed_like {s s' : SinkState} (h : s.Like s') (session : Session) (fuel : Nat)
    (junk : Nat → Data) (frags : List Bytes) :
    Agree SinkState.Like (session.feed fuel junk s frags) (session.feed fuel junk s' frags) := by
  induction frags generalizing s s' with
  | nil => exact .some [] h
  | cons frag frags ih =>
    rw [Session.feed, Session.feed]
    refine (sink_like h session fuel _ frag).bind fun outcome s s' h => ?_
    cases outcome with
    | refused msg => exact .some [] h
    | raises msg => exact .some [] h
    | waits => exact ih h
    | envelope v => exact (ih h).bind fun vs s s' h => .some _ h

/-! ## Envelopes that define no class -/

def Plain (d : DCtx) (e : Bytes) : Prop :=
  ∀ x n x' d', bsdRead d x e (-2) = some (n, x', d') → x'.type ≠ .classdef

variable {d d' : DCtx}

theorem Reads.keeps {s s' : List Slot} {e : Bytes} (h : Reads d s e s' d')
    (hplain : Plain d e) (hbottom : (d.stack 0).Bottom) :
    (d'.stack 0).Bottom ∧ SameClasses d d' := by
  obtain ⟨x', hread, herr, -, -⟩ := h blankData
  have hself := bsdRead_alike (.refl 0 hbottom) blankData e (-2)
  have hdef := hplain _ _ _ _ hread
  rw [hread] at hself
  cases hself with
  | some hd hkept => exact ⟨hd.bottom, hkept herr (Or.inr hdef)⟩

theorem Rest.keeps {s : List Slot} {es : List (DCtx × Bytes)} {v : LuaValue}
    (h : Rest d s es v d') (hplain : ∀ p ∈ es, Plain p.1 p.2) (hbottom : (d.stack 0).Bottom) :
    d'.stacksize = 0 ∧ (d'.stack 0).Bottom ∧ SameClasses d d' := by
  induction h with
  | last h hend => exact ⟨hend, h.keeps (hplain _ mem_cons_self) hbottom⟩
  | cons h hmore hrest ih =>
    obtain ⟨hbottom', hsame⟩ := h.keeps (hplain _ mem_cons_self) hbottom
    obtain ⟨hend, hbottom'', hsame'⟩ :=
      ih (fun p hp => hplain p (mem_cons_of_mem _ hp)) hbottom'
    exact ⟨hend, hbottom'', hsame.trans hsame'⟩

theorem Envelopes.keeps {envs : List (List (DCtx × Bytes) × LuaValue)}
    (h : Envelopes d envs d') (hplain : ∀ env ∈ envs, ∀ p ∈ env.1, Plain p.1 p.2)
    (hd : d.Idle) : d'.Idle ∧ SameClasses d d' := by
  induction h with
  | nil d => exact ⟨hd, rfl, rfl⟩
  | cons h hrest ih =>
    obtain ⟨hend, hbottom, hsame⟩ := h.rest.keeps (hplain _ mem_cons_self) hd.bottom
    obtain ⟨hidle, hsame'⟩ :=
      ih (fun env henv => hplain env (mem_cons_of_mem _ henv)) ⟨hend, hbottom⟩
    exact ⟨hidle, hsame.trans hsame'⟩

/-! ## Connections that end where an envelope ends -/

def Session.Accepts : Session → LuaValue → Prop
  | .default, v => headerStatus v ≠ none
  | .security, _ => True

/-- The connection carries the envelopes, all of them to their end, and each fragment is one that
the sink deals with (`Fair`); the envelopes define no class. -/
structure Complete (session : Session) (fuel : Nat) (d : DCtx) (c : Connection)
    (envs : List (List (DCtx × Bytes) × LuaValue)) : Prop where
  envelopes : ∃ d', Envelopes d envs d'
  bytes : c.fragments.flatten = envelopeBytes envs
  fragments : ∀ frag ∈ c.fragments, frag ≠ []
  fair : ∀ i < c.fragments.length,
    Fair envs (c.fragments.take i).flatten.length (c.fragments.take (i + 1)).flatten.length
  plain : ∀ env ∈ envs, ∀ p ∈ env.1, Plain p.1 p.2
  accepts : ∀ env ∈ envs, session.Accepts env.2
  fuel : ∀ env ∈ envs, env.1.length ≤ fuel

end

theorem received_all (envs : List (List (DCtx × Bytes) × LuaValue)) :
    received envs (envelopeBytes envs).length = envs.map (·.2) ∧
      remaining envs (envelopeBytes envs).length = [] ∧
      leftover envs (envelopeBytes envs).length = 0 := by
  induction envs with
  | nil => exact ⟨rfl, rfl, rfl⟩
  | cons env envs ih =>
    obtain ⟨es, v⟩ := env
    have hsplit : (envelopeBytes ((es, v) :: envs)).length =
        (streamBytes es).length + (envelopeBytes envs).length := by
      rw [show envelopeBytes ((es, v) :: envs) = streamBytes es ++ envelopeBytes envs from rfl,
        length_append]
    have hle : (streamBytes es).length ≤ (streamBytes es).length + (envelopeBytes envs).length :=
      Nat.le_add_right _ _
    rw [hsplit, received, remaining, leftover, if_pos hle, if_pos hle, if_pos hle,
      Nat.add_sub_cancel_left]
    exact ⟨congrArg (v :: ·) ih.1, ih.2⟩

section
variable [CFloat]

variable {fuel : Nat} {s s' : SinkState} {frag : Bytes} {x : Data}

theorem defaultSink_waits
    (h : sink fuel s x frag = some (.waits, s')) :
    defaultSink fuel s x frag = some (.waits, s') := by
  obtain ⟨⟨result, c⟩, hdes, h⟩ := bind_eq_some_iff.mp h
  simp only [defaultSink, hdes, bind_eq_bind, bind_some]
  cases result with
  | suspended hib => exact h
  | value v offset =>
    dsimp only at h
    split at h <;> cases h
  | nothing offset => cases h
  | error msg => cases h

theorem defaultSink_envelope
    {v : LuaValue} (h : sink fuel s x frag = some (.envelope v, s'))
    (hv : headerStatus v ≠ none) : defaultSink fuel s x frag = some (.envelope v, s') := by
  obtain ⟨⟨result, c⟩, hdes, h⟩ := bind_eq_some_iff.mp h
  simp only [defaultSink, hdes, bind_eq_bind, bind_some]
  cases result with
  | value w offset =>
    dsimp only at h ⊢
    split at h
    · next htruthy =>
      cases h
      rw [if_pos htruthy]
      cases hstatus : headerStatus v with
      | none => exact absurd hstatus hv
      | some status => rfl
    · cases h
  | suspended hib => cases h
  | nothing offset => cases h
  | error msg => cases h

theorem Session.sink_waits (session : Session)
    (h : Sink.sink fuel s x frag = some (.waits, s')) :
    session.sink fuel s x frag = some (.waits, s') := by
  cases session with
  | default => exact defaultSink_waits h
  | security => exact h

variable {session : Session}

theorem Session.sink_envelope
    {v : LuaValue} (h : Sink.sink fuel s x frag = some (.envelope v, s'))
    (hv : session.Accepts v) : session.sink fuel s x frag = some (.envelope v, s') := by
  cases session with
  | default => exact defaultSink_envelope h hv
  | security => exact h

theorem Fed.feed {junk : Nat → Data}
    {frags : List Bytes} {vs : List LuaValue} (h : Fed fuel junk s frags vs s')
    (hvs : ∀ v ∈ vs, session.Accepts v) :
    session.feed fuel junk s frags = some (vs, s') := by
  induction h with
  | nil s => rfl
  | waits h hrest ih =>
    rw [Session.feed, session.sink_waits h]
    exact ih hvs
  | envelope h hrest ih =>
    rw [Session.feed, Session.sink_envelope h (hvs _ mem_cons_self), bind_eq_bind,
      bind_some]
    simp only [ih fun v hv => hvs v (mem_cons_of_mem _ hv), bind_eq_bind,
      bind_some]

/-- A complete connection hands its envelopes over, and leaves a sink like the one it found. -/
theorem Complete.connection {d : DCtx} {c : Connection}
    {envs : List (List (DCtx × Bytes) × LuaValue)} (h : Complete session fuel d c envs)
    (hd : d.Idle) :
    ∃ s, session.connection fuel ⟨d, [], none⟩ c = some (envs.map (·.2), s) ∧
      SinkState.Like ⟨d, [], none⟩ s := by
  obtain ⟨d', henvs⟩ := h.envelopes
  obtain ⟨hreceived, hremaining, hleftover⟩ := received_all envs
  obtain ⟨s, hfed, hwait⟩ := henvs.fed
    (by rw [h.bytes, take_length]) h.fragments h.fair h.fuel c.junk
  rw [h.bytes] at hfed hwait
  rw [hreceived] at hfed
  rw [hremaining, hleftover] at hwait
  have hvs : ∀ v ∈ envs.map (·.2), session.Accepts v := by
    intro v hv
    obtain ⟨env, henv, rfl⟩ := mem_map.mp hv
    exact h.accepts env henv
  refine ⟨s, hfed.feed hvs, ?_⟩
  cases hwait with
  | idle =>
    obtain ⟨hidle, hsame⟩ := henvs.keeps h.plain hd
    exact ⟨hd.alike hidle hsame, rfl, rfl⟩

/-- Whatever complete connections come, each leaves a sink like a new one. -/
theorem connections_like {d : DCtx} (hd : d.Idle)
    {earlier : List Connection}
    (hearlier : ∀ c ∈ earlier, ∃ envs, Complete session fuel d c envs) {s : SinkState}
    (hs : SinkState.Like ⟨d, [], none⟩ s) :
    ∃ s', session.connections fuel s earlier = some s' ∧ SinkState.Like ⟨d, [], none⟩ s' := by
  induction earlier generalizing s with
  | nil => exact ⟨s, rfl, hs⟩
  | cons c cs ih =>
    obtain ⟨envs, hcomplete⟩ := hearlier c mem_cons_self
    obtain ⟨s₁, hnew, hlike⟩ := hcomplete.connection hd
    have hfeed := feed_like hs session fuel c.junk c.fragments
    rw [show session.feed fuel c.junk ⟨d, [], none⟩ c.fragments = _ from hnew] at hfeed
    rw [Session.connections, Session.connection]
    generalize session.feed fuel c.junk s c.fragments = r at hfeed
    cases hfeed with
    | some vs hagree =>
      exact ih (fun c' hc' => hearlier c' (mem_cons_of_mem _ hc')) (hlike.trans hagree)

end

/-- After connections that were complete, the envelopes of the next one, whatever it carries, are
those that a new sink gives for it; when it is complete too, they are the envelopes it carries. -/
theorem connections_independent [CFloat] (session : Session) (fuel : Nat) (d : DCtx)
    (hd : d.Idle) (earlier : List Connection)
    (hearlier : ∀ c ∈ earlier, ∃ envs, Complete session fuel d c envs) :
    ∃ s, session.connections fuel ⟨d, [], none⟩ earlier = some s ∧
      ∀ c : Connection,
        (session.connection fuel s c).map (·.1) =
          (session.connection fuel ⟨d, [], none⟩ c).map (·.1) ∧
        ∀ envs, Complete session fuel d c envs →
          (session.connection fuel s c).map (·.1) = some (envs.map (·.2)) := by
  obtain ⟨s, hs, hlike⟩ := connections_like hd hearlier
    (show SinkState.Like ⟨d, [], none⟩ ⟨d, [], none⟩ from ⟨.refl 0 hd.bottom, rfl, rfl⟩)
  have hsame (c : Connection) : (session.connection fuel s c).map (·.1) =
      (session.connection fuel ⟨d, [], none⟩ c).map (·.1) :=
    (feed_like hlike session fuel c.junk c.fragments).map_eq.symm
  refine ⟨s, hs, fun c => ⟨hsame c, fun envs hcomplete => ?_⟩⟩
  obtain ⟨s', hnew, -⟩ := hcomplete.connection hd
  rw [hsame c, hnew]
  rfl

/-! ## An example, and a connection that is cut -/

section

local instance : CFloat := oneAndAHalf

theorem deserializer_idle : deserializer.Idle := ⟨rfl, ⟨rfl, rfl, rfl⟩⟩

theorem plain_of_read {d : DCtx} {e : Bytes}
    (h : ∀ x, ∃ r, bsdRead d x e (-2) = some r ∧ r.2.1.type ≠ .classdef) : Plain d e := by
  intro x n x' d' hread
  obtain ⟨r, hr, htype⟩ := h x
  rw [hr] at hread
  cases hread
  exact htype

theorem elements_plain {d : DCtx} {s : List Slot} {e : Bytes} {es : List Bytes}
    (h : Plain d e)
    (hrest : ∀ p ∈ elements (afterElement d s e).2 (afterElement d s e).1 es, Plain p.1 p.2) :
    ∀ p ∈ elements d s (e :: es), Plain p.1 p.2 :=
  forall_mem_cons.mpr ⟨h, hrest⟩

theorem sampleElements_plain :
    ∀ p ∈ elements deserializer [] sampleElements, Plain p.1 p.2 := by
  refine elements_plain (plain_of_read fun x => ⟨_, rfl, nofun⟩) ?_
  refine elements_plain (plain_of_read fun x => ⟨_, rfl, nofun⟩) ?_
  refine elements_plain (plain_of_read fun x => ⟨_, rfl, nofun⟩) ?_
  refine elements_plain (plain_of_read fun x => ⟨_, rfl, nofun⟩) ?_
  refine elements_plain (plain_of_read fun x => ⟨_, rfl, nofun⟩) ?_
  refine elements_plain (plain_of_read fun x => ⟨_, rfl, nofun⟩) ?_
  exact elements_plain (plain_of_read fun x => ⟨_, rfl, nofun⟩) nofun

def halves : Connection := ⟨[[0x60, 0x83], [0x01, 0x83]], fun _ => blankData⟩

theorem halves_complete (session : Session) : Complete session 7 deserializer halves
    [(elements deserializer [] sampleElements, sampleValue)] where
  envelopes := ⟨secondContext, .cons envelope_first (.nil _)⟩
  bytes := rfl
  fragments := by decide
  fair := by
    intro i hi
    have hcases : i = 0 ∨ i = 1 := by
      simp only [halves, length_cons, length_nil] at hi
      omega
    rcases hcases with rfl | rfl
    · exact ⟨by decide, fun _ => Or.inl rfl, by decide⟩
    · exact ⟨by decide, nofun, by decide⟩
  plain := by
    intro env henv
    rw [mem_singleton.mp henv]
    exact sampleElements_plain
  accepts := by
    intro env henv
    rw [mem_singleton.mp henv]
    cases session with
    | default => exact nofun
    | security => trivial
  fuel := by
    intro env henv
    rw [mem_singleton.mp henv]
    exact Nat.le_refl 7

theorem connections_independent_halves : ∃ s,
    Session.default.connections 7 ⟨deserializer, [], none⟩ [halves, halves] = some s ∧
      ∀ c : Connection,
        (Session.default.connection 7 s c).map (·.1) =
          (Session.default.connection 7 ⟨deserializer, [], none⟩ c).map (·.1) ∧
        ∀ envs, Complete .default 7 deserializer c envs →
          (Session.default.connection 7 s c).map (·.1) = some (envs.map (·.2)) := by
  refine connections_independent .default 7 deserializer deserializer_idle [halves, halves] ?_
  intro c hc
  have heq : c = halves := by
    rcases mem_cons.mp hc with hc | hc
    · exact hc
    · exact mem_singleton.mp hc
  exact ⟨_, heq ▸ halves_complete .default⟩

/-- After a connection that is cut inside an envelope, or one with invalid bytes, a whole envelope
is not handed over. -/
theorem cut_connection_changes_next : ¬ ∃ session : Session,
    ∃ bytes ∈ ([[0x60], [0x5f]] : List Bytes), ∀ s : SinkState,
      session.connections 7 ⟨deserializer, [], none⟩ [⟨[bytes], fun _ => blankData⟩] = some s →
      ∀ c : Connection,
      (session.connection 7 s c).map (·.1) =
        (session.connection 7 ⟨deserializer, [], none⟩ c).map (·.1) := by
  rintro ⟨session, bytes, hbytes, hall⟩
  have hstates : ∀ bytes ∈ ([[0x60], [0x5f]] : List Bytes),
      (session.connections 7 ⟨deserializer, [], none⟩
        [⟨[bytes], fun _ => blankData⟩]).isSome = true := by
    cases session <;> decide +kernel
  have hlost : ∀ bytes ∈ ([[0x60], [0x5f]] : List Bytes),
      ((session.connections 7 ⟨deserializer, [], none⟩
        [⟨[bytes], fun _ => blankData⟩]).bind fun s =>
          ((session.connection 7 s halves).map (·.1)).map List.length) = some 0 := by
    cases session <;> decide +kernel
  have hnew : ((session.connection 7 ⟨deserializer, [], none⟩ halves).map (·.1)).map
      List.length = some 1 := by
    cases session <;> decide +kernel
  obtain ⟨s, hs⟩ := isSome_iff_exists.mp (hstates bytes hbytes)
  have hafter := hlost bytes hbytes
  have heq := congrArg (Option.map List.length) (hall s hs halves)
  rw [hs, bind_some] at hafter
  rw [hnew, hafter] at heq
  cases heq

end

end Mihini.M3da.Sink
