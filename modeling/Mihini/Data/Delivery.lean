import Mathlib.Data.List.Nodup
import Mihini.Data.Acks

/-!
# Acknowledgements are delivered once

What ties the responses on their way to the acknowledgements in the stores, kept by every
orderly event.
-/

namespace Mihini.Data.Acks

open Lib List

section

variable {policies : List Str} {tonumber : Str → Option Int}

def State.onTheWay (s : State) : List Pushed := s.sourcefactories ++ s.session.getD []

structure Inv (policies : List Str) (tonumber : Str → Option Int) (w : World) : Prop where
  fresh : ∀ e ∈ w.given, e.2.id < w.state.created
  flushedFresh : ∀ n ∈ w.flushed, n < w.state.created
  acceptedFresh : ∀ n ∈ w.accepted, n < w.state.created
  unique : ∀ e ∈ w.given, ∀ e' ∈ w.given, e.2.id = e'.2.id → e = e'
  stored : ∀ slot x, w.state.store.lookup slot = some x → (slot, x) ∈ w.given
  pushed : ∀ p ∈ w.state.onTheWay, p.item ∈ w.flushed ∧ ∃ x, w.state.store.lookup p.slot = some x ∧
    p.item = x.id ∧ p.response = respond tonumber x
  queued : ∀ slot x, w.state.store.lookup slot = some x → x.id ∈ w.flushed →
    x.id ∈ w.state.onTheWay.map Pushed.item
  nodup : (w.state.onTheWay.map Pushed.item).Nodup
  delivered : Delivered tonumber w

variable {policy : Str}

theorem mem_acksOf {s : State} {e : Slot × Item} :
    e ∈ acksOf s policy ↔ s.store.lookup e.1 = some e.2 ∧ e.1.policy = policy := by
  rw [acksOf, mem_filter, decide_eq_true_iff, mem_map]
  refine and_congr_left fun _ => ?_
  constructor
  · rintro ⟨e', he', rfl⟩
    exact LuaTable.mem_entries_iff.mp he'
  · exact fun h => ⟨⟨e.1, e.2⟩, LuaTable.mem_entries_iff.mpr h, rfl⟩

variable {w : World}

theorem nodup_acksOf (hinv : Inv policies tonumber w) (policy : Str) :
    ((acksOf w.state policy).map fun e => e.2.id).Nodup := by
  have hslots : (acksOf w.state policy).Nodup := by
    have hkeys := w.state.store.nodupKeys
    rw [List.NodupKeys, List.keys] at hkeys
    rw [acksOf]
    refine List.Nodup.filter _ (List.Nodup.of_map (fun e => e.1) ?_)
    rwa [map_map]
  refine List.Nodup.map_on (fun e he e' he' heq => ?_) hslots
  exact hinv.unique e (hinv.stored _ _ (mem_acksOf.mp he).1) e' (hinv.stored _ _ (mem_acksOf.mp he').1)
    heq

theorem Inv.init : Inv policies tonumber World.init := by
  refine ⟨nofun, nofun, nofun, nofun, ?_, nofun, ?_, nodup_nil, ⟨nofun, nofun⟩⟩
  · intro slot x h
    nomatch h
  · intro slot x h
    nomatch h

/-! ## Commands and flushes -/

theorem Inv.acknowledge (hinv : Inv policies tonumber w) {x : Command}
    (hfree : w.state.store.lookup (slotOf x) = none) :
    Inv policies tonumber (step policies tonumber w (.acknowledge x)) := by
  by_cases hpolicy : (slotOf x).policy ∈ policies
  swap
  · have hsame : step policies tonumber w (.acknowledge x) = w := by
      simp only [step, pAcknowledge, if_neg hpolicy]
    rw [hsame]
    exact hinv
  have hstep : step policies tonumber w (.acknowledge x) =
      { w with
        state :=
          { w.state with
            store := w.state.store.insert (slotOf x) (itemOf w.state x)
            created := w.state.created + 1 }
        given := w.given ++ [(slotOf x, itemOf w.state x)] } := by
    simp only [step, pAcknowledge, if_pos hpolicy]
  rw [hstep]
  have hid : (itemOf w.state x).id = w.state.created := rfl
  have hother : ∀ slot, slot ≠ slotOf x →
      (w.state.store.insert (slotOf x) (itemOf w.state x)).lookup slot = w.state.store.lookup slot :=
    fun slot hne => AList.lookup_insert_ne hne
  have hgiven : ∀ e, e ∈ w.given ++ [(slotOf x, itemOf w.state x)] ↔
      e ∈ w.given ∨ e = (slotOf x, itemOf w.state x) := fun e => by
    rw [mem_append, mem_singleton]
  refine ⟨?_, ?_, ?_, ?_, ?_, ?_, ?_, hinv.nodup, ⟨hinv.delivered.once, ?_⟩⟩
  · intro e he
    rcases (hgiven e).mp he with he | rfl
    · exact Nat.lt_succ_of_lt (hinv.fresh e he)
    · exact Nat.lt_succ_self _
  · exact fun n hn => Nat.lt_succ_of_lt (hinv.flushedFresh n hn)
  · exact fun n hn => Nat.lt_succ_of_lt (hinv.acceptedFresh n hn)
  · intro e he e' he' heq
    rcases (hgiven e).mp he with he | rfl <;> rcases (hgiven e').mp he' with he' | rfl
    · exact hinv.unique e he e' he' heq
    · exact absurd (heq.trans hid) (Nat.ne_of_lt (hinv.fresh e he))
    · exact absurd (heq.symm.trans hid) (Nat.ne_of_lt (hinv.fresh e' he'))
    · rfl
  · intro slot y h
    by_cases hslot : slot = slotOf x
    · rw [hslot, AList.lookup_insert] at h
      rw [hslot, ← Option.some.inj h]
      exact (hgiven _).mpr (.inr rfl)
    · exact (hgiven _).mpr (.inl (hinv.stored slot y ((hother slot hslot).symm.trans h)))
  · intro p hp
    obtain ⟨hflushed, y, hy, hitem, hresponse⟩ := hinv.pushed p hp
    have hslot : p.slot ≠ slotOf x := fun h => by
      rw [h, hfree] at hy
      nomatch hy
    exact ⟨hflushed, y, (hother _ hslot).trans hy, hitem, hresponse⟩
  · intro slot y h hflushed
    by_cases hslot : slot = slotOf x
    · rw [hslot, AList.lookup_insert] at h
      rw [← Option.some.inj h, hid] at hflushed
      exact absurd (hinv.flushedFresh _ hflushed) (Nat.lt_irrefl _)
    · exact hinv.queued slot y ((hother slot hslot).symm.trans h) hflushed
  · intro e he
    rcases (hgiven e).mp he with he | rfl
    · have hkept := hinv.delivered.kept e he
      by_cases hslot : e.1 = slotOf x
      · -- what was given for this slot before is gone, and was accepted
        have hgone : w.state.store.lookup e.1 ≠ some e.2 := by
          rw [hslot, hfree]
          exact nofun
        refine iff_of_true ?_ (hkept.mp hgone)
        show (w.state.store.insert (slotOf x) (itemOf w.state x)).lookup e.1 ≠ some e.2
        rw [hslot, AList.lookup_insert]
        intro h
        have hlt := hinv.fresh e he
        rw [← Option.some.inj h, hid] at hlt
        exact Nat.lt_irrefl _ hlt
      · show (w.state.store.insert (slotOf x) (itemOf w.state x)).lookup e.1 ≠ some e.2 ↔ _
        rw [hother _ hslot]
        exact hkept
    · refine iff_of_false (not_not.mpr (AList.lookup_insert _)) fun h => ?_
      exact Nat.lt_irrefl _ (hinv.acceptedFresh _ h)

theorem onTheWay_sendPolicy {s : State} {p : Pushed} :
    p ∈ (sendPolicy tonumber s policy).onTheWay ↔
      p ∈ s.onTheWay ∨ ∃ e ∈ acksOf s policy, sendAck tonumber e.1 e.2 = p := by
  simp only [State.onTheWay, sendPolicy, mem_append, mem_map]
  exact or_right_comm

theorem Inv.flush (hinv : Inv policies tonumber w)
    (hnew : ∀ e ∈ acksOf w.state policy, e.2.id ∉ w.flushed) :
    Inv policies tonumber (step policies tonumber w (.flush policy)) := by
  have hitems : (sendPolicy tonumber w.state policy).onTheWay.map Pushed.item =
      w.state.sourcefactories.map Pushed.item ++ (acksOf w.state policy).map (fun e => e.2.id) ++
        (w.state.session.getD []).map Pushed.item := by
    simp only [State.onTheWay, sendPolicy, map_append, map_map]
    rfl
  refine ⟨hinv.fresh, ?_, hinv.acceptedFresh, hinv.unique, hinv.stored, ?_, ?_, ?_,
    ⟨hinv.delivered.once, hinv.delivered.kept⟩⟩
  · intro n hn
    rcases mem_append.mp hn with hn | hn
    · exact hinv.flushedFresh n hn
    · obtain ⟨e, he, rfl⟩ := mem_map.mp hn
      exact hinv.fresh e (hinv.stored _ _ (mem_acksOf.mp he).1)
  · intro p hp
    rcases onTheWay_sendPolicy.mp hp with hp | ⟨e, he, rfl⟩
    · obtain ⟨hflushed, hx⟩ := hinv.pushed p hp
      exact ⟨mem_append_left _ hflushed, hx⟩
    · exact ⟨mem_append_right _ (mem_map_of_mem he), e.2, (mem_acksOf.mp he).1, rfl, rfl⟩
  · intro slot x h hflushed
    show x.id ∈ (sendPolicy tonumber w.state policy).onTheWay.map Pushed.item
    rw [hitems]
    rcases mem_append.mp hflushed with hflushed | hflushed
    · have hold := hinv.queued slot x h hflushed
      rw [State.onTheWay, map_append] at hold
      rcases mem_append.mp hold with hold | hold
      · exact mem_append_left _ (mem_append_left _ hold)
      · exact mem_append_right _ hold
    · exact mem_append_left _ (mem_append_right _ hflushed)
  · show ((sendPolicy tonumber w.state policy).onTheWay.map Pushed.item).Nodup
    have hold := hinv.nodup
    rw [State.onTheWay, map_append] at hold
    rw [hitems]
    have hperm : (w.state.sourcefactories.map Pushed.item ++
        (w.state.session.getD []).map Pushed.item ++ (acksOf w.state policy).map fun e => e.2.id).Perm
        (w.state.sourcefactories.map Pushed.item ++ ((acksOf w.state policy).map fun e => e.2.id) ++
          (w.state.session.getD []).map Pushed.item) := by
      rw [append_assoc, append_assoc]
      exact perm_append_comm.append_left _
    refine hperm.nodup (List.Nodup.append hold (nodup_acksOf hinv policy) ?_)
    -- what is on its way was flushed, what comes now was not
    intro n hway hnow
    obtain ⟨e, he, rfl⟩ := mem_map.mp hnow
    rw [← map_append] at hway
    obtain ⟨p, hp, hitem⟩ := mem_map.mp hway
    have hflushed := (hinv.pushed p hp).1
    rw [hitem] at hflushed
    exact hnew e he hflushed

/-! ## Sessions -/

theorem filter_carriedBy {pushed : List Pushed} (hnodup : (pushed.map Pushed.item).Nodup)
    {p : Pushed} (hp : p ∈ pushed) :
    (carriedBy pushed).filter (fun c => c.1 = p.item) = [(p.item, p.response)] := by
  induction pushed with
  | nil => nomatch hp
  | cons q pushed ih =>
    rw [map_cons, nodup_cons] at hnodup
    obtain ⟨hnew, hnodup⟩ := hnodup
    rw [carriedBy, map_cons, ← carriedBy, filter_cons]
    rcases mem_cons.mp hp with rfl | hp
    · have hrest : (carriedBy pushed).filter (fun c => c.1 = p.item) = [] := by
        refine filter_eq_nil_iff.mpr fun c hc => ?_
        obtain ⟨q, hq, rfl⟩ := mem_map.mp hc
        rw [decide_eq_true_iff]
        exact fun h => hnew (h ▸ mem_map_of_mem hq)
      rw [if_pos (by simp), hrest]
    · have hne : q.item ≠ p.item := fun h => hnew (h ▸ mem_map_of_mem hp)
      rw [if_neg (by simpa using hne), ih hnodup hp]

theorem Inv.start (hinv : Inv policies tonumber w) :
    Inv policies tonumber (step policies tonumber w .start) := by
  cases hsession : w.state.session with
  | some pushed =>
    have hsame : step policies tonumber w .start = w := by
      simp only [step, startSession, hsession]
    rw [hsame]
    exact hinv
  | none =>
    have hway : w.state.onTheWay = w.state.sourcefactories := by
      rw [State.onTheWay, hsession]
      exact append_nil _
    have hstep : step policies tonumber w .start =
        { w with
          state := { w.state with sourcefactories := [], session := some w.state.sourcefactories }
          sessions := w.sessions ++ [⟨w.state.store.entries.map fun e => e.2, w.flushed,
            carriedBy w.state.sourcefactories⟩] } := by
      simp only [step, startSession, hsession]
    obtain ⟨hfresh, hflushed, haccepted, hunique, hstored, hpushed, hqueued, hnodup, honce, hkept⟩ :=
      hinv
    rw [hway] at hpushed hqueued hnodup
    rw [hstep]
    refine ⟨hfresh, hflushed, haccepted, hunique, hstored, hpushed, hqueued, hnodup, ?_, hkept⟩
    intro σ hσ x hx
    rcases mem_append.mp hσ with hσ | hσ
    · exact honce σ hσ x hx
    rw [mem_singleton.mp hσ] at hx ⊢
    obtain ⟨e, he, rfl⟩ := mem_map.mp hx
    have hlookup : w.state.store.lookup e.1 = some e.2 := LuaTable.mem_entries_iff.mp he
    split
    · rename_i hflush
      obtain ⟨p, hp, hitem⟩ := mem_map.mp (hqueued _ _ hlookup hflush)
      obtain ⟨-, y, hy, hyid, hresponse⟩ := hpushed p hp
      have hsame := hunique _ (hstored _ _ hlookup) _ (hstored _ _ hy) (hitem.symm.trans hyid)
      have hxy : e.2 = y := congrArg Prod.snd hsame
      have hfilter := filter_carriedBy hnodup hp
      rw [hitem, hresponse, ← hxy] at hfilter
      exact hfilter
    · rename_i hflush
      refine filter_eq_nil_iff.mpr fun c hc => ?_
      obtain ⟨p, hp, rfl⟩ := mem_map.mp hc
      rw [decide_eq_true_iff]
      exact fun h => hflush (h ▸ (hpushed p hp).1)

theorem lookup_erased (pushed : List Pushed) (t : LuaTable Slot Item) (slot : Slot) :
    (pushed.foldl (fun t p => t.erase p.slot) t).lookup slot =
      if slot ∈ pushed.map Pushed.slot then none else t.lookup slot := by
  induction pushed generalizing t with
  | nil => rfl
  | cons p pushed ih =>
    rw [foldl_cons, ih, map_cons]
    by_cases hslot : slot = p.slot
    · rw [hslot, AList.lookup_erase, if_pos mem_cons_self]
      split <;> rfl
    · rw [AList.lookup_erase_ne hslot]
      simp only [mem_cons, hslot, false_or]

/-- A session that ends puts everything back, or clears the slots of what it carried. -/
theorem Inv.finish (hinv : Inv policies tonumber w) {status : Option Int}
    (hstatus : ∀ c, status = some c → Accepts c) :
    Inv policies tonumber (step policies tonumber w (.finish status)) := by
  cases hsession : w.state.session with
  | none =>
    have hsame : step policies tonumber w (.finish status) = w := by
      simp only [step, endSession, hsession]
    rw [hsame]
    exact hinv
  | some pushed =>
    have hway : w.state.onTheWay = w.state.sourcefactories ++ pushed := by
      rw [State.onTheWay, hsession]
      rfl
    obtain ⟨hfresh, hflushed, haccepted, hunique, hstored, hpushed, hqueued, hnodup, honce, hkept⟩ :=
      hinv
    rw [hway] at hpushed hqueued hnodup
    cases status with
    | none =>
      have hstep : step policies tonumber w (.finish none) =
          { w with
            state :=
              { w.state with
                sourcefactories := w.state.sourcefactories ++ pushed, session := none } } := by
        simp only [step, endSession, hsession]
      have hback : State.onTheWay { w.state with
          sourcefactories := w.state.sourcefactories ++ pushed, session := none } =
          w.state.sourcefactories ++ pushed := append_nil _
      rw [hstep]
      refine ⟨hfresh, hflushed, haccepted, hunique, hstored, ?_, ?_, ?_, honce, hkept⟩
      · rw [hback]
        exact hpushed
      · rw [hback]
        exact hqueued
      · rw [hback]
        exact hnodup
    | some c =>
      have hstep : step policies tonumber w (.finish (some c)) =
          { w with
            state :=
              { w.state with
                store := pushed.foldl (fun t p => t.erase p.slot) w.state.store, session := none }
            accepted := w.accepted ++ pushed.map Pushed.item } := by
        simp only [step, endSession, hsession, if_pos (hstatus c rfl)]
      have hrest : State.onTheWay { w.state with
          store := pushed.foldl (fun t p => t.erase p.slot) w.state.store, session := none } =
          w.state.sourcefactories := append_nil _
      -- the slots cleared hold what the session carried
      have hcleared : ∀ slot x, w.state.store.lookup slot = some x →
          (slot ∈ pushed.map Pushed.slot ↔ x.id ∈ pushed.map Pushed.item) := by
        intro slot x hx
        constructor
        · intro h
          obtain ⟨p, hp, rfl⟩ := mem_map.mp h
          obtain ⟨-, y, hy, hitem, -⟩ := hpushed p (mem_append_right _ hp)
          rw [hx] at hy
          rw [Option.some.inj hy, ← hitem]
          exact mem_map_of_mem hp
        · intro h
          obtain ⟨p, hp, hid⟩ := mem_map.mp h
          obtain ⟨-, y, hy, hitem, -⟩ := hpushed p (mem_append_right _ hp)
          have hsame := hunique _ (hstored _ _ hx) _ (hstored _ _ hy) (hid.symm.trans hitem)
          have hslot : slot = p.slot := congrArg Prod.fst hsame
          rw [hslot]
          exact mem_map_of_mem hp
      have hlookup : ∀ slot x,
          (pushed.foldl (fun t p => t.erase p.slot) w.state.store).lookup slot = some x ↔
            w.state.store.lookup slot = some x ∧ x.id ∉ pushed.map Pushed.item := by
        intro slot x
        rw [lookup_erased]
        split
        · rename_i hslot
          refine iff_of_false nofun fun ⟨hx, hnot⟩ => hnot ((hcleared slot x hx).mp hslot)
        · rename_i hslot
          exact ⟨fun hx => ⟨hx, fun h => hslot ((hcleared slot x hx).mpr h)⟩, And.left⟩
      rw [map_append] at hnodup
      obtain ⟨hnodup, -, hdisjoint⟩ := nodup_append'.mp hnodup
      rw [hstep]
      refine ⟨hfresh, hflushed, ?_, hunique, ?_, ?_, ?_, ?_, honce, ?_⟩
      · intro n hn
        rcases mem_append.mp hn with hn | hn
        · exact haccepted n hn
        · obtain ⟨p, hp, rfl⟩ := mem_map.mp hn
          exact hflushed _ (hpushed p (mem_append_right _ hp)).1
      · intro slot x hx
        exact hstored slot x ((hlookup slot x).mp hx).1
      · rw [hrest]
        intro p hp
        obtain ⟨hf, x, hx, hitem, hresponse⟩ := hpushed p (mem_append_left _ hp)
        refine ⟨hf, x, (hlookup _ _).mpr ⟨hx, fun h => ?_⟩, hitem, hresponse⟩
        rw [← hitem] at h
        exact hdisjoint (mem_map_of_mem hp) h
      · rw [hrest]
        intro slot x hx hf
        obtain ⟨hx, hnot⟩ := (hlookup slot x).mp hx
        have hmem := hqueued slot x hx hf
        rw [map_append] at hmem
        exact (mem_append.mp hmem).resolve_right hnot
      · rw [hrest]
        exact hnodup
      · intro e he
        rw [ne_eq, hlookup, mem_append, ← hkept e he, not_and_or, not_not]

/-! ## Runs -/

/-- Acknowledgements are sent once per session and kept until delivered: in every run in which no
ticket is acknowledged twice at a time, no acknowledgement is flushed twice while it is stored and
the server accepts what it answers. -/
theorem acks_delivered_once {w : World}
    (hrun : Runs (step policies tonumber) Orderly World.init w) : Delivered tonumber w := by
  refine (hrun.invariant (I := Inv policies tonumber) (fun w e he hinv => ?_) Inv.init).delivered
  cases e with
  | acknowledge x => exact hinv.acknowledge he
  | flush policy => exact hinv.flush he
  | start => exact hinv.start
  | finish status => exact hinv.finish he

end

/-- An acknowledgement of a ticket under the policy `now`, in RAM. -/
def ackNow (ticket : Int) : Command := ⟨none, ticket, .number 0, none, false⟩

def nowOnly : List Str := ["now".toList]

/-- A session fails, another one is accepted, and a ticket is acknowledged meanwhile. -/
theorem acks_delivered_once_retried :
    Delivered (fun _ => none) ([Event.acknowledge (ackNow 1), .flush "now".toList, .start,
      .finish none, .start, .acknowledge (ackNow 2), .finish (some 200), .flush "now".toList,
      .start].foldl (step nowOnly fun _ => none) World.init) :=
  acks_delivered_once (Along.runs (by decide +kernel))

/-- An acknowledgement flushed twice is sent twice in a session; one is removed when the server
refuses it; and one is removed by the delivery of another with its ticket. -/
theorem acks_sent_twice_or_lost :
    (∃ w, Runs (step nowOnly fun _ => none) (fun _ _ => True) World.init w ∧
      (∃ σ ∈ w.sessions, σ.carried.map Prod.fst = [0, 0]) ∧ ¬ Delivered (fun _ => none) w) ∧
    (∃ w, Runs (step nowOnly fun _ => none) (fun _ _ => True) World.init w ∧
      w.accepted = [] ∧ ¬ Delivered (fun _ => none) w) ∧
    ∃ w, Runs (step nowOnly fun _ => none) (fun _ _ => True) World.init w ∧
      w.accepted = [0] ∧ w.state.store = ∅ ∧ ¬ Delivered (fun _ => none) w := by
  have hruns : ∀ es : List Event, Runs (step nowOnly fun _ => none) (fun _ _ => True) World.init
      (es.foldl (step nowOnly fun _ => none) World.init) := by
    intro es
    have hall : ∀ s, Along (step nowOnly fun _ => none) (fun _ _ => True) s es := by
      induction es with
      | nil => exact fun _ => trivial
      | cons e es ih => exact fun _ => ⟨trivial, ih _⟩
    exact (hall _).runs
  refine ⟨⟨_, hruns [.acknowledge (ackNow 1), .flush "now".toList, .flush "now".toList, .start],
      ?_, fun h => ?_⟩,
    ⟨_, hruns [.acknowledge (ackNow 1), .flush "now".toList, .start, .finish (some 404)], ?_,
      fun h => ?_⟩,
    ⟨_, hruns [.acknowledge (ackNow 1), .flush "now".toList, .start, .acknowledge (ackNow 1),
      .finish (some 200)], ?_, ?_, fun h => ?_⟩⟩
  · decide +kernel
  · exact absurd h.once (by decide +kernel)
  · decide +kernel
  · exact absurd h.kept (by decide +kernel)
  · decide +kernel
  · decide +kernel
  · exact absurd h.kept (by decide +kernel)

end Mihini.Data.Acks
