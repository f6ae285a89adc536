import Mihini.Lib.LuaTable
import Mihini.Lib.Run
import Mihini.Messaging.Deliver

/-!
# Long messages put together again

`new_sms_pdu` and `add_concat_sms` of `messaging.lua`: the segments of a long message are kept
by their reference until the last of them is there. Any number of long messages is sent, the
segments come in any order, some of them twice and some never, among PDUs that are no segment.

Every message signalled is one that was sent, and every message that came whole is signalled
once, as long as a reference is taken by one message at a time: a segment comes for a message
that is not complete, and no other message with its reference is under way.
-/

namespace Mihini.Messaging

open Lib List

/-! ## The reassembly -/

structure Concat where
  ref : Nat
  maxnb : Nat
  seqnb : Nat
  deriving DecidableEq, Repr

structure Ports where
  bits : Nat
  dst : Nat
  src : Nat
  deriving DecidableEq, Repr

structure Received where
  address : Str
  timestamp : Str
  message : Str
  concat : Option Concat
  ports : Option Ports
  deriving DecidableEq, Repr

def decodePdu (pdu : Str) : Option Received :=
  match decodeSmspdu pdu with
  | .error _ => none
  | .ok sms =>
    let h := sms.header
    some ⟨sms.address, sms.timestamp, sms.message,
      if h.concatMaxnb > 1 then some ⟨h.concatRef, h.concatMaxnb, h.concatSeqnb⟩ else none,
      if h.portbits ≠ 0 then some ⟨h.portbits, h.dstport, h.srcport⟩ else none⟩

/-- `concatsms`, and what was signalled. -/
structure State where
  concatsms : LuaTable Nat (LuaTable Nat Str)
  signals : List Received
  deriving DecidableEq

section

variable (len : LuaTable Nat Str → Nat)

/-- `table.concat(t)`, which raises an error on a hole. -/
def concat (t : LuaTable Nat Str) : Option Str :=
  ((List.range (len t)).mapM fun i => t.lookup (i + 1)).map List.flatten

def addConcatSms (s : State) (sms : Received) (c : Concat) : State :=
  let t := ((s.concatsms.lookup c.ref).getD ∅).insert c.seqnb sms.message
  if (List.range c.maxnb).all fun i => (t.lookup (i + 1)).isSome then
    { concatsms := s.concatsms.erase c.ref
      signals := s.signals ++ ((concat len t).map fun message => { sms with message }).toList }
  else { s with concatsms := s.concatsms.insert c.ref t }

def newSmsPdu (s : State) (pdu : Str) : State :=
  match decodePdu pdu with
  | none => s
  | some sms =>
    match sms.concat with
    | some c => addConcatSms len s sms c
    | none => { s with signals := s.signals ++ [sms] }

end

/-! ## Arrivals -/

/-- What arrives: a segment of a message that was sent, or a PDU of another kind. -/
inductive Event (ι : Type)
  | segment (i : ι) (k : Nat) (c : Cover)
  | other (pdu : Str)

structure World (ι : Type) where
  state : State
  arrived : List (ι × Nat)

def World.init (ι : Type) : World ι := ⟨⟨∅, []⟩, []⟩

section Arrivals

variable {ι : Type} (len : LuaTable Nat Str → Nat) (sent : ι → Message)

def partOf (i : ι) (k : Nat) : List Nat := (sent i).parts.getD k []

def step (w : World ι) : Event ι → World ι
  | .segment i k c =>
    ⟨newSmsPdu len w.state ((sent i).pdu c k (partOf sent i k)), w.arrived ++ [(i, k)]⟩
  | .other pdu => { w with state := newSmsPdu len w.state pdu }

def Possible : Event ι → Prop
  | .segment i k c => k < (sent i).parts.length ∧ c.Ok (sent i) k (partOf sent i k)
  | .other pdu => ∀ sms, decodePdu pdu = some sms → sms.concat = none

def Complete (w : World ι) (i : ι) : Prop := ∀ k < (sent i).parts.length, (i, k) ∈ w.arrived

/-- The decoder reads the segment, and its reference is taken by its message alone. -/
def Apart (w : World ι) : Event ι → Prop
  | .segment i _ c =>
    c.smsc ≠ [] ∧ (sent i).Legible ∧ ¬ Complete sent w i ∧
      ∀ j k, j ≠ i → (sent j).ref = (sent i).ref → (j, k) ∈ w.arrived → Complete sent w j
  | .other _ => True

def longSignals (s : State) : List (Str × Str) :=
  (s.signals.filter fun sms => sms.concat.isSome).map fun sms => (sms.address, sms.message)

/-- The messages that have come whole are signalled, once each, and nothing else is. -/
def Reassembled (w : World ι) : Prop :=
  ∃ ids : List ι, ids.Nodup ∧ (∀ i, i ∈ ids ↔ Complete sent w i) ∧
    longSignals w.state = ids.map fun i => ((sent i).sender.text, (sent i).text)

/-! ## One arrival -/

def partAt (s : State) (ref key : Nat) : Option Str :=
  (s.concatsms.lookup ref).bind fun t => t.lookup key

structure Inv (w : World ι) : Prop where
  places : ∀ i k, (i, k) ∈ w.arrived → k < (sent i).parts.length
  owned : ∀ ref key text, partAt w.state ref key = some text →
    ∃ i k, (sent i).ref = ref ∧ key = k + 1 ∧ (i, k) ∈ w.arrived ∧ ¬ Complete sent w i ∧
      text = (sent i).textOf (partOf sent i k)
  kept : ∀ i k, (i, k) ∈ w.arrived → ¬ Complete sent w i →
    partAt w.state (sent i).ref (k + 1) = some ((sent i).textOf (partOf sent i k))
  whole : Reassembled sent w

variable {sent}

/-- A segment is decoded as a part of its message. -/
theorem decodePdu_segment {i : ι} {k : Nat} {c : Cover} (hm : (sent i).Ok)
    (hlegible : (sent i).Legible) (hk : k < (sent i).parts.length)
    (hc : c.Ok (sent i) k (partOf sent i k)) (hsmsc : c.smsc ≠ []) :
    ∃ sms, decodePdu ((sent i).pdu c k (partOf sent i k)) = some sms ∧
      sms.address = (sent i).sender.text ∧
      sms.message = (sent i).textOf (partOf sent i k) ∧
      sms.concat = some ⟨(sent i).ref, (sent i).parts.length, k + 1⟩ := by
  have hpart : partOf sent i k ∈ (sent i).parts := by
    rw [partOf, getD_eq_getElem _ _ hk]
    exact getElem_mem hk
  obtain ⟨href, hmaxnb, hseqnb⟩ := Message.header_place hm hk hc.elements {}
  have hseveral := hm.several
  refine ⟨_, by rw [decodePdu, Message.decode_pdu hm hlegible hk hpart hc hsmsc], rfl, rfl, ?_⟩
  rw [hmaxnb, if_pos (by omega), href, hseqnb]

theorem mapM_some {α β : Type} {f : α → Option β} {g : α → β} {l : List α}
    (h : ∀ x ∈ l, f x = some (g x)) : l.mapM f = some (l.map g) := by
  induction l with
  | nil => rfl
  | cons x l ih =>
    rw [mapM_cons, h x mem_cons_self, ih fun y hy => h y (mem_cons_of_mem x hy)]
    rfl

/-- With every part there and nothing beyond, the parts are joined in order. -/
theorem concat_eq {len : LuaTable Nat Str → Nat} (hlen : ∀ t : LuaTable Nat Str, t.IsBorder (len t))
    {t : LuaTable Nat Str} {texts : List Str}
    (ht : ∀ key text, t.lookup key = some text ↔ ∃ k, key = k + 1 ∧ texts[k]? = some text) :
    concat len t = some texts.flatten := by
  have hat : ∀ k (hk : k < texts.length), t.lookup (k + 1) = some texts[k] := fun k hk =>
    (ht (k + 1) texts[k]).mpr ⟨k, rfl, List.getElem?_eq_getElem hk⟩
  have hborder : len t = texts.length := by
    refine (hlen t).eq_of_filled fun key => ?_
    constructor
    · intro hsome
      obtain ⟨text, htext⟩ := Option.isSome_iff_exists.mp hsome
      obtain ⟨k, rfl, hget⟩ := (ht key text).mp htext
      obtain ⟨hk, -⟩ := List.getElem?_eq_some_iff.mp hget
      omega
    · intro hkey
      obtain ⟨k, rfl⟩ : ∃ k, key = k + 1 := ⟨key - 1, by omega⟩
      rw [hat k (by omega)]
      rfl
  have hparts : (List.range (len t)).mapM (fun i => t.lookup (i + 1)) = some texts := by
    have hg : ∀ k ∈ List.range texts.length, t.lookup (k + 1) = some (texts.getD k []) := by
      intro k hk
      have hk := mem_range.mp hk
      rw [hat k hk, getD_eq_getElem _ _ hk]
    rw [hborder, mapM_some hg]
    refine congrArg some (ext_getElem (by simp) fun k hk hk' => ?_)
    rw [getElem_map, getElem_range, getD_eq_getElem _ _ hk']
  rw [concat, hparts]
  rfl

theorem textOf_getElem? {i : ι} {k : Nat} {text : Str} :
    ((sent i).parts.map (sent i).textOf)[k]? = some text ↔
      k < (sent i).parts.length ∧ text = (sent i).textOf (partOf sent i k) := by
  rw [List.getElem?_map, Option.map_eq_some_iff]
  constructor
  · rintro ⟨part, hpart, rfl⟩
    obtain ⟨hk, rfl⟩ := List.getElem?_eq_some_iff.mp hpart
    exact ⟨hk, by rw [partOf, getD_eq_getElem _ _ hk]⟩
  · rintro ⟨hk, rfl⟩
    refine ⟨_, List.getElem?_eq_getElem hk, ?_⟩
    rw [partOf, getD_eq_getElem _ _ hk]

/-- What `partAt` becomes when a table is stored under a reference. -/
theorem partAt_insert (concatsms : LuaTable Nat (LuaTable Nat Str)) (signals : List Received)
    (ref : Nat) (t : LuaTable Nat Str) (ref' key : Nat) :
    partAt ⟨concatsms.insert ref t, signals⟩ ref' key =
      if ref' = ref then t.lookup key else partAt ⟨concatsms, signals⟩ ref' key := by
  rw [partAt]
  split
  · rename_i h
    rw [h, AList.lookup_insert]
    rfl
  · rename_i h
    rw [AList.lookup_insert_ne h]
    rfl

theorem partAt_erase (concatsms : LuaTable Nat (LuaTable Nat Str)) (signals : List Received)
    (ref ref' key : Nat) :
    partAt ⟨concatsms.erase ref, signals⟩ ref' key =
      if ref' = ref then none else partAt ⟨concatsms, signals⟩ ref' key := by
  rw [partAt]
  split
  · rename_i h
    rw [h, AList.lookup_erase]
    rfl
  · rename_i h
    rw [AList.lookup_erase_ne h]
    rfl

theorem lookup_stored (s : State) (ref seqnb : Nat) (text : Str) (key : Nat) :
    (((s.concatsms.lookup ref).getD ∅).insert seqnb text).lookup key =
      if key = seqnb then some text else partAt s ref key := by
  split
  · rename_i h
    rw [h, AList.lookup_insert]
  · rename_i h
    rw [AList.lookup_insert_ne h, partAt]
    cases s.concatsms.lookup ref <;> rfl

section Segment

variable {w : World ι} {i : ι} {k : Nat}

theorem mem_arrived {j : ι} {l : Nat} :
    (j, l) ∈ w.arrived ++ [(i, k)] ↔ (j, l) ∈ w.arrived ∨ j = i ∧ l = k := by
  rw [mem_append, mem_singleton, Prod.mk.injEq]

theorem complete_other {s : State} {j : ι} (hj : j ≠ i) :
    Complete sent ⟨s, w.arrived ++ [(i, k)]⟩ j ↔ Complete sent w j := by
  refine forall₂_congr fun l _ => mem_arrived.trans ?_
  exact ⟨fun h => h.resolve_right fun h' => hj h'.1, Or.inl⟩

/-- The table of the reference holds the parts that have arrived of the message, this one
included, and no others. -/
theorem stored_iff (hinv : Inv sent w) (hnew : ¬ Complete sent w i)
    (hapart : ∀ j l, j ≠ i → (sent j).ref = (sent i).ref → (j, l) ∈ w.arrived → Complete sent w j)
    (key : Nat) (text : Str) :
    (((w.state.concatsms.lookup (sent i).ref).getD ∅).insert (k + 1)
        ((sent i).textOf (partOf sent i k))).lookup key = some text ↔
      ∃ l, key = l + 1 ∧ (i, l) ∈ w.arrived ++ [(i, k)] ∧
        text = (sent i).textOf (partOf sent i l) := by
  rw [lookup_stored]
  constructor
  · intro h
    split at h
    · rename_i hkey
      exact ⟨k, hkey, mem_arrived.mpr (.inr ⟨rfl, rfl⟩), (Option.some.inj h).symm⟩
    obtain ⟨j, l, href, rfl, harrived, hopen, rfl⟩ := hinv.owned _ _ _ h
    have hj : j = i := by
      by_contra hj
      exact hopen (hapart j l hj href harrived)
    rw [hj] at harrived ⊢
    exact ⟨l, rfl, mem_arrived.mpr (.inl harrived), rfl⟩
  · rintro ⟨l, rfl, harrived, rfl⟩
    by_cases hl : l = k
    · rw [hl, if_pos rfl]
    · have hbefore := (mem_arrived.mp harrived).resolve_right fun h => hl h.2
      rw [if_neg (by omega), hinv.kept i l hbefore hnew]

/-- A segment that leaves its message open is stored. -/
theorem Inv.stored (hinv : Inv sent w) (hk : k < (sent i).parts.length)
    (hnew : ¬ Complete sent w i)
    (hapart : ∀ j l, j ≠ i → (sent j).ref = (sent i).ref → (j, l) ∈ w.arrived → Complete sent w j)
    (hopen : ¬ Complete sent ⟨w.state, w.arrived ++ [(i, k)]⟩ i) :
    Inv sent ⟨⟨w.state.concatsms.insert (sent i).ref
        (((w.state.concatsms.lookup (sent i).ref).getD ∅).insert (k + 1)
          ((sent i).textOf (partOf sent i k))), w.state.signals⟩, w.arrived ++ [(i, k)]⟩ := by
  have hstored := stored_iff (k := k) hinv hnew hapart
  refine ⟨?_, ?_, ?_, ?_⟩
  · intro j l h
    rcases mem_arrived.mp h with h | ⟨rfl, rfl⟩
    · exact hinv.places j l h
    · exact hk
  · intro ref key text h
    rw [partAt_insert] at h
    split at h
    · rename_i href
      obtain ⟨l, hkey, harrived, htext⟩ := (hstored key text).mp h
      exact ⟨i, l, href.symm, hkey, harrived, hopen, htext⟩
    rename_i href
    obtain ⟨j, l, hj, hkey, harrived, hj', htext⟩ := hinv.owned ref key text h
    have hne : j ≠ i := fun hji => href (by rw [← hj, hji])
    exact ⟨j, l, hj, hkey, mem_arrived.mpr (.inl harrived), fun h => hj' ((complete_other hne).mp h),
      htext⟩
  · intro j l h hj
    by_cases hne : j = i
    · rw [hne] at h ⊢
      rw [partAt_insert, if_pos rfl]
      exact (hstored _ _).mpr ⟨l, rfl, h, rfl⟩
    have hbefore := (mem_arrived.mp h).resolve_right fun h' => hne h'.1
    have hj' : ¬ Complete sent w j := fun h => hj ((complete_other hne).mpr h)
    have href : (sent j).ref ≠ (sent i).ref := fun h => hj' (hapart j l hne h hbefore)
    rw [partAt_insert, if_neg href]
    exact hinv.kept j l hbefore hj'
  · obtain ⟨ids, hnodup, hids, hsignals⟩ := hinv.whole
    refine ⟨ids, hnodup, fun j => ?_, hsignals⟩
    by_cases hne : j = i
    · rw [hne, hids]
      exact iff_of_false hnew hopen
    · rw [hids]
      exact (complete_other hne).symm

/-- A segment that completes its message has it signalled. -/
theorem Inv.signalled (hinv : Inv sent w) (hk : k < (sent i).parts.length)
    (hnew : ¬ Complete sent w i)
    (hapart : ∀ j l, j ≠ i → (sent j).ref = (sent i).ref → (j, l) ∈ w.arrived → Complete sent w j)
    (hwhole : Complete sent ⟨w.state, w.arrived ++ [(i, k)]⟩ i) {sms : Received}
    (haddress : sms.address = (sent i).sender.text) (hmessage : sms.message = (sent i).text)
    (hconcat : sms.concat.isSome = true) :
    Inv sent ⟨⟨w.state.concatsms.erase (sent i).ref, w.state.signals ++ [sms]⟩,
      w.arrived ++ [(i, k)]⟩ := by
  refine ⟨?_, ?_, ?_, ?_⟩
  · intro j l h
    rcases mem_arrived.mp h with h | ⟨rfl, rfl⟩
    · exact hinv.places j l h
    · exact hk
  · intro ref key text h
    rw [partAt_erase] at h
    split at h
    · nomatch h
    rename_i href
    obtain ⟨j, l, hj, hkey, harrived, hj', htext⟩ := hinv.owned ref key text h
    have hne : j ≠ i := fun hji => href (by rw [← hj, hji])
    exact ⟨j, l, hj, hkey, mem_arrived.mpr (.inl harrived), fun h => hj' ((complete_other hne).mp h),
      htext⟩
  · intro j l h hj
    have hne : j ≠ i := fun hji => hj (hji ▸ hwhole)
    have hbefore := (mem_arrived.mp h).resolve_right fun h' => hne h'.1
    have hj' : ¬ Complete sent w j := fun h => hj ((complete_other hne).mpr h)
    have href : (sent j).ref ≠ (sent i).ref := fun h => hj' (hapart j l hne h hbefore)
    rw [partAt_erase, if_neg href]
    exact hinv.kept j l hbefore hj'
  · obtain ⟨ids, hnodup, hids, hsignals⟩ := hinv.whole
    refine ⟨ids ++ [i], ?_, fun j => ?_, ?_⟩
    · refine List.Nodup.append hnodup (nodup_singleton i) ?_
      exact disjoint_singleton.mpr fun h => hnew ((hids i).mp h)
    · rw [mem_append, mem_singleton]
      by_cases hne : j = i
      · exact iff_of_true (.inr hne) (hne ▸ hwhole)
      · rw [hids]
        exact ⟨fun h => (complete_other hne).mpr (h.resolve_right hne),
          fun h => .inl ((complete_other hne).mp h)⟩
    · rw [longSignals] at hsignals ⊢
      rw [filter_append, map_append, hsignals, map_append]
      simp only [filter_cons, hconcat, if_true, filter_nil, map_cons, map_nil,
        haddress, hmessage]

end Segment

theorem Inv.step {len : LuaTable Nat Str → Nat} (hlen : ∀ t : LuaTable Nat Str, t.IsBorder (len t))
    (hsent : ∀ i, (sent i).Ok) {w : World ι} {e : Event ι} (hpossible : Possible sent e)
    (hapart : Apart sent w e) (hinv : Inv sent w) : Inv sent (step len sent w e) := by
  cases e with
  | other pdu =>
    have hpdu : newSmsPdu len w.state pdu = w.state ∨
        ∃ sms, sms.concat = none ∧ newSmsPdu len w.state pdu =
          { w.state with signals := w.state.signals ++ [sms] } := by
      rw [newSmsPdu]
      cases hsms : decodePdu pdu with
      | none => exact .inl rfl
      | some sms =>
        have hconcat := hpossible sms hsms
        exact .inr ⟨sms, hconcat, by simp only [hconcat]⟩
    obtain ⟨hplaces, howned, hkept, ids, hnodup, hids, hsignals⟩ := hinv
    show Inv sent ⟨newSmsPdu len w.state pdu, w.arrived⟩
    rcases hpdu with hpdu | ⟨sms, hconcat, hpdu⟩
    · rw [hpdu]
      exact ⟨hplaces, howned, hkept, ids, hnodup, hids, hsignals⟩
    · rw [hpdu]
      refine ⟨hplaces, howned, hkept, ids, hnodup, hids, ?_⟩
      rw [longSignals] at hsignals ⊢
      rw [filter_append, map_append, hsignals]
      simp [hconcat]
  | segment i k c =>
    obtain ⟨hk, hc⟩ := hpossible
    obtain ⟨hsmsc, hlegible, hnew, hapart⟩ := hapart
    obtain ⟨sms, hdecode, haddress, hmessage, hconcat⟩ :=
      decodePdu_segment (hsent i) hlegible hk hc hsmsc
    have hstored := stored_iff (k := k) hinv hnew hapart
    show Inv sent ⟨newSmsPdu len w.state _, w.arrived ++ [(i, k)]⟩
    rw [newSmsPdu, hdecode]
    simp only [hconcat]
    rw [addConcatSms, hmessage]
    have hall : ((List.range (sent i).parts.length).all fun l =>
        ((((w.state.concatsms.lookup (sent i).ref).getD ∅).insert (k + 1)
          ((sent i).textOf (partOf sent i k))).lookup (l + 1)).isSome) = true ↔
        Complete sent ⟨w.state, w.arrived ++ [(i, k)]⟩ i := by
      rw [all_eq_true]
      refine forall_congr' fun l => ?_
      rw [mem_range, Option.isSome_iff_exists]
      refine imp_congr_right fun _ => ?_
      constructor
      · rintro ⟨text, htext⟩
        obtain ⟨l', hl', harrived, -⟩ := (hstored _ _).mp htext
        obtain rfl := Nat.succ.inj hl'
        exact harrived
      · exact fun h => ⟨_, (hstored _ _).mpr ⟨l, rfl, h, rfl⟩⟩
    by_cases hwhole : Complete sent ⟨w.state, w.arrived ++ [(i, k)]⟩ i
    · simp only [if_pos (hall.mpr hwhole)]
      -- the table has the parts of the message and nothing else
      have htext : concat len (((w.state.concatsms.lookup (sent i).ref).getD ∅).insert (k + 1)
          ((sent i).textOf (partOf sent i k))) = some (sent i).text := by
        refine concat_eq hlen fun key text => (hstored key text).trans (exists_congr fun l => ?_)
        rw [textOf_getElem?]
        refine and_congr_right fun _ => ⟨fun ⟨harrived, htext⟩ => ⟨?_, htext⟩,
          fun ⟨hl, htext⟩ => ⟨hwhole l hl, htext⟩⟩
        rcases mem_arrived.mp harrived with h | ⟨-, rfl⟩
        · exact hinv.places i l h
        · exact hk
      rw [htext]
      exact hinv.signalled hk hnew hapart hwhole haddress rfl (by simp [hconcat])
    · simp only [if_neg fun h => hwhole (hall.mp h)]
      exact hinv.stored hk hnew hapart hwhole

theorem Inv.init (hsent : ∀ i, (sent i).Ok) : Inv sent (World.init ι) := by
  have hnone : ∀ ref key, partAt (World.init ι).state ref key = none := fun _ _ => rfl
  refine ⟨fun i k h => (nomatch h), ?_, fun i k h => (nomatch h), [], nodup_nil, ?_, rfl⟩
  · intro ref key text h
    rw [hnone] at h
    nomatch h
  · intro i
    have hseveral := (hsent i).several
    exact iff_of_false not_mem_nil fun h => nomatch h 0 (by omega)

/-- Long messages are put together again: in every run in which each segment comes for a message
that is under way alone with its reference, the messages signalled are the ones that have come
whole, once each, with their senders and their texts. -/
theorem concat_sms_reassembled (len : LuaTable Nat Str → Nat)
    (hlen : ∀ t : LuaTable Nat Str, t.IsBorder (len t)) (sent : ι → Message)
    (hsent : ∀ i, (sent i).Ok) {w : World ι}
    (hrun : Runs (step len sent) (fun w e => Possible sent e ∧ Apart sent w e) (World.init ι) w) :
    Reassembled sent w :=
  (hrun.invariant (fun _ _ he hinv => hinv.step hlen hsent he.1 he.2) (Inv.init hsent)).whole

end Arrivals

/-! ## Two messages under one reference -/

def twoParts (digits : List Nat) (a b : Nat) : Message :=
  ⟨.number 0x91 digits, false, false, 7, [[a], [b]]⟩

def plainCover : Cover := ⟨[0x91, 0x33], 0x44, 0, 4, List.replicate 7 0x21, [], []⟩

theorem twoParts_ok {digits : List Nat} (hdigits : digits.length < 256 ∧ ∀ d ∈ digits, d < 16)
    {a b : Nat} (ha : a < 256) (hb : b < 256) : (twoParts digits a b).Ok := by
  have href : 7 < if false = true then 65536 else 256 := by decide
  have hfew : 2 < 256 := by decide
  refine ⟨⟨by decide, by decide, hdigits⟩, href, Nat.le_refl 2, hfew, ?_, ?_, ?_⟩
  · simp [twoParts]
  · simp [twoParts, ha, hb]
  · simp [twoParts]

theorem plainCover_ok (digits : List Nat) (a b k : Nat) (part : List Nat)
    (hpart : part.length = 1) : plainCover.Ok (twoParts digits a b) k part := by
  have hcoded : Coded false 4 := Or.inl (by decide)
  refine ⟨by decide, by decide, by decide, hcoded, rfl, nofun, ?_⟩
  simp [Message.userOctets, Message.header, Message.elements, Message.concatElement, headerOctets,
    Element.octets, twoParts, plainCover, hpart]

def mixed (i : Bool) : Message := if i then twoParts [4, 4] 67 68 else twoParts [3, 3] 65 66

theorem mixed_ok (i : Bool) : (mixed i).Ok := by
  cases i <;> exact twoParts_ok (by decide) (by decide) (by decide)

theorem mixed_possible (i : Bool) {k : Nat} (hk : k < 2) :
    Possible mixed (.segment i k plainCover) := by
  have hpart : (partOf mixed i k).length = 1 := by
    revert k
    cases i <;> decide
  refine ⟨by cases i <;> exact hk, ?_⟩
  cases i <;> exact plainCover_ok _ _ _ _ _ hpart

/-- One message comes whole, its second part first. -/
theorem concat_sms_reassembled_swapped :
    Reassembled mixed ([Event.segment false 1 plainCover, .segment false 0 plainCover].foldl
      (step LuaTable.border mixed) (World.init Bool)) := by
  refine concat_sms_reassembled LuaTable.border LuaTable.isBorder_border mixed mixed_ok
    (Along.runs ⟨⟨mixed_possible false (by decide), ?_⟩, ⟨mixed_possible false (by decide), ?_⟩,
      trivial⟩)
  · refine ⟨by decide, ⟨trivial, nofun⟩, fun h => ?_, fun j l hj _ h => ?_⟩
    · exact absurd (h 0 (by decide)) not_mem_nil
    · nomatch h
  · refine ⟨by decide, ⟨trivial, nofun⟩, fun h => ?_, fun j l hj _ h => ?_⟩
    · exact absurd (h 0 (by decide)) (by decide)
    · obtain ⟨rfl, -⟩ := Prod.mk.inj (mem_singleton.mp h)
      exact absurd rfl hj

/-- The first part of one message and the second part of another are signalled as a message, and
neither of the two has come whole. -/
theorem shared_reference_mixes :
    (∀ i, (mixed i).Ok) ∧ ∃ w : World Bool,
      Runs (step LuaTable.border mixed) (fun _ e => Possible mixed e) (World.init Bool) w ∧
      longSignals w.state = [([43, 52, 52], [65, 68])] ∧ ¬ Reassembled mixed w := by
  refine ⟨mixed_ok, [Event.segment false 0 plainCover, .segment true 1 plainCover].foldl
      (step LuaTable.border mixed) (World.init Bool), Along.runs
      ⟨mixed_possible false (by decide), mixed_possible true (by decide), trivial⟩,
    by decide +kernel, ?_⟩
  rintro ⟨ids, -, hids, hsignals⟩
  have hlong : longSignals ([Event.segment false 0 plainCover, .segment true 1 plainCover].foldl
      (step LuaTable.border mixed) (World.init Bool)).state = [([43, 52, 52], [65, 68])] := by
    decide +kernel
  rw [hlong] at hsignals
  cases ids with
  | nil => nomatch hsignals
  | cons i ids =>
    have hwhole := (hids i).mp mem_cons_self
    cases i
    · exact absurd (hwhole 1 (by decide)) (by decide)
    · exact absurd (hwhole 0 (by decide)) (by decide)

end Mihini.Messaging
