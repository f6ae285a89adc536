import Mihini.Data.Bookkeeping

/-!
# Chains of consolidations

Sources and destinations, whatever tables were opened, linked and closed before, also under
other policies than those they had. A destination has a source that is older and is listed
among the consolidations of its policy, so the tables make chains.
-/

namespace Mihini.Data

open Mihini.Lib Mihini.Path AList List

namespace Tables

/-! ## Links -/

def Feeds (T : Tables) (s o : Nat) : Prop :=
  ∃ id t Q, T.find id = some (s, t) ∧ t.consoTable = some o ∧ t.consoPolicy = some Q ∧
    T.consolidations.lookup (Q, id) = some s

structure Linked (T : Tables) : Prop where
  object : ∀ id o, T.tables.lookup id = some o → o < T.objects.length
  source : ∀ o t s, T.objects[o]? = some t → t.srcTable = some s → T.Feeds s o ∧ s < o

theorem linked_init : Linked init where
  object := by simp [init]
  source := by simp [init]

variable {T : Tables}

theorem ne_of_find {id id' : Str} {o : Nat} {t : Table}
    (hnone : T.find id = none) (hfind : T.find id' = some (o, t)) : id' ≠ id := by
  intro heq
  rw [heq, hnone] at hfind
  cases hfind

theorem Linked.createTable (h : Linked T) {id path policy : Str} {columns : List Column}
    (hnew : T.find id = none) (failure : Option String) :
    Linked (createTable T id path columns policy failure).1 := by
  cases failure with
  | some msg => exact h
  | none =>
    have hobjects : (Tables.createTable T id path columns policy none).1.objects = T.objects ++
        [⟨id, path, columns.map Column.name, policy, none, none, none⟩] := by
      show (T.objects ++ [_]).modify T.objects.length _ = T.objects ++ [_]
      rw [modify_eq_take_cons_drop (by simp)]
      simp
    have htables : (Tables.createTable T id path columns policy none).1.tables =
        T.tables.insert id T.objects.length := rfl
    constructor
    · intro id' o hlookup
      rw [hobjects, length_append]
      rw [htables] at hlookup
      by_cases hid : id' = id
      · rw [hid, lookup_insert] at hlookup
        rw [← Option.some.inj hlookup]
        exact Nat.lt_succ_self _
      · rw [lookup_insert_ne hid] at hlookup
        exact Nat.lt_succ_of_lt (h.object id' o hlookup)
    · intro o t s ho hs
      rw [hobjects] at ho
      have hlt : o < T.objects.length := by
        by_contra hge
        rw [List.getElem?_append_right (Nat.le_of_not_lt hge)] at ho
        obtain ⟨-, rfl⟩ := List.getElem?_eq_some_iff.mp ho |>.imp fun _ heq => by simpa using heq
        cases hs
      rw [List.getElem?_append_left hlt] at ho
      obtain ⟨⟨id', u, Q, hfind, hconso, hpolicy, hlisted⟩, hs⟩ := h.source o t s ho hs
      refine ⟨⟨id', u, Q, ?_, hconso, hpolicy, hlisted⟩, hs⟩
      obtain ⟨hlookup, hu⟩ := find_eq_some.mp hfind
      apply find_of_lookup
      · rw [htables, lookup_insert_ne (ne_of_find hnew hfind), hlookup]
      · rw [hobjects, List.getElem?_append_left (h.object id' s hlookup), hu]

theorem Linked.closeTable (h : Linked T) {id : Str} {T' : Tables}
    (hclose : closeTable T id = .ok T') : Linked T' := by
  obtain ⟨c, closed, hclosed, -, htables, hlength, hfind, -, hconso⟩ := find_closeTable hclose
  constructor
  · intro id' o hlookup
    rw [htables] at hlookup
    rw [hlength]
    by_cases hid : id' = id
    · rw [hid, lookup_erase] at hlookup
      cases hlookup
    · rw [lookup_erase_ne hid] at hlookup
      exact h.object id' o hlookup
  · intro o t s ho hs
    rw [objects_closeTable hclose hclosed, Option.map_eq_some_iff] at ho
    obtain ⟨t₀, ho, rfl⟩ := ho
    obtain ⟨hnot, hs⟩ := unlink_srcTable.mp hs
    obtain ⟨⟨id', u, Q, hf, hu, hQ, hlisted⟩, hlt⟩ := h.source o t₀ s ho hs
    -- What is closed fed another table, or none.
    have hid : id' ≠ id := by
      intro heq
      rw [heq, hclosed] at hf
      obtain ⟨-, rfl⟩ := Prod.mk.inj (Option.some.inj hf)
      exact hnot hu
    refine ⟨⟨id', unlink closed s u, Q, (hfind id' s _).mpr ⟨hid, u, hf, rfl⟩, ?_, ?_, ?_⟩, hlt⟩
    · rw [unlink_consoTable, hu]
    · rw [(unlink_fields closed s u).2.2, hQ]
    · rw [hconso, if_neg hid, hlisted]

theorem Linked.listTable (h : Linked T) {id policy : Str} {o : Nat} {t : Table}
    (hfind : T.find id = some (o, t)) : Linked (listTable T o policy id) := by
  have htables : ∀ id', (Tables.listTable T o policy id).tables.lookup id' = T.tables.lookup id' :=
    lookup_insert_same (find_eq_some.mp hfind).1
  have hobjects : ∀ s, (Tables.listTable T o policy id).objects[s]? = T.objects[s]?.map fun t =>
      if o = s then { t with sendPolicy := policy } else t := by
    intro s
    show (T.objects.modify o _)[s]? = _
    rw [List.getElem?_modify]
    split <;> simp
  constructor
  · intro id' o' hlookup
    show o' < (T.objects.modify o _).length
    rw [length_modify]
    exact h.object id' o' ((htables id').symm.trans hlookup)
  · intro o' t' s ho hs
    rw [hobjects, Option.map_eq_some_iff] at ho
    obtain ⟨t₀, ho, rfl⟩ := ho
    have hs₀ : t₀.srcTable = some s := by
      split at hs <;> exact hs
    obtain ⟨⟨id', u, Q, hf, hu, hQ, hlisted⟩, hlt⟩ := h.source o' t₀ s ho hs₀
    obtain ⟨hlookup, hobject⟩ := find_eq_some.mp hf
    refine ⟨⟨id', _, Q, find_of_lookup ((htables id').trans hlookup)
      ((hobjects s).trans (congrArg _ hobject)), ?_, ?_, hlisted⟩, hlt⟩
    · split <;> exact hu
    · split <;> exact hQ

section

variable {src dst : Nat} {srcId dstId SP CP : Str}

theorem objects_linkTable (T : Tables) (s : Nat) :
    ∃ f : Table → Table, (linkTable T src dst srcId dstId SP CP).objects[s]? = T.objects[s]?.map f ∧
      ∀ t, (f t).srcTable = t.srcTable ∧
        (f t).consoTable = (if s = src then some dst else t.consoTable) ∧
        (f t).consoPolicy = if s = src then some CP else t.consoPolicy := by
  refine ⟨fun t => (if src = s then fun t => { t with consoTable := some dst, consoPolicy := some CP }
    else id) ((if dst = s then fun t => { t with sendPolicy := SP } else id) t), ?_, ?_⟩
  · show ((List.modify _ _ _).modify _ _)[s]? = _
    rw [List.getElem?_modify, List.getElem?_modify]
    cases T.objects[s]? with
    | none => rfl
    | some t => by_cases hsrc : src = s <;> by_cases hdst : dst = s <;> simp [hsrc, hdst]
  · intro t
    by_cases hsrc : src = s <;> by_cases hdst : dst = s <;> simp [hsrc, hdst, eq_comm]

/-- What is found under the name of the destination is the destination. -/
theorem find_linkTable (hdst : ∀ o t, T.find dstId = some (o, t) → o = dst) {id : Str} {s : Nat}
    {t : Table} (hfind : T.find id = some (s, t)) :
    ∃ u, (linkTable T src dst srcId dstId SP CP).find id = some (s, u) ∧
      u.consoTable = (if s = src then some dst else t.consoTable) ∧
      u.consoPolicy = if s = src then some CP else t.consoPolicy := by
  obtain ⟨hlookup, ht⟩ := find_eq_some.mp hfind
  obtain ⟨f, hobjects, hf⟩ := @objects_linkTable src dst srcId dstId SP CP T s
  refine ⟨f t, find_of_lookup ?_ (by rw [hobjects, ht]; rfl), (hf t).2⟩
  show (T.tables.insert dstId dst).lookup id = some s
  by_cases hid : id = dstId
  · subst hid
    rw [lookup_insert, hdst s t hfind]
  · rw [lookup_insert_ne hid, hlookup]

theorem feeds_linkTable_self (hdst : ∀ o t, T.find dstId = some (o, t) → o = dst) {t : Table}
    (hsrc : T.find srcId = some (src, t)) :
    (linkTable T src dst srcId dstId SP CP).Feeds src dst := by
  obtain ⟨u, hfind, hu, hCP⟩ := @find_linkTable T src dst srcId dstId SP CP hdst srcId src t hsrc
  rw [if_pos rfl] at hu hCP
  exact ⟨srcId, u, CP, hfind, hu, hCP, lookup_insert _⟩

theorem Feeds.linkTable {s o : Nat} (h : T.Feeds s o)
    (hdst : ∀ o t, T.find dstId = some (o, t) → o = dst) {t : Table}
    (hsrc : T.find srcId = some (src, t)) (hne : s ≠ src) :
    (linkTable T src dst srcId dstId SP CP).Feeds s o := by
  obtain ⟨id, u, Q, hfind, hu, hQ, hlisted⟩ := h
  obtain ⟨u', hfind', hu', hQ'⟩ := @find_linkTable T src dst srcId dstId SP CP hdst id s u hfind
  rw [if_neg hne] at hu' hQ'
  refine ⟨id, u', Q, hfind', hu'.trans hu, hQ'.trans hQ, ?_⟩
  show (T.consolidations.insert (CP, srcId) src).lookup (Q, id) = some s
  have hkey : (Q, id) ≠ (CP, srcId) := by
    intro heq
    rw [(Prod.mk.inj heq).2, hsrc] at hfind
    exact hne (Prod.mk.inj (Option.some.inj hfind)).1.symm
  rw [lookup_insert_ne hkey, hlisted]

end

/-! ## The operations -/

theorem Linked.find_addObject (h : Linked T) (d : Table) {id : Str} {o : Nat} {t : Table}
    (hfind : T.find id = some (o, t)) : (T.addObject d).find id = some (o, t) := by
  obtain ⟨hlookup, ht⟩ := find_eq_some.mp hfind
  have hlt := h.object id o hlookup
  apply find_of_lookup
  · exact hlookup
  · show (T.objects ++ [d])[o]? = some t
    rw [List.getElem?_append_left hlt, ht]

theorem Linked.createConsolidation (h : Linked T) {src : Nat} {srcId dstId dstPath SP CP : Str}
    {columns : List Column} (hnew : T.find dstId = none) (failure : Option String) :
    Linked (createConsolidation T src srcId dstId dstPath columns SP CP failure).1 := by
  unfold Tables.createConsolidation
  split
  · next o t hsrc =>
    split
    · next hcond =>
      obtain ⟨rfl, hfree⟩ := hcond
      let d : Table := ⟨dstId, dstPath, columns.map Column.name, SP, none, none, some o⟩
      show Linked (linkTable (T.addObject d) o T.objects.length srcId dstId SP CP)
      have hsrc₁ : (T.addObject d).find srcId = some (o, t) := h.find_addObject d hsrc
      have hdst₁ : ∀ o' t', (T.addObject d).find dstId = some (o', t') → o' = T.objects.length := by
        intro o' t' hfind
        have hlookup : T.tables.lookup dstId = some o' := (find_eq_some.mp hfind).1
        rw [lookup_eq_none (h.object dstId) hnew] at hlookup
        cases hlookup
      have hlt : o < T.objects.length := h.object srcId o (find_eq_some.mp hsrc).1
      constructor
      · intro id o' hlookup
        show o' < ((List.modify _ _ _).modify _ _).length
        rw [length_modify, length_modify]
        show o' < (T.objects ++ [d]).length
        rw [length_append]
        change (T.tables.insert dstId T.objects.length).lookup id = some o' at hlookup
        by_cases hid : id = dstId
        · rw [hid, lookup_insert] at hlookup
          rw [← Option.some.inj hlookup]
          exact Nat.lt_succ_self _
        · rw [lookup_insert_ne hid] at hlookup
          exact Nat.lt_succ_of_lt (h.object id o' hlookup)
      · intro o' t' s ho hs
        obtain ⟨f, hobjects, hf⟩ := @objects_linkTable o T.objects.length srcId dstId SP CP
          (T.addObject d) o'
        rw [hobjects, Option.map_eq_some_iff] at ho
        obtain ⟨t₀, ho, rfl⟩ := ho
        rw [(hf t₀).1] at hs
        change (T.objects ++ [d])[o']? = some t₀ at ho
        by_cases hold : o' < T.objects.length
        · rw [List.getElem?_append_left hold] at ho
          obtain ⟨⟨id, u, Q, hfind, hu, hQ, hlisted⟩, hlt'⟩ := h.source o' t₀ s ho hs
          -- The source of an older table is consolidated into it already.
          have hne : s ≠ o := by
            rintro rfl
            have hsame := (find_eq_some.mp hfind).2
            rw [(find_eq_some.mp hsrc).2] at hsame
            rw [← Option.some.inj hsame, hfree] at hu
            cases hu
          have hfeeds : (T.addObject d).Feeds s o' :=
            ⟨id, u, Q, h.find_addObject d hfind, hu, hQ, hlisted⟩
          exact ⟨hfeeds.linkTable hdst₁ hsrc₁ hne, hlt'⟩
        · have hlast : o' = T.objects.length := by
            have hbound := (List.getElem?_eq_some_iff.mp ho).1
            rw [length_append, length_singleton] at hbound
            omega
          subst hlast
          rw [List.getElem?_concat_length] at ho
          obtain rfl := Option.some.inj ho
          obtain rfl := Option.some.inj hs
          exact ⟨feeds_linkTable_self hdst₁ hsrc₁, hlt⟩
    · exact h
  · exact h
  · exact h

theorem Linked.linkTable (h : Linked T) {src dst : Nat} {srcId dstId SP CP : Str} {t d : Table}
    (hsrc : T.find srcId = some (src, t)) (hdst : T.find dstId = some (dst, d))
    (hlink : t.consoTable = some dst) : Linked (linkTable T src dst srcId dstId SP CP) := by
  have hsame : ∀ o t, T.find dstId = some (o, t) → o = dst := by
    intro o t hfind
    rw [hdst] at hfind
    exact (Prod.mk.inj (Option.some.inj hfind)).1.symm
  constructor
  · intro id o hlookup
    show o < ((List.modify _ _ _).modify _ _).length
    rw [length_modify, length_modify]
    apply h.object id o
    rw [← hlookup]
    exact (lookup_insert_same (find_eq_some.mp hdst).1 id).symm
  · intro o t' s ho hs
    obtain ⟨f, hobjects, hf⟩ := @objects_linkTable src dst srcId dstId SP CP T o
    rw [hobjects, Option.map_eq_some_iff] at ho
    obtain ⟨t₀, ho, rfl⟩ := ho
    rw [(hf t₀).1] at hs
    obtain ⟨hfeeds, hlt⟩ := h.source o t₀ s ho hs
    refine ⟨?_, hlt⟩
    by_cases hne : s = src
    · subst hne
      obtain ⟨id, u, Q, hfind, hu, -, -⟩ := hfeeds
      have hobject := (find_eq_some.mp hfind).2
      rw [(find_eq_some.mp hsrc).2] at hobject
      rw [← Option.some.inj hobject, hlink] at hu
      rw [← Option.some.inj hu]
      exact feeds_linkTable_self hsame hsrc
    · exact hfeeds.linkTable hsame hsrc hne

section

variable {policies : List Str} {canon : Str → Str}

theorem Linked.tableNew (h : Linked T) (asset path storage : Str) (policy : Option Str)
    (columns : List Column) (purge : Bool) (failure : Option String) :
    Linked (tableNew policies T asset path storage policy columns purge failure).1 := by
  unfold Tables.tableNew
  dsimp only
  split
  · exact h
  split
  · next hnone => exact h.createTable hnone failure
  · next o t hfind =>
    split
    · exact h
    split
    · split
      · exact h
      · next T' hclose => exact (h.closeTable hclose).createTable (find_closed hclose) failure
    · split
      · exact h
      · exact h.listTable hfind

theorem Linked.consoNew (h : Linked T) (srcId path storage : Str) (columns : List Column)
    (sendPolicy consoPolicy : Option Str) (purge : Bool) (failure : Option String) :
    Linked (consoNew policies canon T srcId path storage columns sendPolicy consoPolicy purge
      failure).1 := by
  unfold Tables.consoNew
  split
  · exact h
  · next src s hsrc =>
    dsimp only
    split
    · exact h
    · exact h
    · split
      · exact h
      · split
        · next hnone => exact h.createConsolidation hnone failure
        · next dst d hdst =>
          split
          · next hlink =>
            split
            · exact h
            · split
              · exact h
              · exact h.linkTable hsrc hdst hlink
          · split
            · exact h
            · split
              · exact h
              · split
                · exact h
                · next T' hclose =>
                  exact (h.closeTable hclose).createConsolidation (find_closed hclose) failure

theorem Linked.step (h : Linked T) (e : Event) : Linked (step policies canon T e) := by
  cases e with
  | tableNew => exact h.tableNew ..
  | consoNew => exact h.consoNew ..
  | closeTable id =>
    rw [Tables.step]
    split
    · exact h
    · next T' hclose => exact h.closeTable hclose

end

theorem linked {policies : List Str} {canon : Str → Str} {T : Tables}
    (h : Runs (step policies canon) (fun _ _ => True) init T) : Linked T :=
  h.invariant (fun _ e _ hT => hT.step e) linked_init

/-- Whatever is opened, linked and closed, no chain of consolidations comes back to a table. -/
theorem chains_acyclic (policies : List Str) (canon : Str → Str) (events : List Event) (o : Nat) :
    let T := events.foldl (step policies canon) init
    ¬ Relation.TransGen (fun s o => (T.objects[o]?).bind Table.srcTable = some s) o o := by
  intro T hcycle
  have hlinked : Linked T := foldlRecOn events _ linked_init fun _ h e _ => h.step e
  have holder {s o : Nat} (h : (T.objects[o]?).bind Table.srcTable = some s) : s < o := by
    obtain ⟨t, ho, hs⟩ := Option.bind_eq_some_iff.mp h
    exact (hlinked.source o t s ho hs).2
  have hlt := Relation.TransGen.mono (fun _ _ => holder) o o hcycle
  rw [Relation.transGen_eq_self] at hlt
  exact Nat.lt_irrefl o hlt

end Tables

end Mihini.Data
