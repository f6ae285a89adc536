import Mihini.Data.Tables
import Mihini.Lib.Run

/-!
# Bookkeeping

What the maps of the data manager say of each other.
-/

namespace Mihini.Data

open Mihini.Lib Mihini.Path AList List

namespace Tables

/-! ## Consistency -/

structure Consistent (T : Tables) : Prop where
  object : ∀ id o, T.tables.lookup id = some o → o < T.objects.length
  id : ∀ id o t, T.find id = some (o, t) → t.id = id
  tables : ∀ p id o, T.policyTables.lookup (p, id) = some o ↔
    ∃ t, T.find id = some (o, t) ∧ t.sendPolicy = p
  consolidations : ∀ p id o, T.consolidations.lookup (p, id) = some o ↔
    ∃ t, T.find id = some (o, t) ∧ t.consoPolicy = some p
  policy : ∀ id o t, T.find id = some (o, t) → (t.consoPolicy.isSome ↔ t.consoTable.isSome)
  source : ∀ id o t d, T.find id = some (o, t) → t.consoTable = some d →
    ∃ id' t', T.find id' = some (d, t') ∧ t'.srcTable = some o
  destination : ∀ id o t d, T.find id = some (o, t) → t.srcTable = some d →
    ∃ id' t', T.find id' = some (d, t') ∧ t'.consoTable = some o
  never : ∀ id o t p, T.find id = some (o, t) → t.consoPolicy = some p →
    t.sendPolicy = never ∨ p = never

def Sound (policies : List Str) (canon : Str → Str) (T : Tables) : Event → Prop
  | .tableNew asset path storage policy columns purge _ =>
    purge = false → ∀ o t P,
      T.find (getTableId (concat [asset, path]) storage columns) = some (o, t) →
      t.srcTable = none → policyOf policies policy = some P → t.sendPolicy = P
  | .consoNew srcId path storage columns sendPolicy consoPolicy purge _ =>
    purge = false → ∀ src t dst d SP CP, T.find srcId = some (src, t) →
      T.find (getTableId (concat [splitFirst canon t.path, path]) storage columns) =
        some (dst, d) → t.consoTable = some dst → policyOf policies sendPolicy = some SP →
      policyOf policies consoPolicy = some CP → d.sendPolicy = SP ∧ t.consoPolicy = some CP
  | .closeTable _ => True

theorem consistent_init : Consistent init where
  object := by simp [init]
  id := by simp [init, find]
  tables := by simp [init, find]
  consolidations := by simp [init, find]
  policy := by simp [init, find]
  source := by simp [init, find]
  destination := by simp [init, find]
  never := by simp [init, find]

theorem find_eq_some {T : Tables} {id : Str} {o : Nat} {t : Table} :
    T.find id = some (o, t) ↔ T.tables.lookup id = some o ∧ T.objects[o]? = some t := by
  rw [find, Option.bind_eq_some_iff]
  constructor
  · rintro ⟨o', ho', h⟩
    obtain ⟨t', ht', heq⟩ := Option.map_eq_some_iff.mp h
    obtain ⟨rfl, rfl⟩ := Prod.mk.inj heq
    exact ⟨ho', ht'⟩
  · rintro ⟨ho, ht⟩
    exact ⟨o, ho, by rw [ht]; rfl⟩

variable {T : Tables}

theorem find_of_lookup {id : Str} {o : Nat} (hlookup : T.tables.lookup id = some o)
    {t : Table} (ht : T.objects[o]? = some t) : T.find id = some (o, t) :=
  find_eq_some.mpr ⟨hlookup, ht⟩

theorem lookup_eq_none {id : Str} (hobject : ∀ o, T.tables.lookup id = some o → o < T.objects.length)
    (hnone : T.find id = none) : T.tables.lookup id = none := by
  cases hlookup : T.tables.lookup id with
  | none => rfl
  | some o =>
    have ht := List.getElem?_eq_getElem (hobject o hlookup)
    rw [find_of_lookup hlookup ht] at hnone
    cases hnone

theorem Consistent.inj (h : Consistent T) {id id' : Str} {o : Nat} {t t' : Table}
    (hfind : T.find id = some (o, t)) (hfind' : T.find id' = some (o, t')) : id = id' ∧ t = t' := by
  have ht := (find_eq_some.mp hfind).2
  rw [(find_eq_some.mp hfind').2] at ht
  obtain rfl := Option.some.inj ht
  exact ⟨(h.id id o t' hfind).symm.trans (h.id id' o t' hfind'), rfl⟩

/-! ## The operations -/

/-- What `close_table` leaves of a table: a link from the closed one is cut. -/
def unlink (closed : Table) (o : Nat) (t : Table) : Table :=
  if closed.consoTable = some o then { t with srcTable := none } else t

theorem objects_closeTable {id : Str} {T' : Tables} (hclose : closeTable T id = .ok T') {o : Nat}
    {t : Table} (hfind : T.find id = some (o, t)) (o' : Nat) :
    T'.objects[o']? = T.objects[o']?.map (unlink t o') := by
  rw [closeTable, hfind] at hclose
  dsimp only at hclose
  split at hclose
  · cases hclose
  rw [← Except.ok.inj hclose]
  unfold unlink
  cases hconso : t.consoTable with
  | none => cases T.objects[o']? <;> simp
  | some d =>
    by_cases hd : d = o'
    · subst hd
      cases hobject : T.objects[d]? <;> simp [hobject]
    · cases hobject : T.objects[o']? <;> simp [hobject, hd]

theorem find_closeTable {id : Str} {T' : Tables} (hclose : closeTable T id = .ok T') :
    ∃ o t, T.find id = some (o, t) ∧ t.srcTable = none ∧ T'.tables = T.tables.erase id ∧
      T'.objects.length = T.objects.length ∧
      (∀ id' o' t', T'.find id' = some (o', t') ↔
        id' ≠ id ∧ ∃ t₀, T.find id' = some (o', t₀) ∧ t' = unlink t o' t₀) ∧
      (∀ k, T'.policyTables.lookup k = if k.2 = id then none else T.policyTables.lookup k) ∧
      ∀ k, T'.consolidations.lookup k = if k.2 = id then none else T.consolidations.lookup k := by
  have hobject := fun o t => @objects_closeTable T id T' hclose o t
  rw [closeTable] at hclose
  split at hclose
  · cases hclose
  · next o t hfind =>
    split at hclose
    · cases hclose
    · next hsource =>
      have hobjects := hobject o t hfind
      have hfilter : ∀ (m : LuaTable (Str × Str) Nat) (k : Str × Str),
          (m.filter fun k _ => k.2 ≠ id).lookup k = if k.2 = id then none else m.lookup k := by
        intro m k
        rw [LuaTable.lookup_filter]
        cases m.lookup k with
        | none => simp
        | some o => by_cases hid : k.2 = id <;> simp [hid]
      obtain rfl := Except.ok.inj hclose
      refine ⟨o, t, hfind, by simpa using hsource, rfl, ?_, ?_, hfilter _, hfilter _⟩
      · cases t.consoTable with
        | none => rfl
        | some d => exact length_modify ..
      · intro id' o' t'
        rw [find_eq_some, hobjects]
        show (T.tables.erase id).lookup id' = some o' ∧ _ ↔ _
        by_cases hid : id' = id
        · rw [hid, lookup_erase]
          simp
        rw [lookup_erase_ne hid, Option.map_eq_some_iff]
        constructor
        · rintro ⟨ho, t₀, ht₀, rfl⟩
          exact ⟨hid, t₀, find_eq_some.mpr ⟨ho, ht₀⟩, rfl⟩
        · rintro ⟨-, t₀, hfind₀, rfl⟩
          obtain ⟨ho, ht₀⟩ := find_eq_some.mp hfind₀
          exact ⟨ho, t₀, ht₀, rfl⟩

theorem unlink_consoTable (closed : Table) (o : Nat) (t : Table) :
    (unlink closed o t).consoTable = t.consoTable := by
  rw [unlink]
  split <;> rfl

theorem unlink_srcTable {closed : Table} {o : Nat} {t : Table} {d : Nat} :
    (unlink closed o t).srcTable = some d ↔ closed.consoTable ≠ some o ∧ t.srcTable = some d := by
  rw [unlink]
  split
  · next heq => simp [heq]
  · next hne => simp [hne]

theorem unlink_fields (closed : Table) (o : Nat) (t : Table) :
    (unlink closed o t).id = t.id ∧ (unlink closed o t).sendPolicy = t.sendPolicy ∧
      (unlink closed o t).consoPolicy = t.consoPolicy := by
  rw [unlink]
  split <;> exact ⟨rfl, rfl, rfl⟩

theorem Consistent.closeTable (h : Consistent T) {id : Str} {T' : Tables}
    (hclose : closeTable T id = .ok T') : Consistent T' := by
  obtain ⟨o, t, hfind, hsource, htables, hlength, hfind', hpolicies, hconso⟩ :=
    find_closeTable hclose
  refine ⟨?_, ?_, ?_, ?_, ?_, ?_, ?_, ?_⟩
  · intro id' o' hlookup
    rw [htables] at hlookup
    rw [hlength]
    by_cases hid : id' = id
    · rw [hid, lookup_erase] at hlookup
      cases hlookup
    · exact h.object id' o' ((lookup_erase_ne hid).symm.trans hlookup)
  · intro id' o' t' hf
    obtain ⟨-, t₀, hf₀, rfl⟩ := (hfind' id' o' t').mp hf
    rw [(unlink_fields t o' t₀).1]
    exact h.id id' o' t₀ hf₀
  · intro p id' o'
    rw [hpolicies]
    by_cases hid : id' = id
    · rw [if_pos hid]
      simp [hfind', hid]
    rw [if_neg hid, h.tables]
    constructor
    · rintro ⟨t₀, hf₀, hp⟩
      exact ⟨_, (hfind' id' o' _).mpr ⟨hid, t₀, hf₀, rfl⟩, by
        rw [(unlink_fields t o' t₀).2.1, hp]⟩
    · rintro ⟨t', hf, hp⟩
      obtain ⟨-, t₀, hf₀, rfl⟩ := (hfind' id' o' t').mp hf
      exact ⟨t₀, hf₀, by rw [← hp, (unlink_fields t o' t₀).2.1]⟩
  · intro p id' o'
    rw [hconso]
    by_cases hid : id' = id
    · rw [if_pos hid]
      simp [hfind', hid]
    rw [if_neg hid, h.consolidations]
    constructor
    · rintro ⟨t₀, hf₀, hp⟩
      exact ⟨_, (hfind' id' o' _).mpr ⟨hid, t₀, hf₀, rfl⟩, by
        rw [(unlink_fields t o' t₀).2.2, hp]⟩
    · rintro ⟨t', hf, hp⟩
      obtain ⟨-, t₀, hf₀, rfl⟩ := (hfind' id' o' t').mp hf
      exact ⟨t₀, hf₀, by rw [← hp, (unlink_fields t o' t₀).2.2]⟩
  · intro id' o' t' hf
    obtain ⟨-, t₀, hf₀, rfl⟩ := (hfind' id' o' t').mp hf
    rw [(unlink_fields t o' t₀).2.2, unlink_consoTable]
    exact h.policy id' o' t₀ hf₀
  · intro id₁ o₁ t₁ d hf₁ hd
    obtain ⟨hid₁, t₀, hf₀, rfl⟩ := (hfind' id₁ o₁ t₁).mp hf₁
    rw [unlink_consoTable] at hd
    obtain ⟨id₂, t₂, hf₂, hs₂⟩ := h.source id₁ o₁ t₀ d hf₀ hd
    have hid₂ : id₂ ≠ id := by
      rintro rfl
      rw [hfind] at hf₂
      obtain ⟨rfl, rfl⟩ := Prod.mk.inj (Option.some.inj hf₂)
      rw [hsource] at hs₂
      cases hs₂
    refine ⟨id₂, unlink t d t₂, (hfind' id₂ d _).mpr ⟨hid₂, t₂, hf₂, rfl⟩,
      unlink_srcTable.mpr ⟨?_, hs₂⟩⟩
    -- The destination has one source, which is not the one that is closed.
    intro hlink
    obtain ⟨id₃, t₃, hf₃, hs₃⟩ := h.source id o t d hfind hlink
    obtain ⟨rfl, rfl⟩ := h.inj hf₂ hf₃
    rw [hs₂] at hs₃
    obtain rfl := Option.some.inj hs₃
    exact hid₁ (h.inj hf₀ hfind).1
  · intro id₁ o₁ t₁ d hf₁ hd
    obtain ⟨-, t₀, hf₀, rfl⟩ := (hfind' id₁ o₁ t₁).mp hf₁
    obtain ⟨hnot, hd⟩ := unlink_srcTable.mp hd
    obtain ⟨id₂, t₂, hf₂, hc₂⟩ := h.destination id₁ o₁ t₀ d hf₀ hd
    have hid₂ : id₂ ≠ id := by
      rintro rfl
      rw [hfind] at hf₂
      obtain ⟨rfl, rfl⟩ := Prod.mk.inj (Option.some.inj hf₂)
      exact hnot hc₂
    exact ⟨id₂, unlink t d t₂, (hfind' id₂ d _).mpr ⟨hid₂, t₂, hf₂, rfl⟩, by
      rw [unlink_consoTable, hc₂]⟩
  · intro id' o' t' p hf hp
    obtain ⟨-, t₀, hf₀, rfl⟩ := (hfind' id' o' t').mp hf
    obtain ⟨-, hsend, hpolicy⟩ := unlink_fields t o' t₀
    rw [hsend]
    exact h.never id' o' t₀ p hf₀ (hpolicy ▸ hp)

/-- A new table is in `TABLES` besides those that were there. -/
theorem find_listed (h : Consistent T) {id : Str} (hnew : T.find id = none) {t : Table}
    {T' : Tables} (htables : T'.tables = T.tables.insert id T.objects.length)
    (hobjects : T'.objects = T.objects ++ [t]) {id' : Str} {o' : Nat} {t' : Table} :
    T'.find id' = some (o', t') ↔
      id' = id ∧ o' = T.objects.length ∧ t' = t ∨ T.find id' = some (o', t') := by
  rw [find_eq_some, htables, hobjects]
  by_cases hid : id' = id
  · subst hid
    rw [lookup_insert, hnew]
    constructor
    · rintro ⟨ho, ht⟩
      obtain rfl := Option.some.inj ho
      rw [List.getElem?_concat_length] at ht
      exact .inl ⟨rfl, rfl, (Option.some.inj ht).symm⟩
    · rintro (⟨-, rfl, rfl⟩ | hnone)
      · exact ⟨rfl, List.getElem?_concat_length⟩
      · cases hnone
  · rw [lookup_insert_ne hid, find_eq_some]
    constructor
    · rintro ⟨ho, ht⟩
      have hlt := h.object id' o' ho
      rw [List.getElem?_append_left hlt] at ht
      exact .inr ⟨ho, ht⟩
    · rintro (⟨heq, -⟩ | ⟨ho, ht⟩)
      · exact absurd heq hid
      · rw [List.getElem?_append_left (h.object id' o' ho)]
        exact ⟨ho, ht⟩

theorem lookup_insert_listed {m : LuaTable (Str × Str) Nat} {q id : Str} {n : Nat}
    {p id' : Str} {o : Nat} :
    (m.insert (q, id) n).lookup (p, id') = some o ↔
      (p, id') = (q, id) ∧ o = n ∨ (p, id') ≠ (q, id) ∧ m.lookup (p, id') = some o := by
  by_cases heq : (p, id') = (q, id)
  · rw [heq, lookup_insert]
    simp [eq_comm]
  · rw [lookup_insert_ne heq]
    simp [heq]

theorem Consistent.add (h : Consistent T) {t : Table} (hnew : T.find t.id = none)
    (hconso : t.consoPolicy = none) (htable : t.consoTable = none) (hsrc : t.srcTable = none)
    {T' : Tables} (htables : T'.tables = T.tables.insert t.id T.objects.length)
    (hobjects : T'.objects = T.objects ++ [t])
    (hpolicies : T'.policyTables = T.policyTables.insert (t.sendPolicy, t.id) T.objects.length)
    (hconsolidations : T'.consolidations = T.consolidations) : Consistent T' := by
  have hfind : ∀ {id' o' t'}, T'.find id' = some (o', t') ↔
      id' = t.id ∧ o' = T.objects.length ∧ t' = t ∨ T.find id' = some (o', t') :=
    find_listed h hnew htables hobjects
  have hkeep : ∀ {id' o' t'}, T.find id' = some (o', t') → T'.find id' = some (o', t') :=
    fun hf => hfind.mpr (.inr hf)
  refine ⟨?_, ?_, ?_, ?_, ?_, ?_, ?_, ?_⟩
  · intro id' o' hlookup
    rw [htables] at hlookup
    rw [hobjects, length_append]
    by_cases hid : id' = t.id
    · rw [hid, lookup_insert] at hlookup
      rw [← Option.some.inj hlookup]
      exact Nat.lt_succ_self _
    · exact Nat.lt_succ_of_lt (h.object id' o' ((lookup_insert_ne hid).symm.trans hlookup))
  · intro id' o' t' hf
    rcases hfind.mp hf with ⟨rfl, -, rfl⟩ | hf
    · rfl
    · exact h.id id' o' t' hf
  · intro p id' o'
    rw [hpolicies, lookup_insert_listed, h.tables]
    constructor
    · rintro (⟨heq, rfl⟩ | ⟨-, t', hf, hp⟩)
      · obtain ⟨rfl, rfl⟩ := Prod.mk.inj heq
        exact ⟨t, hfind.mpr (.inl ⟨rfl, rfl, rfl⟩), rfl⟩
      · exact ⟨t', hkeep hf, hp⟩
    · rintro ⟨t', hf, rfl⟩
      rcases hfind.mp hf with ⟨rfl, rfl, rfl⟩ | hf
      · exact .inl ⟨rfl, rfl⟩
      · refine .inr ⟨?_, t', hf, rfl⟩
        intro heq
        rw [(Prod.mk.inj heq).2, hnew] at hf
        cases hf
  · intro p id' o'
    rw [hconsolidations, h.consolidations]
    constructor
    · rintro ⟨t', hf, hp⟩
      exact ⟨t', hkeep hf, hp⟩
    · rintro ⟨t', hf, hp⟩
      rcases hfind.mp hf with ⟨-, -, rfl⟩ | hf
      · rw [hconso] at hp
        cases hp
      · exact ⟨t', hf, hp⟩
  · intro id' o' t' hf
    rcases hfind.mp hf with ⟨-, -, rfl⟩ | hf
    · simp [hconso, htable]
    · exact h.policy id' o' t' hf
  · intro id' o' t' d hf hd
    rcases hfind.mp hf with ⟨-, -, rfl⟩ | hf
    · rw [htable] at hd
      cases hd
    · obtain ⟨id₂, t₂, hf₂, hs₂⟩ := h.source id' o' t' d hf hd
      exact ⟨id₂, t₂, hkeep hf₂, hs₂⟩
  · intro id' o' t' d hf hd
    rcases hfind.mp hf with ⟨-, -, rfl⟩ | hf
    · rw [hsrc] at hd
      cases hd
    · obtain ⟨id₂, t₂, hf₂, hc₂⟩ := h.destination id' o' t' d hf hd
      exact ⟨id₂, t₂, hkeep hf₂, hc₂⟩
  · intro id' o' t' p hf hp
    rcases hfind.mp hf with ⟨-, -, rfl⟩ | hf
    · rw [hconso] at hp
      cases hp
    · exact h.never id' o' t' p hf hp

theorem Consistent.create (h : Consistent T) {id path policy : Str} {columns : List Column}
    (hnew : T.find id = none) (failure : Option String) :
    Consistent (createTable T id path columns policy failure).1 := by
  cases failure with
  | some msg => exact h
  | none =>
    refine h.add (t := ⟨id, path, columns.map Column.name, policy, none, none, none⟩) hnew
      rfl rfl rfl rfl ?_ rfl rfl
    show (T.objects ++ [_]).modify T.objects.length _ = T.objects ++ [_]
    rw [modify_eq_take_cons_drop (by simp)]
    simp

def link (src dst : Nat) (consoPolicy : Str) (o : Nat) (t : Table) : Table :=
  let t := if o = src then { t with consoTable := some dst, consoPolicy := some consoPolicy } else t
  if o = dst then { t with srcTable := some src } else t

theorem link_fields (src dst : Nat) (CP : Str) (o : Nat) (t : Table) :
    (link src dst CP o t).id = t.id ∧ (link src dst CP o t).sendPolicy = t.sendPolicy ∧
      (link src dst CP o t).consoTable = (if o = src then some dst else t.consoTable) ∧
      (link src dst CP o t).consoPolicy = (if o = src then some CP else t.consoPolicy) ∧
      (link src dst CP o t).srcTable = (if o = dst then some src else t.srcTable) := by
  unfold link
  split <;> split <;> simp [*]

/-- A table that is no source is linked to one that is no destination. -/
theorem Consistent.link (h : Consistent T) {srcId dstId CP : Str} {src dst : Nat} {s d : Table}
    (hsrc : T.find srcId = some (src, s)) (hdst : T.find dstId = some (dst, d))
    (hne : src ≠ dst) (hs : s.consoTable = none) (hd : d.srcTable = none)
    (hnever : s.sendPolicy = Data.never ∨ CP = Data.never) {T' : Tables}
    (htables : ∀ id, T'.tables.lookup id = T.tables.lookup id)
    (hlength : T'.objects.length = T.objects.length)
    (hobjects : ∀ o, T'.objects[o]? = T.objects[o]?.map (Tables.link src dst CP o))
    (hpolicies : T'.policyTables = T.policyTables)
    (hconsolidations : T'.consolidations = T.consolidations.insert (CP, srcId) src) :
    Consistent T' := by
  have hfind : ∀ {id o t}, T'.find id = some (o, t) ↔
      ∃ t₀, T.find id = some (o, t₀) ∧ t = Tables.link src dst CP o t₀ := by
    intro id o t
    rw [find_eq_some, htables, hobjects, Option.map_eq_some_iff]
    constructor
    · rintro ⟨ho, t₀, ht₀, rfl⟩
      exact ⟨t₀, find_eq_some.mpr ⟨ho, ht₀⟩, rfl⟩
    · rintro ⟨t₀, hf, rfl⟩
      obtain ⟨ho, ht₀⟩ := find_eq_some.mp hf
      exact ⟨ho, t₀, ht₀, rfl⟩
  have hfields := link_fields src dst CP
  have hkeep : ∀ {id o t}, T.find id = some (o, t) →
      T'.find id = some (o, Tables.link src dst CP o t) := fun hf => hfind.mpr ⟨_, hf, rfl⟩
  refine ⟨?_, ?_, ?_, ?_, ?_, ?_, ?_, ?_⟩
  · intro id o hlookup
    rw [hlength]
    exact h.object id o (by rw [← htables, hlookup])
  · intro id o t hf
    obtain ⟨t₀, hf₀, rfl⟩ := hfind.mp hf
    rw [(hfields o t₀).1]
    exact h.id id o t₀ hf₀
  · intro p id o
    rw [hpolicies, h.tables]
    constructor
    · rintro ⟨t₀, hf₀, hp⟩
      exact ⟨_, hkeep hf₀, by rw [(hfields o t₀).2.1, hp]⟩
    · rintro ⟨t, hf, hp⟩
      obtain ⟨t₀, hf₀, rfl⟩ := hfind.mp hf
      exact ⟨t₀, hf₀, by rw [← hp, (hfields o t₀).2.1]⟩
  · intro p id o
    rw [hconsolidations, lookup_insert_listed, h.consolidations]
    constructor
    · rintro (⟨heq, rfl⟩ | ⟨-, t₀, hf₀, hp⟩)
      · obtain ⟨rfl, rfl⟩ := Prod.mk.inj heq
        exact ⟨_, hkeep hsrc, by rw [(hfields o s).2.2.2.1, if_pos rfl]⟩
      · refine ⟨_, hkeep hf₀, ?_⟩
        rw [(hfields o t₀).2.2.2.1, if_neg, hp]
        rintro rfl
        obtain ⟨-, rfl⟩ := h.inj hsrc hf₀
        have hsome := (h.policy srcId o s hsrc).mp (by rw [hp]; rfl)
        rw [hs] at hsome
        cases hsome
    · rintro ⟨t, hf, hp⟩
      obtain ⟨t₀, hf₀, rfl⟩ := hfind.mp hf
      rw [(hfields o t₀).2.2.2.1] at hp
      split at hp
      · next ho =>
        subst ho
        obtain ⟨rfl, -⟩ := h.inj hsrc hf₀
        rw [Option.some.inj hp]
        exact .inl ⟨rfl, rfl⟩
      · next ho =>
        refine .inr ⟨?_, t₀, hf₀, hp⟩
        intro heq
        rw [(Prod.mk.inj heq).2, hsrc] at hf₀
        exact ho (Prod.mk.inj (Option.some.inj hf₀)).1.symm
  · intro id o t hf
    obtain ⟨t₀, hf₀, rfl⟩ := hfind.mp hf
    rw [(hfields o t₀).2.2.1, (hfields o t₀).2.2.2.1]
    split
    · simp
    · exact h.policy id o t₀ hf₀
  · intro id o t e hf he
    obtain ⟨t₀, hf₀, rfl⟩ := hfind.mp hf
    rw [(hfields o t₀).2.2.1] at he
    split at he
    · next ho =>
      obtain rfl := Option.some.inj he
      exact ⟨dstId, _, hkeep hdst, by rw [(hfields dst d).2.2.2.2, if_pos rfl, ho]⟩
    obtain ⟨id₂, t₂, hf₂, hs₂⟩ := h.source id o t₀ e hf₀ he
    refine ⟨id₂, _, hkeep hf₂, ?_⟩
    rw [(hfields e t₂).2.2.2.2, if_neg, hs₂]
    rintro rfl
    obtain ⟨-, rfl⟩ := h.inj hdst hf₂
    rw [hd] at hs₂
    cases hs₂
  · intro id o t e hf he
    obtain ⟨t₀, hf₀, rfl⟩ := hfind.mp hf
    rw [(hfields o t₀).2.2.2.2] at he
    split at he
    · next ho =>
      obtain rfl := Option.some.inj he
      exact ⟨srcId, _, hkeep hsrc, by rw [(hfields src s).2.2.1, if_pos rfl, ho]⟩
    obtain ⟨id₂, t₂, hf₂, hc₂⟩ := h.destination id o t₀ e hf₀ he
    refine ⟨id₂, _, hkeep hf₂, ?_⟩
    rw [(hfields e t₂).2.2.1, if_neg, hc₂]
    rintro rfl
    obtain ⟨-, rfl⟩ := h.inj hsrc hf₂
    rw [hs] at hc₂
    cases hc₂
  · intro id o t p hf hp
    obtain ⟨t₀, hf₀, rfl⟩ := hfind.mp hf
    rw [(hfields o t₀).2.2.2.1] at hp
    rw [(hfields o t₀).2.1]
    split at hp
    · next ho =>
      subst ho
      obtain ⟨-, rfl⟩ := h.inj hsrc hf₀
      rw [← Option.some.inj hp]
      exact hnever
    · exact h.never id o t₀ p hf₀ hp

theorem Consistent.congr (h : Consistent T) {T' : Tables} (hobjects : T'.objects = T.objects)
    (htables : ∀ id, T'.tables.lookup id = T.tables.lookup id)
    (hpolicies : ∀ k, T'.policyTables.lookup k = T.policyTables.lookup k)
    (hconsolidations : ∀ k, T'.consolidations.lookup k = T.consolidations.lookup k) :
    Consistent T' := by
  have hfind : ∀ id, T'.find id = T.find id := by
    intro id
    rw [find, find, htables, hobjects]
  refine ⟨?_, ?_, ?_, ?_, ?_, ?_, ?_, ?_⟩ <;>
    simp only [hfind, htables, hobjects, hpolicies, hconsolidations]
  · exact h.object
  · exact h.id
  · exact h.tables
  · exact h.consolidations
  · exact h.policy
  · exact h.source
  · exact h.destination
  · exact h.never

theorem lookup_insert_same {α β : Type} [DecidableEq α] {m : LuaTable α β} {a : α} {b : β}
    (h : m.lookup a = some b) (a' : α) : (m.insert a b).lookup a' = m.lookup a' := by
  by_cases heq : a' = a
  · rw [heq, lookup_insert, h]
  · rw [lookup_insert_ne heq]

theorem modify_same {α : Type} {l : List α} {i : Nat} {a : α} {f : α → α} (h : l[i]? = some a)
    (hf : f a = a) : l.modify i f = l := by
  apply ext_getElem?
  intro j
  by_cases hj : i = j
  · subst hj
    rw [List.getElem?_modify_eq, h]
    exact congrArg some hf
  · rw [List.getElem?_modify_ne _ _ hj]

theorem Consistent.relist (h : Consistent T) {id : Str} {o : Nat} {t : Table}
    (hfind : T.find id = some (o, t)) : Consistent (listTable T o t.sendPolicy id) := by
  obtain ⟨hlookup, ht⟩ := find_eq_some.mp hfind
  exact h.congr (modify_same ht rfl) (lookup_insert_same hlookup)
    (lookup_insert_same ((h.tables _ _ _).mpr ⟨t, hfind, rfl⟩)) fun _ => rfl

theorem Consistent.relink (h : Consistent T) {srcId dstId CP : Str} {src dst : Nat} {s d : Table}
    (hsrc : T.find srcId = some (src, s)) (hdst : T.find dstId = some (dst, d))
    (hs : s.consoTable = some dst) (hCP : s.consoPolicy = some CP) :
    Consistent (linkTable T src dst srcId dstId d.sendPolicy CP) := by
  obtain ⟨hsrc₀, hs₀⟩ := find_eq_some.mp hsrc
  obtain ⟨hdst₀, hd₀⟩ := find_eq_some.mp hdst
  refine h.congr ?_ (lookup_insert_same hdst₀)
    (lookup_insert_same ((h.tables _ _ _).mpr ⟨d, hdst, rfl⟩))
    (lookup_insert_same ((h.consolidations _ _ _).mpr ⟨s, hsrc, hCP⟩))
  show (T.objects.modify dst _).modify src _ = T.objects
  rw [modify_same hd₀ rfl]
  exact modify_same hs₀ (by rw [← hs, ← hCP])

theorem Consistent.createLinked (h : Consistent T) {src : Nat} {srcId dstId dstPath SP CP : Str}
    {columns : List Column} (hnew : T.find dstId = none)
    (hnever : ∀ o s, T.find srcId = some (o, s) →
      s.sendPolicy = Data.never ∨ CP = Data.never) (failure : Option String) :
    Consistent (createConsolidation T src srcId dstId dstPath columns SP CP failure).1 := by
  unfold createConsolidation
  split
  · next o s hsrc =>
    split
    · next hcond =>
      obtain ⟨rfl, hs⟩ := hcond
      -- The destination is made and listed, and then linked.
      let d : Table := ⟨dstId, dstPath, columns.map Column.name, SP, none, none, none⟩
      let T₁ : Tables := {
        objects := T.objects ++ [d]
        tables := T.tables.insert dstId T.objects.length
        policyTables := T.policyTables.insert (SP, dstId) T.objects.length
        consolidations := T.consolidations }
      have h₁ : Consistent T₁ := h.add (t := d) hnew rfl rfl rfl rfl rfl rfl rfl
      have hfind₁ := @find_listed T h dstId hnew d T₁ rfl rfl
      have hsrc₁ : T₁.find srcId = some (o, s) := hfind₁.mpr (.inr hsrc)
      have hdst₁ : T₁.find dstId = some (T.objects.length, d) := hfind₁.mpr (.inl ⟨rfl, rfl, rfl⟩)
      have hlt : o < T.objects.length := h.object srcId o (find_eq_some.mp hsrc).1
      refine h₁.link hsrc₁ hdst₁ (Nat.ne_of_lt hlt) hs rfl (hnever o s hsrc) (fun _ => rfl) ?_ ?_
        rfl rfl
      · show ((List.modify _ _ _).modify _ _).length = _
        rw [length_modify, length_modify]
        simp [addObject, T₁]
      · intro i
        show ((List.modify _ _ _).modify _ _)[i]? = ((T.objects ++ [d])[i]?).map _
        rw [List.getElem?_modify, List.getElem?_modify]
        show _ <$> _ <$> (T.objects ++ [_])[i]? = _
        rcases Nat.lt_trichotomy i T.objects.length with ho | rfl | ho
        · rw [List.getElem?_append_left ho, List.getElem?_append_left ho]
          have hne : T.objects.length ≠ i := Nat.ne_of_gt ho
          cases T.objects[i]? with
          | none => rfl
          | some t =>
            by_cases hsame : o = i <;> simp [Tables.link, hne, hne.symm, hsame, Ne.symm]
        · rw [List.getElem?_concat_length, List.getElem?_concat_length]
          have hne : o ≠ T.objects.length := Nat.ne_of_lt hlt
          simp [Tables.link, hne, hne.symm, d]
        · have hlen : ∀ t : Table, (T.objects ++ [t])[i]? = none := by
            intro t
            apply List.getElem?_eq_none
            rw [length_append]
            exact ho
          rw [hlen, hlen]
          rfl
    · exact h
  · exact h
  · exact h

section

variable {policies : List Str} {canon : Str → Str}

theorem find_closed {id : Str} {T' : Tables} (hclose : closeTable T id = .ok T') :
    T'.find id = none := by
  obtain ⟨o, t, -, -, -, -, hfind, -, -⟩ := find_closeTable hclose
  rw [Option.eq_none_iff_forall_ne_some]
  rintro ⟨o', t'⟩ hf
  exact ((hfind id o' t').mp hf).1 rfl

theorem Consistent.tableNew (h : Consistent T) {asset path storage : Str} {policy : Option Str}
    {columns : List Column} {purge : Bool} {failure : Option String}
    (hsound : Sound policies canon T
      (.tableNew asset path storage policy columns purge failure)) :
    Consistent (tableNew policies T asset path storage policy columns purge failure).1 := by
  unfold Tables.tableNew
  dsimp only
  split
  · exact h
  · next P hP =>
    split
    · next hnone => exact h.create hnone failure
    · next o t hfind =>
      split
      · exact h
      · next hsrc =>
        split
        · split
          · exact h
          · next T' hclose => exact (h.closeTable hclose).create (find_closed hclose) failure
        · next hpurge =>
          split
          · exact h
          · have hsame := hsound (by simpa using hpurge) o t P hfind (by simpa using hsrc) hP
            rw [← hsame]
            exact h.relist hfind

theorem Consistent.consoNew (h : Consistent T) {srcId path storage : Str} {columns : List Column}
    {sendPolicy consoPolicy : Option Str} {purge : Bool} {failure : Option String}
    (hsound : Sound policies canon T
      (.consoNew srcId path storage columns sendPolicy consoPolicy purge failure)) :
    Consistent (consoNew policies canon T srcId path storage columns sendPolicy consoPolicy purge
      failure).1 := by
  unfold Tables.consoNew
  split
  · exact h
  · next src s hsrc =>
    dsimp only
    split
    · exact h
    · exact h
    · next SP CP hSP hCP =>
      split
      · exact h
      · next hcond =>
        have hnever : s.sendPolicy = Data.never ∨ CP = Data.never := by
          by_contra hnot
          rw [not_or] at hnot
          exact hcond hnot
        split
        · next hnone =>
          apply h.createLinked hnone
          intro o t hf
          rw [hsrc] at hf
          obtain ⟨-, rfl⟩ := Prod.mk.inj (Option.some.inj hf)
          exact hnever
        · next dst d hdst =>
          split
          · next hlink =>
            split
            · exact h
            · next hpurge =>
              split
              · exact h
              · obtain ⟨hd, hs⟩ :=
                  hsound (by simpa using hpurge) src s dst d SP CP hsrc hdst hlink hSP hCP
                rw [← hd]
                exact h.relink hsrc hdst hlink hs
          · split
            · exact h
            · split
              · exact h
              · split
                · exact h
                · next T' hclose =>
                  apply (h.closeTable hclose).createLinked (find_closed hclose)
                  obtain ⟨_, t, -, -, -, -, hfind, -, -⟩ := find_closeTable hclose
                  intro o t' hf
                  obtain ⟨-, t₀, hf₀, rfl⟩ := (hfind srcId o t').mp hf
                  rw [hsrc] at hf₀
                  obtain ⟨-, rfl⟩ := Prod.mk.inj (Option.some.inj hf₀)
                  rw [(unlink_fields t o _).2.1]
                  exact hnever

theorem Consistent.step (h : Consistent T) {e : Event} (hsound : Sound policies canon T e) :
    Consistent (step policies canon T e) := by
  cases e with
  | tableNew => exact h.tableNew hsound
  | consoNew => exact h.consoNew hsound
  | closeTable id =>
    rw [Tables.step]
    split
    · exact h
    · next T' hclose => exact h.closeTable hclose

end

/-! ## Runs -/

/-- As long as no table is opened again under other policies, the maps and the links agree. -/
theorem tables_consistent {policies : List Str} {canon : Str → Str} {T : Tables}
    (h : Runs (step policies canon) (Sound policies canon) init T) : Consistent T :=
  h.invariant (fun _ _ hsound hT => hT.step hsound) consistent_init

/-- A table with a consolidation. -/
theorem tables_consistent_two :
    let policies := ["default".toList, "never".toList]
    Consistent ([Event.tableNew "asset".toList "a".toList "ram".toList (some "never".toList)
        [⟨false, "x".toList⟩] false none,
      .consoNew "ram:asset.a-x.tbl".toList "b".toList "ram".toList [⟨true, "x".toList⟩]
        (some "default".toList) none false none].foldl (step policies id) init) := by
  intro policies
  refine @tables_consistent policies id _ ?_
  apply Along.runs
  refine ⟨?_, ?_, trivial⟩
  · intro _ o t P hfind
    cases hfind
  · intro _ src t dst d SP CP hsrc hdst hlink
    cases hsrc
    cases hlink

/-- A table is opened again under another policy: it stays listed by the first one. -/
theorem reopened_listed_twice :
    ¬ ∀ (policies : List Str) (canon : Str → Str) (T : Tables),
      Runs (step policies canon) (fun _ _ => True) init T → Consistent T := by
  intro hall
  let policies := ["default".toList, "never".toList]
  let es := [Event.tableNew "asset".toList "a".toList "ram".toList none [⟨false, "x".toList⟩] false
      none,
    .tableNew "asset".toList "a".toList "ram".toList (some "never".toList)
      [⟨false, "x".toList⟩] false none]
  have hruns : Runs (step policies id) (fun _ _ => True) init (es.foldl (step policies id) init) :=
    Along.runs ⟨trivial, trivial, trivial⟩
  have h := hall policies id _ hruns
  obtain ⟨t, hfind, hpolicy⟩ :=
    (h.tables "default".toList "ram:asset.a-x.tbl".toList 0).mp (by decide)
  cases hfind
  exact absurd hpolicy (by decide)

end Tables

end Mihini.Data
