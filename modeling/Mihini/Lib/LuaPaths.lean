import Mihini.Lib.LuaTree

/-!
# Paths in trees of Lua tables

What is at a path of a tree of tables: nothing, a table or a value.  How an assignment, a removal
and the creation of the tables on the way to a path change it.
-/

namespace Mihini.Lib

open List

variable {κ α : Type}

def LuaTree.kind : LuaTree κ α → Option α
  | .leaf a => some a
  | .table _ => none

section

variable [DecidableEq κ]

mutual

def LuaTree.Distinct : LuaTree κ α → Prop
  | .leaf _ => True
  | .table fields => fields.Distinct

def LuaFields.Distinct : LuaFields κ α → Prop
  | .nil => True
  | .cons key t rest => rest.lookup key = none ∧ t.Distinct ∧ rest.Distinct

end

namespace LuaFields

def get : LuaFields κ α → List κ → Option (LuaTree κ α)
  | f, [] => some (.table f)
  | f, k :: ks =>
    match f.lookup k with
    | none => none
    | some (.leaf a) => if ks.isEmpty then some (.leaf a) else none
    | some (.table fields) => fields.get ks

def node (f : LuaFields κ α) (p : List κ) : Option (Option α) := (f.get p).map LuaTree.kind

def erase : LuaFields κ α → κ → LuaFields κ α
  | .nil, _ => .nil
  | .cons k' t' rest, k => if k' = k then rest.erase k else .cons k' t' (rest.erase k)

def clear : LuaFields κ α → List κ → LuaFields κ α
  | f, [] => f
  | f, [k] => f.erase k
  | f, k :: k' :: ks =>
    match f.lookup k with
    | some (.table fields) => f.replace k (.table (fields.clear (k' :: ks)))
    | _ => f

def blocked : LuaFields κ α → List κ → Option (List κ)
  | _, [] => none
  | f, k :: ks =>
    match f.lookup k with
    | none => none
    | some (.leaf _) => some [k]
    | some (.table fields) => (fields.blocked ks).map (k :: ·)

def ensure (before : κ → κ → Bool) : LuaFields κ α → List κ → LuaFields κ α
  | f, [] => f
  | f, k :: ks =>
    match f.lookup k with
    | none => f.insert before k (.table (ensure before .nil ks))
    | some (.leaf _) => f
    | some (.table fields) => f.replace k (.table (fields.ensure before ks))

/-! ## Nodes -/

variable {f : LuaFields κ α} {k j : κ} {t : LuaTree κ α} {p q ks : List κ} {a : α}

@[simp] theorem node_root (f : LuaFields κ α) : f.node [] = some none := rfl

theorem node_of_none (h : f.lookup k = none) (ks : List κ) : f.node (k :: ks) = none := by
  show Option.map LuaTree.kind (match f.lookup k with
    | none => none
    | some (.leaf a) => if ks.isEmpty then some (.leaf a) else none
    | some (.table fields) => fields.get ks) = none
  rw [h]
  rfl

theorem node_of_leaf (h : f.lookup k = some (.leaf a)) (ks : List κ) :
    f.node (k :: ks) = if ks.isEmpty then some (some a) else none := by
  show Option.map LuaTree.kind (match f.lookup k with
    | none => none
    | some (.leaf a) => if ks.isEmpty then some (.leaf a) else none
    | some (.table fields) => fields.get ks) = _
  rw [h]
  cases ks <;> rfl

theorem node_of_table {fields : LuaFields κ α} (h : f.lookup k = some (.table fields))
    (ks : List κ) : f.node (k :: ks) = fields.node ks := by
  show Option.map LuaTree.kind (match f.lookup k with
    | none => none
    | some (.leaf a) => if ks.isEmpty then some (.leaf a) else none
    | some (.table fields) => fields.get ks) = _
  rw [h]
  rfl

theorem node_congr {f' : LuaFields κ α} (h : f'.lookup k = f.lookup k) (ks : List κ) :
    f'.node (k :: ks) = f.node (k :: ks) := by
  show Option.map LuaTree.kind (match f'.lookup k with
    | none => none
    | some (.leaf a) => if ks.isEmpty then some (.leaf a) else none
    | some (.table fields) => fields.get ks) = _
  rw [h]
  rfl

theorem node_of_leads (h : f.node q ≠ none) (hpq : p <+: q) (hne : p ≠ q) : f.node p = some none := by
  induction p generalizing f q with
  | nil => rfl
  | cons k ks ih =>
    obtain ⟨rest, rfl⟩ := hpq
    rw [cons_append] at h hne
    cases hk : f.lookup k with
    | none => exact absurd (node_of_none hk _) h
    | some t =>
      cases t with
      | leaf a =>
        rw [node_of_leaf hk] at h
        have hnil : ks ++ rest = [] := by
          by_contra hcons
          rw [if_neg (by simpa using hcons)] at h
          exact h rfl
        rw [append_eq_nil_iff] at hnil
        rw [hnil.1, hnil.2] at hne
        exact absurd rfl hne
      | table fields =>
        rw [node_of_table hk] at h ⊢
        exact ih h (prefix_append _ _) fun heq => hne (by rw [← heq])

theorem node_below_leaf (h : f.node p = some (some a)) (hpq : p <+: q) (hne : p ≠ q) :
    f.node q = none := by
  by_contra hq
  rw [node_of_leads hq hpq hne] at h
  nomatch Option.some.inj h

/-! ## Changes -/

theorem lookup_erase_self : (f.erase k).lookup k = none := by
  induction f with
  | nil => rfl
  | cons k' t' rest ih =>
    show (if k' = k then rest.erase k else cons k' t' (rest.erase k)).lookup k = none
    by_cases hk : k' = k
    · rw [if_pos hk, ih]
    · rw [if_neg hk, lookup_cons_ne hk, ih]

theorem lookup_erase_ne (h : k ≠ j) : (f.erase k).lookup j = f.lookup j := by
  induction f with
  | nil => rfl
  | cons k' t' rest ih =>
    show (if k' = k then rest.erase k else cons k' t' (rest.erase k)).lookup j = _
    by_cases hk : k' = k
    · rw [if_pos hk, ih, lookup_cons_ne (hk ▸ h)]
    · rw [if_neg hk]
      show (if k' = j then some t' else (rest.erase k).lookup j) = _
      rw [ih]
      rfl

omit [DecidableEq κ] in
theorem cons_prefix_ne {k j : κ} (h : k ≠ j) (ks js : List κ) : ¬ k :: ks <+: j :: js :=
  fun hp => h (cons_prefix_cons.mp hp).1

/-- A value at a path: there are tables above it and nothing below it. -/
theorem node_set (before : κ → κ → Bool) (hp : p ≠ []) (q : List κ) :
    (f.set before p (.leaf a)).node q =
      if q = p then some (some a)
      else if p <+: q then none
      else if q <+: p then some none
      else f.node q := by
  induction p generalizing f q with
  | nil => exact absurd rfl hp
  | cons k ks ih =>
    cases q with
    | nil => simp
    | cons j js =>
      by_cases hkj : k = j
      · subst hkj
        simp only [List.cons.injEq, true_and, cons_prefix_cons]
        cases ks with
        | nil =>
          show (f.insert before k (.leaf a)).node (k :: js) = _
          rw [node_of_leaf (lookup_insert_self before)]
          cases js <;> simp
        | cons k' ks =>
          show (f.insert before k (.table ((f.sub k).set before (k' :: ks) (.leaf a)))).node _ = _
          rw [node_of_table (lookup_insert_self before), ih (by simp)]
          have hsub : js ≠ k' :: ks → ¬ k' :: ks <+: js → ¬ js <+: k' :: ks →
              (f.sub k).node js = f.node (k :: js) := by
            intro _ _ hnil
            cases js with
            | nil => exact absurd nil_prefix hnil
            | cons j' js =>
              cases hk : f.lookup k with
              | none =>
                rw [sub_of_none hk, node_of_none hk]
                rfl
              | some t₀ =>
                cases t₀ with
                | leaf b =>
                  have hempty : f.sub k = nil := by rw [sub, hk]
                  rw [hempty, node_of_leaf hk]
                  rfl
                | table fields => rw [sub_of_table hk, node_of_table hk]
          split
          · rfl
          split
          · rfl
          · split
            · rfl
            · exact hsub ‹_› ‹_› ‹_›
      · rw [if_neg fun heq => hkj (List.cons.inj heq).1.symm, if_neg (cons_prefix_ne hkj ks js),
          if_neg (cons_prefix_ne (Ne.symm hkj) js ks)]
        cases ks with
        | nil => exact node_congr (lookup_insert_ne before hkj) js
        | cons k' ks => exact node_congr (lookup_insert_ne before hkj) js

/-- A removal takes away what is at the path and below it. -/
theorem node_clear (hp : p ≠ []) (q : List κ) :
    (f.clear p).node q = if p <+: q then none else f.node q := by
  induction p generalizing f q with
  | nil => exact absurd rfl hp
  | cons k ks ih =>
    cases q with
    | nil => simp
    | cons j js =>
      by_cases hkj : k = j
      · subst hkj
        simp only [cons_prefix_cons, true_and]
        cases ks with
        | nil =>
          show (f.erase k).node (k :: js) = _
          rw [node_of_none lookup_erase_self, if_pos nil_prefix]
        | cons k' ks =>
          cases hk : f.lookup k with
          | none =>
            have hsame : f.clear (k :: k' :: ks) = f := by rw [clear, hk]
            rw [hsame, node_of_none hk]
            split <;> rfl
          | some t₀ =>
            cases t₀ with
            | leaf b =>
              have hsame : f.clear (k :: k' :: ks) = f := by rw [clear, hk]
              rw [hsame, node_of_leaf hk]
              cases js with
              | nil => rw [if_neg fun h => cons_ne_nil _ _ (prefix_nil.mp h)]
              | cons j' js =>
                show none = if k' :: ks <+: j' :: js then none else none
                split <;> rfl
            | table fields =>
              have hstep : f.clear (k :: k' :: ks) =
                  f.replace k (.table (fields.clear (k' :: ks))) := by rw [clear, hk]
              rw [hstep, node_of_table (lookup_replace_self (by rw [hk]; rfl)), ih (by simp),
                node_of_table hk]
      · rw [if_neg (cons_prefix_ne hkj ks js)]
        cases ks with
        | nil => exact node_congr (lookup_erase_ne hkj) js
        | cons k' ks =>
          have hlookup : (f.clear (k :: k' :: ks)).lookup j = f.lookup j := by
            rw [clear]
            split
            · exact lookup_replace_ne hkj
            · rfl
          exact node_congr hlookup js

/-- The creation of tables: nothing else changes. -/
theorem node_ensure (before : κ → κ → Bool) (q : List κ) :
    (f.ensure before p).node q =
      if f.blocked p = none ∧ q <+: p then some none else f.node q := by
  induction p generalizing f q with
  | nil =>
    show f.node q = _
    by_cases hq : q = []
    · rw [hq]
      split <;> rfl
    · rw [if_neg fun h => hq (prefix_nil.mp h.2)]
  | cons k ks ih =>
    cases q with
    | nil => simp
    | cons j js =>
      by_cases hkj : k = j
      · subst hkj
        simp only [cons_prefix_cons, true_and]
        cases hk : f.lookup k with
        | none =>
          have hblocked : f.blocked (k :: ks) = none := by rw [blocked, hk]
          have hempty : (nil : LuaFields κ α).blocked ks = none := by cases ks <;> rfl
          have hstep : f.ensure before (k :: ks) =
              f.insert before k (.table (ensure before .nil ks)) := by rw [ensure, hk]
          rw [hstep, node_of_table (lookup_insert_self before), ih, hblocked, hempty,
            node_of_none hk]
          cases js with
          | nil => simp
          | cons j' js => rfl
        | some t₀ =>
          cases t₀ with
          | leaf b =>
            have hblocked : f.blocked (k :: ks) = some [k] := by rw [blocked, hk]
            have hsame : f.ensure before (k :: ks) = f := by rw [ensure, hk]
            rw [hsame, hblocked, if_neg fun h => nomatch h.1]
          | table fields =>
            have hblocked : f.blocked (k :: ks) = (fields.blocked ks).map (k :: ·) := by
              rw [blocked, hk]
            have hstep : f.ensure before (k :: ks) =
                f.replace k (.table (fields.ensure before ks)) := by rw [ensure, hk]
            rw [hstep, node_of_table (lookup_replace_self (by rw [hk]; rfl)), ih,
              node_of_table hk, hblocked]
            simp only [Option.map_eq_none_iff]
      · rw [if_neg fun h => cons_prefix_ne (Ne.symm hkj) js ks h.2]
        have hlookup : (f.ensure before (k :: ks)).lookup j = f.lookup j := by
          rw [ensure]
          split
          · exact lookup_insert_ne before hkj
          · rfl
          · exact lookup_replace_ne hkj
        exact node_congr hlookup js

theorem blocked_eq_some :
    f.blocked p = some q ↔ q <+: p ∧ ∃ a, f.node q = some (some a) := by
  induction p generalizing f q with
  | nil =>
    constructor
    · exact nofun
    · intro h
      obtain ⟨hq, a, hnode⟩ := h
      rw [prefix_nil.mp hq] at hnode
      nomatch hnode
  | cons k ks ih =>
    cases hk : f.lookup k with
    | none =>
      have hblocked : f.blocked (k :: ks) = none := by rw [blocked, hk]
      rw [hblocked]
      constructor
      · exact nofun
      · intro h
        obtain ⟨hq, a, hnode⟩ := h
        cases q with
        | nil => nomatch hnode
        | cons j js =>
          rw [(cons_prefix_cons.mp hq).1, node_of_none hk] at hnode
          nomatch hnode
    | some t₀ =>
      cases t₀ with
      | leaf b =>
        have hblocked : f.blocked (k :: ks) = some [k] := by rw [blocked, hk]
        rw [hblocked]
        constructor
        · intro h
          rw [← Option.some.inj h]
          refine ⟨cons_prefix_cons.mpr ⟨rfl, nil_prefix⟩, b, ?_⟩
          rw [node_of_leaf hk]
          rfl
        · intro h
          obtain ⟨hq, a, hnode⟩ := h
          cases q with
          | nil => nomatch hnode
          | cons j js =>
            obtain ⟨hjk, -⟩ := cons_prefix_cons.mp hq
            rw [hjk, node_of_leaf hk] at hnode
            cases js with
            | nil => rw [hjk]
            | cons j' js => nomatch hnode
      | table fields =>
        have hblocked : f.blocked (k :: ks) = (fields.blocked ks).map (k :: ·) := by
          rw [blocked, hk]
        rw [hblocked, Option.map_eq_some_iff]
        constructor
        · intro h
          obtain ⟨q', hq', rfl⟩ := h
          obtain ⟨hleads, a, hnode⟩ := ih.mp hq'
          exact ⟨cons_prefix_cons.mpr ⟨rfl, hleads⟩, a, by rw [node_of_table hk, hnode]⟩
        · intro h
          obtain ⟨hq, a, hnode⟩ := h
          cases q with
          | nil => nomatch hnode
          | cons j js =>
            obtain ⟨hjk, hleads⟩ := cons_prefix_cons.mp hq
            rw [hjk, node_of_table hk] at hnode
            exact ⟨js, ih.mpr ⟨hleads, a, hnode⟩, by rw [hjk]⟩

/-! ## Leaves -/

omit [DecidableEq κ] in
theorem mem_below {path : List κ} {leaves : List (List κ × α)} {x : List κ × α} :
    x ∈ below path leaves ↔ ∃ p, x.1 = path ++ p ∧ (p, x.2) ∈ leaves := by
  constructor
  · intro h
    obtain ⟨y, hy, rfl⟩ := mem_map.mp h
    exact ⟨y.1, rfl, hy⟩
  · intro h
    obtain ⟨p, hp, hmem⟩ := h
    exact mem_map.mpr ⟨(p, x.2), hmem, by rw [← hp]⟩

omit [DecidableEq κ] in
theorem root_notMem_leaves : ([], a) ∉ f.leaves := by
  induction f with
  | nil => exact not_mem_nil
  | cons k' t' rest ih =>
    intro h
    rcases mem_append.mp h with hmem | hmem
    · obtain ⟨p, hp, -⟩ := mem_below.mp hmem
      nomatch hp
    · exact ih hmem

theorem mem_leaves_cons (h : f.Distinct) :
    (k :: ks, a) ∈ f.leaves ↔ ∃ t, f.lookup k = some t ∧ (ks, a) ∈ t.leaves := by
  induction f with
  | nil => exact ⟨fun h => absurd h not_mem_nil, nofun⟩
  | cons k' t' rest ih =>
    obtain ⟨hnew, -, hrest⟩ := h
    have hsplit : (k :: ks, a) ∈ (cons k' t' rest).leaves ↔
        (k = k' ∧ (ks, a) ∈ t'.leaves) ∨ (k :: ks, a) ∈ rest.leaves := by
      show (k :: ks, a) ∈ below [k'] t'.leaves ++ rest.leaves ↔ _
      rw [mem_append, mem_below]
      constructor
      · intro h
        rcases h with ⟨p, hp, hmem⟩ | hmem
        · obtain ⟨hk, hks⟩ := List.cons.inj hp
          exact .inl ⟨hk, by rw [hks]; exact hmem⟩
        · exact .inr hmem
      · intro h
        rcases h with ⟨hk, hmem⟩ | hmem
        · exact .inl ⟨ks, by rw [hk]; rfl, hmem⟩
        · exact .inr hmem
    rw [hsplit, ih hrest]
    by_cases hk : k' = k
    · subst hk
      rw [lookup_cons_self, hnew]
      constructor
      · intro h
        rcases h with ⟨-, hmem⟩ | ⟨t, ht, -⟩
        · exact ⟨t', rfl, hmem⟩
        · nomatch ht
      · intro h
        obtain ⟨t, ht, hmem⟩ := h
        exact .inl ⟨rfl, Option.some.inj ht ▸ hmem⟩
    · rw [lookup_cons_ne hk]
      constructor
      · intro h
        exact h.resolve_left fun heq => hk heq.1.symm
      · exact .inr

theorem Distinct.of_lookup (h : f.Distinct) (hk : f.lookup k = some t) : t.Distinct := by
  induction f with
  | nil => nomatch hk
  | cons k' t' rest ih =>
    by_cases heq : k' = k
    · rw [heq, lookup_cons_self] at hk
      exact Option.some.inj hk ▸ h.2.1
    · rw [lookup_cons_ne heq] at hk
      exact ih h.2.2 hk

theorem mem_leaves (h : f.Distinct) : (p, a) ∈ f.leaves ↔ f.node p = some (some a) := by
  induction p generalizing f with
  | nil => exact ⟨fun hmem => absurd hmem root_notMem_leaves, nofun⟩
  | cons k ks ih =>
    rw [mem_leaves_cons h]
    cases hk : f.lookup k with
    | none =>
      rw [node_of_none hk]
      exact ⟨nofun, nofun⟩
    | some t =>
      cases t with
      | leaf b =>
        rw [node_of_leaf hk]
        constructor
        · intro hmem
          obtain ⟨t', ht', hmem⟩ := hmem
          rw [← Option.some.inj ht'] at hmem
          obtain ⟨hks, hab⟩ := Prod.mk.inj (mem_singleton.mp hmem)
          rw [hks, hab]
          rfl
        · intro hnode
          cases ks with
          | nil =>
            rw [← Option.some.inj (Option.some.inj hnode)]
            exact ⟨_, rfl, mem_singleton.mpr rfl⟩
          | cons k' ks => nomatch hnode
      | table fields =>
        rw [node_of_table hk, ← ih (h.of_lookup hk)]
        constructor
        · intro hmem
          obtain ⟨t', ht', hmem⟩ := hmem
          rw [← Option.some.inj ht'] at hmem
          exact hmem
        · exact fun hmem => ⟨_, rfl, hmem⟩

namespace Distinct

theorem replace (h : f.Distinct) (ht : t.Distinct) : (f.replace k t).Distinct := by
  induction f with
  | nil => trivial
  | cons k' t' rest ih =>
    obtain ⟨hnew, ht', hrest⟩ := h
    show (if k' = k then cons k t rest else cons k' t' (rest.replace k t)).Distinct
    by_cases hk : k' = k
    · rw [if_pos hk]
      exact ⟨hk ▸ hnew, ht, hrest⟩
    · rw [if_neg hk]
      exact ⟨by rw [lookup_replace_ne (Ne.symm hk), hnew], ht', ih hrest⟩

theorem place (before : κ → κ → Bool) (h : f.Distinct) (ht : t.Distinct)
    (hk : f.lookup k = none) : (f.place before k t).Distinct := by
  induction f with
  | nil => exact ⟨rfl, ht, trivial⟩
  | cons k' t' rest ih =>
    obtain ⟨hnew, ht', hrest⟩ := h
    have hne : k' ≠ k := by
      intro heq
      rw [heq, lookup_cons_self] at hk
      nomatch hk
    rw [lookup_cons_ne hne] at hk
    show (if before k k' then cons k t (cons k' t' rest)
      else cons k' t' (rest.place before k t)).Distinct
    split
    · exact ⟨by rw [lookup_cons_ne hne, hk], ht, hnew, ht', hrest⟩
    · exact ⟨by rw [lookup_place_ne before (Ne.symm hne), hnew], ht', ih hrest hk⟩

theorem insert (before : κ → κ → Bool) (h : f.Distinct) (ht : t.Distinct) :
    (f.insert before k t).Distinct := by
  rw [LuaFields.insert]
  split
  · exact h.replace ht
  · next hk => exact h.place before ht (by simpa using hk)

theorem erase (h : f.Distinct) : (f.erase k).Distinct := by
  induction f with
  | nil => trivial
  | cons k' t' rest ih =>
    obtain ⟨hnew, ht', hrest⟩ := h
    show (if k' = k then rest.erase k else cons k' t' (rest.erase k)).Distinct
    by_cases hk : k' = k
    · rw [if_pos hk]
      exact ih hrest
    · rw [if_neg hk]
      exact ⟨by rw [lookup_erase_ne (Ne.symm hk), hnew], ht', ih hrest⟩

theorem sub (h : f.Distinct) : (f.sub k).Distinct := by
  rw [LuaFields.sub]
  split
  · next hk => exact h.of_lookup hk
  · trivial

theorem set (before : κ → κ → Bool) (h : f.Distinct) : (f.set before p (.leaf a)).Distinct := by
  induction p generalizing f with
  | nil => exact h
  | cons k ks ih =>
    cases ks with
    | nil => exact h.insert before trivial
    | cons k' ks => exact h.insert before (t := .table _) (ih h.sub)

theorem clear (h : f.Distinct) : (f.clear p).Distinct := by
  induction p generalizing f with
  | nil => exact h
  | cons k ks ih =>
    cases ks with
    | nil => exact h.erase
    | cons k' ks =>
      rw [LuaFields.clear]
      split
      · next hk => exact h.replace (t := .table _) (ih (h.of_lookup hk))
      · exact h

theorem ensure (before : κ → κ → Bool) (h : f.Distinct) : (f.ensure before p).Distinct := by
  induction p generalizing f with
  | nil => exact h
  | cons k ks ih =>
    rw [LuaFields.ensure]
    split
    · exact h.insert before (t := .table _) (ih (f := .nil) trivial)
    · exact h
    · next hk => exact h.replace (t := .table _) (ih (h.of_lookup hk))

end Distinct

end LuaFields

end

end Mihini.Lib
