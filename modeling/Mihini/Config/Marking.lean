import Mihini.Config.Store
import Mihini.Lib.LuaLeaves

/-!
# What a call writes

The first loop of `internalset`: what it puts into `towrite` is what changes.
-/

namespace Mihini.Config

open Mihini.Lib Mihini.Path AList Option

/-! ## Tables -/

section

variable {β : Type}

variable {t : LuaTable Str β}

theorem lookup_assign {l : List (Str × β)} {k : Str} {b : β}
    (hmem : (k, b) ∈ l) (hsame : ∀ b', (k, b') ∈ l → b' = b) : (t.assign l).lookup k = some b := by
  induction l generalizing t with
  | nil => exact absurd hmem List.not_mem_nil
  | cons x l ih =>
    show (LuaTable.assign (t.insert x.1 x.2) l).lookup k = some b
    by_cases hrest : ∃ b', (k, b') ∈ l
    · obtain ⟨b', hb'⟩ := hrest
      have heq := hsame b' (List.mem_cons_of_mem x hb')
      rw [heq] at hb'
      exact ih hb' fun b'' hb'' => hsame b'' (List.mem_cons_of_mem x hb'')
    · have hx : (k, b) = x := by
        rcases List.mem_cons.mp hmem with heq | hl
        · exact heq
        · exact absurd ⟨b, hl⟩ hrest
      have hnew : ∀ t : LuaTable Str β, (t.assign l).lookup k = t.lookup k := by
        clear ih hmem hsame hx
        induction l with
        | nil => exact fun t => rfl
        | cons y l ih =>
          intro t
          have hy : k ≠ y.1 := fun heq => hrest ⟨y.2, by rw [heq]; exact List.mem_cons_self⟩
          show (LuaTable.assign (t.insert y.1 y.2) l).lookup k = _
          rw [ih (fun h => hrest (h.imp fun b' hb' => List.mem_cons_of_mem y hb')),
            lookup_insert_ne hy]
      rw [hnew, ← hx, lookup_insert]

theorem lookup_assign_of_notMem {l : List (Str × β)} {k : Str}
    (h : k ∉ l.map Prod.fst) : (t.assign l).lookup k = t.lookup k := by
  induction l generalizing t with
  | nil => rfl
  | cons x l ih =>
    rw [List.map_cons, List.mem_cons, not_or] at h
    show (LuaTable.assign (t.insert x.1 x.2) l).lookup k = _
    rw [ih h.2, lookup_insert_ne h.1]

theorem mem_sortedPairs {k : Str} {b : β} :
    (k, b) ∈ sortedPairs t ↔ t.lookup k = some b := by
  rw [sortedPairs, List.mem_filterMap]
  constructor
  · intro h
    obtain ⟨k', -, hk'⟩ := h
    obtain ⟨b', hb', heq⟩ := map_eq_some_iff.mp hk'
    rw [← (Prod.mk.inj heq).1, ← (Prod.mk.inj heq).2]
    exact hb'
  · intro h
    refine ⟨k, ?_, by rw [h]; rfl⟩
    rw [List.mem_insertionSort]
    exact mem_keys.mp (lookup_isSome.mp (by rw [h]; rfl))

theorem pairwise_sortedPairs (t : LuaTable Str β) :
    (sortedPairs t).Pairwise fun x y => x.1 ≤ y.1 ∧ x.1 ≠ y.1 := by
  have hsorted : (t.keys.insertionSort fun a b => a ≤ b).Pairwise fun a b => a ≤ b :=
    List.pairwise_insertionSort _ _
  have hnodup : (t.keys.insertionSort fun a b => a ≤ b).Nodup :=
    (List.perm_insertionSort _ _).nodup_iff.mpr (keys_nodup t)
  rw [sortedPairs]
  refine List.Pairwise.filterMap _ ?_ (hsorted.and hnodup)
  intro a b hab x hx y hy
  obtain ⟨v, -, hx⟩ := map_eq_some_iff.mp hx
  obtain ⟨w, -, hy⟩ := map_eq_some_iff.mp hy
  rw [← hx, ← hy]
  exact hab

end

/-! ## Names -/

variable {ν : Type} {canon : Str → Str}

def Names (canon : Str → Str) (p : List Str) : Prop := ∀ s ∈ p, Segment canon s

instance (canon : Str → Str) (s : Str) : Decidable (Segment canon s) :=
  decidable_of_iff (s ≠ [] ∧ '.' ∉ s ∧ canon s = s)
    ⟨fun h => ⟨h.1, h.2.1, h.2.2⟩, fun h => ⟨h.nonempty, h.dotless, h.canonical⟩⟩

instance (canon : Str → Str) (p : List Str) : Decidable (Names canon p) :=
  inferInstanceAs (Decidable (∀ s ∈ p, Segment canon s))

theorem Names.of_prefix {p q : List Str} (h : Names canon q) (hpq : p <+: q) : Names canon p :=
  fun s hs => h s (hpq.subset hs)

def flat {β : Type} (canon : Str → Str) (t : LuaTable Str β) (p : List Str) : Option β :=
  if Names canon p then t.lookup (concat p) else none

variable {p : List Str} {β : Type}

theorem flat_of_names {t : LuaTable Str β} (h : Names canon p) :
    flat canon t p = t.lookup (concat p) :=
  if_pos h

theorem Names.of_flat {t : LuaTable Str β} (h : flat canon t p ≠ none) :
    Names canon p := by
  by_contra hp
  exact h (if_neg hp)

theorem concat_ne_nil (h : Names canon p) (hne : p ≠ []) : concat p ≠ [] := by
  intro heq
  cases p with
  | nil => exact hne rfl
  | cons s p => exact (h s List.mem_cons_self).nonempty (concat_eq_nil.mp heq s List.mem_cons_self)

theorem join_concat {k : Str} (hp : Names canon p) (hk : k ≠ []) :
    join (concat p) k = concat (p ++ [k]) := by
  unfold join
  by_cases hnil : p = []
  · rw [hnil, if_pos concat_nil, List.nil_append, concat_singleton]
  · rw [if_neg (concat_ne_nil hp hnil), concat_append, concat_singleton,
      concat_pair (concat_ne_nil hp hnil) hk]

theorem foldl_join {p q : List Str} (hp : Names canon p) (hq : Names canon q) :
    q.foldl join (concat p) = concat (p ++ q) := by
  induction q generalizing p with
  | nil => rw [List.append_nil, List.foldl_nil]
  | cons k q ih =>
    have hk := hq k List.mem_cons_self
    have hpk : Names canon (p ++ [k]) := by
      intro s hs
      rcases List.mem_append.mp hs with hs | hs
      · exact hp s hs
      · rw [List.mem_singleton.mp hs]
        exact hk
    rw [List.foldl_cons, join_concat hp hk.nonempty,
      ih hpk fun s hs => hq s (List.mem_cons_of_mem k hs), List.append_assoc]
    rfl

theorem recursivePairs_eq (path : Str) (f : LuaFields Str β) :
    recursivePairs path f = f.leaves.map fun x => (x.1.foldl join path, x.2) := by
  induction path, f using recursivePairs.induct with
  | case1 path => rfl
  | case2 path k v rest ih =>
    show (join path k, v) :: recursivePairs path rest = _
    rw [ih]
    rfl
  | case3 path k fields rest ih ihrest =>
    show recursivePairs (join path k) fields ++ recursivePairs path rest = _
    rw [ih, ihrest]
    show _ = (below [k] fields.leaves ++ rest.leaves).map _
    rw [List.map_append, below, List.map_map]
    rfl

theorem mem_recursivePairs {path : List Str} {f : LuaFields Str β} {k : Str} {v : β} :
    (k, v) ∈ recursivePairs (concat path) f ↔
      ∃ p, (p, v) ∈ f.leaves ∧ k = p.foldl join (concat path) := by
  rw [recursivePairs_eq, List.mem_map]
  constructor
  · intro h
    obtain ⟨x, hx, heq⟩ := h
    obtain ⟨hk, hv⟩ := Prod.mk.inj heq
    exact ⟨x.1, hv ▸ hx, hk.symm⟩
  · intro h
    obtain ⟨p, hp, hk⟩ := h
    exact ⟨(p, v), hp, by rw [hk]⟩

theorem node_append {f fields : LuaFields Str ν} (h : f.get p = some (.table fields))
    (q : List Str) : f.node (p ++ q) = fields.node q := by
  induction p generalizing f with
  | nil =>
    rw [LuaFields.get] at h
    rw [LuaTree.table.inj (Option.some.inj h)]
    rfl
  | cons k ks ih =>
    rw [LuaFields.get] at h
    cases hk : f.lookup k with
    | none =>
      rw [hk] at h
      nomatch h
    | some t =>
      rw [hk] at h
      cases t with
      | leaf a =>
        have hleaf : (if ks.isEmpty then some (LuaTree.leaf a) else none) =
            some (LuaTree.table fields) := h
        split at hleaf <;> nomatch hleaf
      | table sub =>
        rw [List.cons_append, LuaFields.node_of_table hk]
        exact ih h

theorem distinct_of_get {f fields : LuaFields Str ν} (hf : f.Distinct)
    (h : f.get p = some (.table fields)) : fields.Distinct := by
  induction p generalizing f with
  | nil =>
    rw [LuaFields.get] at h
    rw [← LuaTree.table.inj (Option.some.inj h)]
    exact hf
  | cons k ks ih =>
    rw [LuaFields.get] at h
    cases hk : f.lookup k with
    | none =>
      rw [hk] at h
      nomatch h
    | some t =>
      rw [hk] at h
      cases t with
      | leaf a =>
        have hleaf : (if ks.isEmpty then some (LuaTree.leaf a) else none) =
            some (LuaTree.table fields) := h
        split at hleaf <;> nomatch hleaf
      | table sub => exact ih (hf.of_lookup hk) h

/-! ## The values to write -/

variable [DecidableEq ν]

def pathsOf (L : List (List Str × Option ν)) : List (Str × Option ν) :=
  L.map fun x => (concat x.1, x.2)

structure Grown (F : List Str → Option ν) (L : List (List Str × Option ν)) (f : LuaFields Str ν) :
    Prop where
  value : ∀ p v, f.node p = some (some v) ↔ F p = some v
  table : ∀ p, f.node p = some none →
    p = [] ∨ (∃ q, p <+: q ∧ F q ≠ none) ∨ ∃ q v, (q, some v) ∈ L ∧ F q ≠ some v ∧ p <+: q

structure Marked (canon : Str → Str) (F : List Str → Option ν) (L : List (List Str × Option ν))
    (s : LuaFields Str ν × Values ν) : Prop extends Grown F L s.1 where
  distinct : s.1.Distinct
  keys : ∀ k x, s.2.lookup k = some x → ∃ p, Names canon p ∧ k = concat p
  towrite : ∀ p, Names canon p →
    s.2.lookup (concat p) = if overlay L F p = F p then none else some (overlay L F p)

theorem same_iff {f : LuaFields Str ν} {v : Option ν} :
    same (f.get p) v = true ↔
      (f.node p = none ∧ v = none) ∨ ∃ a, f.node p = some (some a) ∧ v = some a := by
  rw [LuaFields.node]
  cases f.get p with
  | none => cases v <;> simp [same]
  | some t =>
    cases t with
    | table fields => cases v <;> simp [same, LuaTree.kind]
    | leaf a =>
      cases v with
      | none => simp [same, LuaTree.kind]
      | some b =>
        simp only [same, LuaTree.kind, map_some, decide_eq_true_eq]
        constructor
        · exact fun h => .inr ⟨a, rfl, by rw [h]⟩
        · intro h
          rcases h with ⟨h, -⟩ | ⟨c, hc, hb⟩
          · nomatch h
          · rw [Option.some.inj (Option.some.inj hc), Option.some.inj hb]

section

variable {F : List Str → Option ν} {cache : LuaFields Str ν} {W : Values ν} {k p : List Str}

omit [DecidableEq ν] in
theorem lookup_below (hF : ∀ p, F p ≠ none → Names canon p) (hdistinct : cache.Distinct)
    (hvalue : ∀ p v, cache.node p = some (some v) ↔ F p = some v) (hk : Names canon k)
    (hp : Names canon p) :
    (eraseBelow canon W (concat k) (cache.get k)).lookup (concat p) =
      if F p ≠ none ∧ k <+: p ∧ p ≠ k then some none else W.lookup (concat p) := by
  have hother : (∀ fields, cache.get k ≠ some (.table fields)) →
      ¬ (F p ≠ none ∧ k <+: p ∧ p ≠ k) := by
    intro hget h
    obtain ⟨v, hv⟩ := ne_none_iff_exists'.mp h.1
    have hnode : cache.node p ≠ none := by
      rw [(hvalue p v).mpr hv]
      exact nofun
    have htable := LuaFields.node_of_leads hnode h.2.1 (Ne.symm h.2.2)
    obtain ⟨t, ht, hkind⟩ := map_eq_some_iff.mp htable
    cases t with
    | leaf a => nomatch hkind
    | table fields => exact hget fields ht
  unfold eraseBelow
  rw [clean_concat hk]
  split
  · next fields hget =>
    have hfields : ∀ q a, (q, a) ∈ fields.leaves ↔ F (k ++ q) = some a := by
      intro q a
      rw [LuaFields.mem_leaves (distinct_of_get hdistinct hget), ← node_append hget, hvalue]
    have hmem : ∀ b, (concat p, b) ∈
        ((recursivePairs (concat k) fields).map fun x => (x.1, (none : Option ν))) ↔
          b = none ∧ F p ≠ none ∧ k <+: p ∧ p ≠ k := by
      intro b
      rw [List.mem_map]
      constructor
      · intro h
        obtain ⟨x, hx, heq⟩ := h
        obtain ⟨hkey, hb⟩ := Prod.mk.inj heq
        obtain ⟨q, hq, hqkey⟩ := mem_recursivePairs.mp hx
        have hFq := (hfields q x.2).mp hq
        have hnames : Names canon (k ++ q) := hF _ (by rw [hFq]; exact nofun)
        rw [hkey, foldl_join hk fun s hs => hnames s (List.mem_append_right k hs)] at hqkey
        have hpq : p = k ++ q := concat_inj hp hnames hqkey
        refine ⟨hb.symm, by rw [hpq, hFq]; exact nofun, ⟨q, hpq.symm⟩, ?_⟩
        intro heq
        have hq : q = [] := List.append_right_eq_self.mp (hpq.symm.trans heq)
        have hroot := (LuaFields.mem_leaves (distinct_of_get hdistinct hget)).mp (hq ▸ ‹(q, x.2) ∈ _›)
        nomatch hroot
      · intro h
        obtain ⟨hb, hFp, ⟨q, hq⟩, -⟩ := h
        obtain ⟨a, ha⟩ := ne_none_iff_exists'.mp hFp
        refine ⟨(concat p, a), mem_recursivePairs.mpr ⟨q, ?_, ?_⟩, by rw [hb]⟩
        · exact (hfields q a).mpr (by rw [hq, ha])
        · rw [foldl_join hk fun s hs => hp s (hq ▸ List.mem_append_right k hs), hq]
    by_cases hcond : F p ≠ none ∧ k <+: p ∧ p ≠ k
    · rw [if_pos hcond]
      exact lookup_assign ((hmem none).mpr ⟨rfl, hcond⟩) fun b hb => ((hmem b).mp hb).1
    rw [if_neg hcond]
    apply lookup_assign_of_notMem
    intro h
    obtain ⟨x, hx, hkey⟩ := List.mem_map.mp h
    exact hcond ((hmem x.2).mp (hkey ▸ hx)).2
  · next hget => rw [if_neg (hother fun fields h => hget fields h)]

omit [DecidableEq ν] in
theorem lookup_blocked (hF : ∀ p, F p ≠ none → Names canon p)
    (hvalue : ∀ p v, cache.node p = some (some v) ↔ F p = some v) (hk : Names canon k)
    (hp : Names canon p) :
    (overwrite W (concat k) (cache.blocked k)).lookup (concat p) =
      if F p ≠ none ∧ p <+: k ∧ p ≠ k then some none else W.lookup (concat p) := by
  have hblocked : ∀ q, cache.blocked k = some q ↔ q <+: k ∧ F q ≠ none := by
    intro q
    rw [LuaFields.blocked_eq_some]
    simp only [hvalue, ne_none_iff_exists']
  unfold overwrite
  split
  · next q hq =>
    obtain ⟨hqk, hFq⟩ := (hblocked q).mp hq
    by_cases hpq : p = q
    · subst hpq
      by_cases hpk : p = k
      · rw [if_neg fun hcond : F p ≠ none ∧ _ => hcond.2.2 hpk, if_neg fun hne : concat p ≠ concat k => hne (by rw [hpk])]
      · have hne : concat p ≠ concat k := fun heq => hpk (concat_inj hp hk heq)
        rw [if_pos hne, if_pos ⟨hFq, hqk, hpk⟩, lookup_insert]
    · have hcond : ¬ (F p ≠ none ∧ p <+: k ∧ p ≠ k) := by
        intro h
        have := (hblocked p).mpr ⟨h.2.1, h.1⟩
        rw [hq] at this
        exact hpq (Option.some.inj this).symm
      rw [if_neg hcond]
      split
      · exact lookup_insert_ne fun h => hpq (concat_inj hp (hF q hFq) h)
      · rfl
  · next hnone =>
    rw [if_neg]
    intro h
    rw [(hblocked p).mpr ⟨h.2.1, h.1⟩] at hnone
    cases hnone

theorem lookup_mark (hF : ∀ p, F p ≠ none → Names canon p)
    (hdistinct : cache.Distinct) (hvalue : ∀ p v, cache.node p = some (some v) ↔ F p = some v)
    (hk : Names canon k) {v : Option ν} (hne : same (cache.get k) v = false)
    (hp : Names canon p) :
    (mark canon (cache, W) (concat k, v)).2.lookup (concat p) =
      if p = k then
        if cache.node k = some none ∧ v = none then W.lookup (concat k) else some v
      else if F p ≠ none ∧ (p <+: k ∨ k <+: p) then some none
      else W.lookup (concat p) := by
  have hbelow := lookup_below (W := W) hF hdistinct hvalue hk hp
  have hblocked := lookup_blocked (W := eraseBelow canon W (concat k) (cache.get k)) hF hvalue hk hp
  rw [hbelow] at hblocked
  simp only [mark, segments_concat hk, hne, Bool.false_eq_true, if_false]
  by_cases hpk : p = k
  · subst hpk
    rw [if_pos rfl]
    rw [if_neg fun h => h.2.2 rfl, if_neg fun h => h.2.2 rfl] at hblocked
    cases hget : cache.get p with
    | none =>
      have hnode : cache.node p = none := by rw [LuaFields.node, hget]; rfl
      rw [hnode, if_neg fun h => by cases h.1]
      cases v <;> exact lookup_insert _
    | some t =>
      cases t with
      | leaf a =>
        have hnode : cache.node p = some (some a) := by rw [LuaFields.node, hget]; rfl
        rw [hnode, if_neg fun h => by cases h.1]
        cases v <;> exact lookup_insert _
      | table fields =>
        have hnode : cache.node p = some none := by rw [LuaFields.node, hget]; rfl
        rw [hnode]
        rw [hget] at hblocked
        cases v with
        | none =>
          rw [if_pos ⟨rfl, rfl⟩]
          exact hblocked
        | some a =>
          rw [if_neg fun h => by cases h.2]
          exact lookup_insert _
  · rw [if_neg hpk]
    have hconcat : concat p ≠ concat k := fun h => hpk (concat_inj hp hk h)
    have hwhole : (if F p ≠ none ∧ p <+: k ∧ p ≠ k then some none
        else if F p ≠ none ∧ k <+: p ∧ p ≠ k then some none else W.lookup (concat p)) =
        if F p ≠ none ∧ (p <+: k ∨ k <+: p) then some none else W.lookup (concat p) := by
      by_cases h1 : F p ≠ none <;> by_cases h2 : p <+: k <;> by_cases h3 : k <+: p <;>
        simp [h1, h2, h3, hpk]
    rw [← hwhole, ← hblocked]
    split
    · rfl
    · exact lookup_insert_ne hconcat

theorem keys_mark (hF : ∀ p, F p ≠ none → Names canon p)
    (hdistinct : cache.Distinct) (hvalue : ∀ p v, cache.node p = some (some v) ↔ F p = some v)
    (hk : Names canon k) (hW : ∀ j x, W.lookup j = some x → ∃ p, Names canon p ∧ j = concat p)
    (v : Option ν) {j : Str} {x : Option ν}
    (hx : (mark canon (cache, W) (concat k, v)).2.lookup j = some x) :
    ∃ p, Names canon p ∧ j = concat p := by
  by_cases hj : j = concat k
  · exact ⟨k, hk, hj⟩
  have hbelow : ∀ x, (eraseBelow canon W (concat k) (cache.get k)).lookup j = some x →
      ∃ p, Names canon p ∧ j = concat p := by
    intro x hx
    unfold eraseBelow at hx
    rw [clean_concat hk] at hx
    split at hx
    · next fields hget =>
      rcases LuaTable.mem_of_lookup_assign hx with hmem | hlookup
      · obtain ⟨y, hy, heq⟩ := List.mem_map.mp hmem
        obtain ⟨q, hq, hkey⟩ := mem_recursivePairs.mp hy
        have hnames : Names canon (k ++ q) := by
          apply hF
          rw [(hvalue (k ++ q) y.2).mp]
          · exact nofun
          · rw [node_append hget]
            exact (LuaFields.mem_leaves (distinct_of_get hdistinct hget)).mp hq
        refine ⟨k ++ q, hnames, ?_⟩
        rw [← (Prod.mk.inj heq).1, hkey,
          foldl_join hk fun s hs => hnames s (List.mem_append_right k hs)]
      · exact hW j x hlookup
    · exact hW j x hx
  have hblocked : ∀ x,
      (overwrite (eraseBelow canon W (concat k) (cache.get k)) (concat k)
        (cache.blocked k)).lookup j = some x → ∃ p, Names canon p ∧ j = concat p := by
    intro x hx
    unfold overwrite at hx
    split at hx
    · next q hq =>
      split at hx
      · by_cases hjq : j = concat q
        · obtain ⟨-, a, hnode⟩ := LuaFields.blocked_eq_some.mp hq
          refine ⟨q, hF q ?_, hjq⟩
          rw [(hvalue q a).mp hnode]
          exact nofun
        · rw [lookup_insert_ne hjq] at hx
          exact hbelow x hx
      · exact hbelow x hx
    · exact hbelow x hx
  simp only [mark, segments_concat hk] at hx
  split at hx
  · rw [lookup_erase_ne hj] at hx
    exact hW j x hx
  dsimp only at hx
  split at hx
  · exact hblocked x hx
  · rw [lookup_insert_ne hj] at hx
    exact hblocked x hx

end

section

variable {F : List Str → Option ν} {L : List (List Str × Option ν)} {k p : List Str}
  {v : Option ν}

omit [DecidableEq ν] in
theorem overlay_snoc (hbefore : ∀ x ∈ L, ¬ k <+: x.1) (hL : Coherent (L ++ [(k, v)])) :
    overlay (L ++ [(k, v)]) F p =
      if p = k then v
      else if k <+: p ∨ v ≠ none ∧ p <+: k then none
      else overlay L F p := by
  have hlast : (k, v) ∈ L ++ [(k, v)] := List.mem_append_right L (List.mem_singleton.mpr rfl)
  by_cases hpk : p = k
  · subst hpk
    rw [if_pos rfl]
    cases v with
    | some a => exact overlay_written hL hlast
    | none =>
      refine overlay_dropped hlast (.inl (List.prefix_refl p)) fun a ha => ?_
      nomatch hL.single _ ha _ hlast rfl
  · rw [if_neg hpk]
    by_cases hcond : k <+: p ∨ v ≠ none ∧ p <+: k
    · rw [if_pos hcond]
      refine overlay_dropped hlast hcond fun a ha => ?_
      rcases hcond with hkp | ⟨hv, hpk'⟩
      · rcases List.mem_append.mp ha with ha | ha
        · exact hbefore _ ha hkp
        · exact hpk (Prod.mk.inj (List.mem_singleton.mp ha)).1
      · exact hpk (hL.apart _ ha _ hlast nofun hv hpk')
    · rw [if_neg hcond]
      rw [not_or, not_and] at hcond
      have hother : ∀ x, x ∈ L ++ [(k, v)] → x ∈ L ∨ x = (k, v) := fun x hx =>
        (List.mem_append.mp hx).imp_right List.mem_singleton.mp
      rcases overlay_cases L F p with ⟨w, hw, hover⟩ | ⟨hnew, ⟨⟨x, hx, hxp⟩, hover⟩ | ⟨hap, hover⟩⟩
      · rw [hover]
        exact overlay_written hL (List.mem_append_left _ hw)
      · rw [hover]
        refine overlay_dropped (List.mem_append_left _ hx) hxp fun a ha => ?_
        rcases hother _ ha with ha | ha
        · exact hnew a ha
        · exact hpk (Prod.mk.inj ha).1
      · rw [hover]
        refine overlay_kept fun x hx => ?_
        rcases hother x hx with hx | rfl
        · exact hap x hx
        · exact hcond

theorem Marked.step (hF : ∀ p, F p ≠ none → Names canon p) {s : LuaFields Str ν × Values ν}
    (h : Marked canon F L s) (hk : Names canon k) (hbefore : ∀ x ∈ L, ¬ k <+: x.1)
    (hL : Coherent (L ++ [(k, v)])) :
    Marked canon F (L ++ [(k, v)]) (mark canon s (concat k, v)) := by
  obtain ⟨cache, W⟩ := s
  have hlast : (k, v) ∈ L ++ [(k, v)] := List.mem_append_right L (List.mem_singleton.mpr rfl)
  have hleaf : ∀ p, F p ≠ none → ∃ a, cache.node p = some (some a) ∧ F p = some a := by
    intro p hp
    obtain ⟨a, ha⟩ := ne_none_iff_exists'.mp hp
    exact ⟨a, (h.value p a).mpr ha, ha⟩
  have hnoleaf : ∀ p, (∀ a, cache.node p ≠ some (some a)) → F p = none := by
    intro p hp
    by_contra hne
    obtain ⟨a, ha, -⟩ := hleaf p hne
    exact hp a ha
  have hnew : ∀ p, p ≠ k → k <+: p ∨ v ≠ none ∧ p <+: k → F p = none → overlay L F p = none := by
    intro p hpk hcond hp
    rcases overlay_cases L F p with ⟨w, hw, -⟩ | ⟨-, ⟨-, hover⟩ | ⟨-, hover⟩⟩
    · rcases hcond with hkp | ⟨hv, hpk'⟩
      · exact absurd hkp (hbefore _ hw)
      · exact absurd (hL.apart _ (List.mem_append_left _ hw) _ hlast (by rintro ⟨⟩) hv hpk') hpk
    · exact hover
    · rw [hover, hp]
  have hfresh : overlay L F k = none ∨ overlay L F k = F k := by
    rcases overlay_cases L F k with ⟨w, hw, -⟩ | ⟨-, ⟨-, hover⟩ | ⟨-, hover⟩⟩
    · exact absurd (List.prefix_refl k) (hbefore _ hw)
    · exact .inl hover
    · exact .inr hover
  cases hsame : same (cache.get k) v with
  | true =>
    have hmark : mark canon (cache, W) (concat k, v) = (cache, W.erase (concat k)) := by
      simp only [mark, segments_concat hk, hsame, if_true]
    have hFk : v = F k := by
      rcases same_iff.mp hsame with ⟨hnode, hv⟩ | ⟨a, hnode, hv⟩
      · rw [hv, hnoleaf k fun a ha => by rw [hnode] at ha; cases ha]
      · rw [hv, (h.value k a).mp hnode]
    have hFp : ∀ p, p ≠ k → k <+: p ∨ v ≠ none ∧ p <+: k → F p = none := by
      intro p hpk hcond
      by_contra hp
      obtain ⟨a, hnode, -⟩ := hleaf p hp
      have hne : cache.node p ≠ none := by
        rw [hnode]
        rintro ⟨⟩
      rcases hcond with hkp | ⟨hv, hpk'⟩
      · have htable := LuaFields.node_of_leads hne hkp (Ne.symm hpk)
        rcases same_iff.mp hsame with ⟨hk', -⟩ | ⟨b, hk', -⟩ <;> rw [hk'] at htable <;> cases htable
      · have hbelow := LuaFields.node_below_leaf hnode hpk' hpk
        rw [hFk] at hv
        obtain ⟨b, hb, -⟩ := hleaf k hv
        rw [hbelow] at hb
        cases hb
    rw [hmark]
    refine ⟨⟨h.value, ?_⟩, h.distinct, ?_, ?_⟩
    · intro p hp
      rcases h.table p hp with hroot | htable | ⟨q, a, hq, hrest⟩
      · exact .inl hroot
      · exact .inr (.inl htable)
      · exact .inr (.inr ⟨q, a, List.mem_append_left _ hq, hrest⟩)
    · intro j x hx
      by_cases hj : j = concat k
      · exact ⟨k, hk, hj⟩
      · exact h.keys j x (by rwa [lookup_erase_ne hj] at hx)
    · intro p hp
      show (W.erase (concat k)).lookup (concat p) = _
      rw [overlay_snoc hbefore hL]
      by_cases hpk : p = k
      · rw [hpk, lookup_erase, if_pos rfl, if_pos hFk]
      rw [lookup_erase_ne fun heq => hpk (concat_inj hp hk heq), if_neg hpk]
      have htowrite : W.lookup (concat p) = _ := h.towrite p hp
      rw [htowrite]
      by_cases hcond : k <+: p ∨ v ≠ none ∧ p <+: k
      · rw [if_pos hcond, hFp p hpk hcond, hnew p hpk hcond (hFp p hpk hcond)]
      · rw [if_neg hcond]
  | false =>
    have hnot : ¬ same (cache.get k) v = true := by
      rw [hsame]
      rintro ⟨⟩
    have hcache : (mark canon (cache, W) (concat k, v)).1 = cache.ensure last k := by
      simp only [mark, segments_concat hk, hsame, Bool.false_eq_true, if_false]
    have hnode := fun p => LuaFields.node_ensure (f := cache) (p := k) last p
    have hblocked : ∀ p, F p ≠ none → p <+: k → cache.blocked k ≠ none := by
      intro p hp hpk hnone
      obtain ⟨a, ha, -⟩ := hleaf p hp
      rw [LuaFields.blocked_eq_some.mpr ⟨hpk, a, ha⟩] at hnone
      cases hnone
    have hchanges : ¬ (cache.node k = some none ∧ v = none) → v ≠ F k := by
      intro hcond heq
      apply hnot
      rw [same_iff]
      by_cases hFk : F k = none
      · rw [hFk] at heq
        refine .inl ⟨?_, heq⟩
        cases hkind : cache.node k with
        | none => rfl
        | some kind =>
          cases kind with
          | none => exact absurd ⟨hkind, heq⟩ hcond
          | some a =>
            rw [(h.value k a).mp hkind] at hFk
            cases hFk
      · obtain ⟨a, ha, hFa⟩ := hleaf k hFk
        exact .inr ⟨a, ha, heq.trans hFa⟩
    refine ⟨⟨?_, ?_⟩, ?_, ?_, ?_⟩
    · intro p a
      rw [hcache, hnode]
      split
      · next hcond =>
        constructor
        · rintro ⟨⟩
        · intro ha
          exact absurd hcond.1 (hblocked p (by rw [ha]; rintro ⟨⟩) hcond.2)
      · exact h.value p a
    · intro p hp
      rw [hcache, hnode] at hp
      have hold : cache.node p = some none → p = [] ∨ (∃ q, p <+: q ∧ F q ≠ none) ∨
          ∃ q w, (q, some w) ∈ L ++ [(k, v)] ∧ F q ≠ some w ∧ p <+: q := by
        intro hp
        rcases h.table p hp with hroot | htable | ⟨q, a, hq, hrest⟩
        · exact .inl hroot
        · exact .inr (.inl htable)
        · exact .inr (.inr ⟨q, a, List.mem_append_left _ hq, hrest⟩)
      split at hp
      · next hcond =>
        cases v with
        | some a =>
          refine .inr (.inr ⟨k, a, hlast, fun heq => ?_, hcond.2⟩)
          exact hchanges (fun h => by cases h.2) heq.symm
        | none =>
          -- the path of a value that is taken away, or of a table
          have hsome : cache.node k ≠ none := fun hnone => hnot (same_iff.mpr (.inl ⟨hnone, rfl⟩))
          by_cases hpk : p = k
          · subst hpk
            cases hkind : cache.node p with
            | none => exact absurd hkind hsome
            | some kind =>
              cases kind with
              | none => exact hold hkind
              | some a =>
                rw [LuaFields.blocked_eq_some.mpr ⟨List.prefix_refl p, a, hkind⟩] at hcond
                cases hcond.1
          · exact hold (LuaFields.node_of_leads hsome hcond.2 hpk)
      · exact hold hp
    · rw [hcache]
      exact h.distinct.ensure last
    · exact fun j x hx => keys_mark hF h.distinct h.value hk h.keys v hx
    · intro p hp
      rw [lookup_mark hF h.distinct h.value hk hsame hp, overlay_snoc hbefore hL]
      have htowrite : ∀ p, Names canon p → W.lookup (concat p) = _ := h.towrite
      by_cases hpk : p = k
      · subst hpk
        rw [if_pos rfl, if_pos rfl]
        by_cases hcond : cache.node p = some none ∧ v = none
        · have hFp : F p = none := hnoleaf p fun a ha => by
            rw [hcond.1] at ha
            cases ha
          have hover : overlay L F p = F p := by
            rcases hfresh with hnone | hkept
            · rw [hnone, hFp]
            · exact hkept
          rw [if_pos hcond, htowrite p hp, if_pos hover, hcond.2, hFp, if_pos rfl]
        · rw [if_neg hcond, if_neg (hchanges hcond)]
      · rw [if_neg hpk, if_neg hpk]
        by_cases hmark : F p ≠ none ∧ (p <+: k ∨ k <+: p)
        · have hcond : k <+: p ∨ v ≠ none ∧ p <+: k := by
            rcases hmark.2 with hpk' | hkp
            · refine .inr ⟨fun hv => hnot ?_, hpk'⟩
              obtain ⟨a, ha, -⟩ := hleaf p hmark.1
              exact same_iff.mpr (.inl ⟨LuaFields.node_below_leaf ha hpk' hpk, hv⟩)
            · exact .inl hkp
          rw [if_pos hmark, if_pos hcond, if_neg (Ne.symm hmark.1)]
        · rw [if_neg hmark, htowrite p hp]
          by_cases hcond : k <+: p ∨ v ≠ none ∧ p <+: k
          · have hFp : F p = none := by
              by_contra hne
              exact hmark ⟨hne, hcond.symm.imp_left And.right⟩
            rw [if_pos hcond, hnew p hpk hcond hFp, hFp]
          · rw [if_neg hcond]

end

end Mihini.Config
