import Mihini.Treemgr.Agreement
import Mihini.Treemgr.Hooks

/-!
# Mount points below a node

What the database `l2c` lists under a node: the steps from it towards the mount points below.
-/

namespace Mihini.Treemgr

open Mihini.Path

section

variable {canon : Str → Str} {db : List Mount}

def Node (canon : Str → Str) (n : List Str) : Prop := ∀ s ∈ n, Segment canon s

theorem Node.of_append {a b : List Str} (h : Node canon (a ++ b)) : Node canon a ∧ Node canon b :=
  ⟨fun s hs => h s (List.mem_append_left _ hs), fun s hs => h s (List.mem_append_right _ hs)⟩

theorem Node.append {a b : List Str} (ha : Node canon a) (hb : Node canon b) :
    Node canon (a ++ b) := by
  intro s hs
  rcases List.mem_append.mp hs with hs | hs
  · exact ha s hs
  · exact hb s hs

theorem Node.concat_ne_nil {n : List Str} (h : Node canon n) (hne : n ≠ []) : concat n ≠ [] := by
  obtain ⟨s, rest, rfl⟩ := List.exists_cons_of_ne_nil hne
  intro hnil
  exact (h s List.mem_cons_self).nonempty (concat_eq_nil.mp hnil s List.mem_cons_self)

variable {a : List Str} {c : Str}

theorem concat_snoc (h : Node canon (a ++ [c])) (hne : a ≠ []) :
    concat (a ++ [c]) = concat a ++ '.' :: c := by
  have hc : concat [c] ≠ [] := h.of_append.2.concat_ne_nil (List.cons_ne_nil c [])
  rw [concat_append, concat_pair (h.of_append.1.concat_ne_nil hne) hc, concat_singleton]

theorem splitLast_snoc (h : Node canon (a ++ [c])) :
    splitLast canon (concat (a ++ [c])) = (concat a, c) := by
  rw [splitLast, segments_concat h]
  have hlen : (a ++ [c]).length - 1 = a.length := by simp
  rw [if_neg (by simp), hlen, List.take_left, List.drop_left, concat_singleton]

/-! ## The cache -/

def IsLink (canon : Str → Str) (e : Str × Str) : Prop :=
  ∃ a c, Node canon (a ++ [c]) ∧ e = (concat a, concat (a ++ [c]))

/-- `key_l2c` -/
def keyOf (e : Str × Str) : Str := e.1 ++ '-' :: '>' :: e.2

theorem snoc_inj {x x' c c' : Str} (hc : '.' ∉ c) (hc' : '.' ∉ c')
    (h : x ++ '.' :: c = x' ++ '.' :: c') : x = x' ∧ c = c' := by
  rcases List.append_eq_append_iff.mp h with ⟨as, rfl, hrest⟩ | ⟨as, rfl, hrest⟩
  · cases as with
    | nil =>
      rw [List.append_nil]
      exact ⟨rfl, (List.cons.inj hrest).2⟩
    | cons b as =>
      exfalso
      apply hc
      rw [(List.cons.inj hrest).2]
      simp
  · cases as with
    | nil =>
      rw [List.append_nil]
      exact ⟨rfl, (List.cons.inj hrest).2.symm⟩
    | cons b as =>
      exfalso
      apply hc'
      rw [(List.cons.inj hrest).2]
      simp

theorem keyOf_root (h : Node canon ([] ++ [c])) :
    '.' ∉ keyOf (concat [], concat ([] ++ [c])) := by
  have hc := (h c List.mem_cons_self).dotless
  rw [List.nil_append, concat_singleton, concat_nil, keyOf]
  simpa using hc

theorem keyOf_snoc (h : Node canon (a ++ [c])) (hne : a ≠ []) :
    keyOf (concat a, concat (a ++ [c])) = (concat a ++ '-' :: '>' :: concat a) ++ '.' :: c := by
  rw [keyOf, concat_snoc h hne]
  simp

/-- No two links have the same key. -/
theorem keyOf_inj {e e' : Str × Str} (he : IsLink canon e) (he' : IsLink canon e')
    (h : keyOf e = keyOf e') : e = e' := by
  obtain ⟨a, c, hnode, rfl⟩ := he
  obtain ⟨a', c', hnode', rfl⟩ := he'
  have hc : '.' ∉ c := (hnode c (List.mem_append_right _ List.mem_cons_self)).dotless
  have hc' : '.' ∉ c' := (hnode' c' (List.mem_append_right _ List.mem_cons_self)).dotless
  by_cases ha : a = []
  · by_cases ha' : a' = []
    · subst ha ha'
      simp only [keyOf, concat_nil, List.nil_append, concat_singleton] at h ⊢
      rw [(List.cons.inj (List.cons.inj h).2).2]
    · exfalso
      subst ha
      apply keyOf_root hnode
      rw [h, keyOf_snoc hnode' ha']
      simp
  · by_cases ha' : a' = []
    · exfalso
      subst ha'
      apply keyOf_root hnode'
      rw [← h, keyOf_snoc hnode ha]
      simp
    · rw [keyOf_snoc hnode ha, keyOf_snoc hnode' ha'] at h
      obtain ⟨hx, rfl⟩ := snoc_inj hc hc' h
      have hlen := congrArg List.length hx
      simp only [List.length_append, List.length_cons] at hlen
      have hpath : concat a = concat a' := (List.append_inj hx (by omega)).1
      have : a = a' := concat_inj hnode.of_append.1 hnode'.of_append.1 hpath
      rw [this]

structure Index.Ok (canon : Str → Str) (ix : Index) : Prop where
  links : ∀ e ∈ ix.l2c, IsLink canon e
  cache : ∀ key ∈ ix.cache, ∃ e ∈ ix.l2c, key = keyOf e

theorem addChild_fields (ix : Index) (name child : Str) :
    let key := (splitLast canon child).1 ++ '-' :: '>' :: child
    let new := child ≠ [] ∧ key ∉ ix.cache
    (addChild canon name ix child).l2c =
        (if new then ix.l2c ++ [((splitLast canon child).1, child)] else ix.l2c) ∧
      (addChild canon name ix child).cache = if new then key :: ix.cache else ix.cache := by
  intro key new
  rw [addChild]
  by_cases hnew : new
  · rw [if_pos hnew, if_pos hnew, if_pos hnew]
    split <;> exact ⟨rfl, rfl⟩
  · rw [if_neg hnew, if_neg hnew, if_neg hnew]
    split <;> exact ⟨rfl, rfl⟩

variable {ix : Index}

theorem addChild_l2c (h : ix.Ok canon) (name : Str)
    (hnode : Node canon (a ++ [c])) :
    (addChild canon name ix (concat (a ++ [c]))).Ok canon ∧
      ∀ e, e ∈ (addChild canon name ix (concat (a ++ [c]))).l2c ↔
        e ∈ ix.l2c ∨ e = (concat a, concat (a ++ [c])) := by
  have hlink : IsLink canon (concat a, concat (a ++ [c])) := ⟨a, c, hnode, rfl⟩
  have hne : concat (a ++ [c]) ≠ [] := hnode.concat_ne_nil (by simp)
  obtain ⟨hl, hc⟩ := @addChild_fields canon ix name (concat (a ++ [c]))
  rw [splitLast_snoc hnode] at hl hc
  by_cases hkey : concat a ++ '-' :: '>' :: concat (a ++ [c]) ∈ ix.cache
  · rw [if_neg fun hboth => hboth.2 hkey] at hl hc
    refine ⟨⟨hl ▸ h.links, hl ▸ hc ▸ h.cache⟩, ?_⟩
    intro e
    rw [hl]
    constructor
    · exact .inl
    · rintro (he | rfl)
      · exact he
      · obtain ⟨e', he', heq⟩ := h.cache _ hkey
        rwa [keyOf_inj hlink (h.links e' he') heq]
  · rw [if_pos ⟨hne, hkey⟩] at hl hc
    have hmem : ∀ e, e ∈ (addChild canon name ix (concat (a ++ [c]))).l2c ↔
        e ∈ ix.l2c ∨ e = (concat a, concat (a ++ [c])) := by
      intro e
      rw [hl, List.mem_append, List.mem_singleton]
    refine ⟨⟨?_, ?_⟩, hmem⟩
    · intro e he
      rcases (hmem e).mp he with he | rfl
      · exact h.links e he
      · exact hlink
    · intro key hmemkey
      rw [hc] at hmemkey
      rcases List.mem_cons.mp hmemkey with rfl | hmemkey
      · exact ⟨_, (hmem _).mpr (.inr rfl), rfl⟩
      · obtain ⟨e, he, heq⟩ := h.cache key hmemkey
        exact ⟨e, (hmem e).mpr (.inl he), heq⟩

theorem addChild_root (h : ix.Ok canon) (name : Str) :
    (addChild canon name ix []).Ok canon ∧ (addChild canon name ix []).l2c = ix.l2c := by
  obtain ⟨hl, hc⟩ := @addChild_fields canon ix name []
  rw [if_neg fun hboth => hboth.1 rfl] at hl hc
  exact ⟨⟨hl ▸ h.links, hl ▸ hc ▸ h.cache⟩, hl⟩

/-! ## The database -/

theorem addMount_l2c (h : ix.Ok canon) {m : Mount} (hpath : IsPath canon m.lpath) :
    (addMount canon ix m).Ok canon ∧ ∀ e, e ∈ (addMount canon ix m).l2c ↔
      e ∈ ix.l2c ∨ ∃ a c rest, m.node canon = a ++ c :: rest ∧ e = (concat a, concat (a ++ [c])) := by
  have hloop : ∀ (l : List (Str × Str)) (ix : Index), ix.Ok canon →
      (∀ x ∈ l, ∃ p, p <+: m.node canon ∧ x.1 = concat p) →
      (l.foldl (fun ix x => addChild canon m.name ix x.1) ix).Ok canon ∧
        ∀ e, e ∈ (l.foldl (fun ix x => addChild canon m.name ix x.1) ix).l2c ↔
          e ∈ ix.l2c ∨ ∃ x ∈ l, ∃ a c, x.1 = concat (a ++ [c]) ∧ a ++ [c] <+: m.node canon ∧
            e = (concat a, concat (a ++ [c])) := by
    intro l
    induction l with
    | nil => intro ix h _; simpa using h
    | cons x l ih =>
      intro ix h hl
      obtain ⟨p, hp, hx⟩ := hl x List.mem_cons_self
      have hnode : Node canon p := fun s hs => hpath s (hp.subset hs)
      obtain ⟨hok, hmem⟩ : (addChild canon m.name ix x.1).Ok canon ∧
          ∀ e, e ∈ (addChild canon m.name ix x.1).l2c ↔ e ∈ ix.l2c ∨ ∃ a c,
            x.1 = concat (a ++ [c]) ∧ a ++ [c] <+: m.node canon ∧
              e = (concat a, concat (a ++ [c])) := by
        rcases List.eq_nil_or_concat p with rfl | ⟨a, c, hac⟩
        · rw [hx, concat_nil]
          obtain ⟨hok, hsame⟩ := addChild_root h m.name
          refine ⟨hok, ?_⟩
          intro e
          rw [hsame]
          constructor
          · exact .inl
          · rintro (he | ⟨a, c, hnil, hpre, -⟩)
            · exact he
            · have hac : Node canon (a ++ [c]) := fun s hs => hpath s (hpre.subset hs)
              exact absurd hnil.symm (hac.concat_ne_nil (by simp))
        · obtain rfl : p = a ++ [c] := by rw [hac, List.concat_eq_append]
          rw [hx]
          obtain ⟨hok, hmem⟩ := addChild_l2c h m.name hnode
          refine ⟨hok, ?_⟩
          intro e
          rw [hmem]
          constructor
          · rintro (he | rfl)
            · exact .inl he
            · exact .inr ⟨a, c, rfl, hp, rfl⟩
          · rintro (he | ⟨a', c', heq, hpre, rfl⟩)
            · exact .inl he
            · have hac' : Node canon (a' ++ [c']) := fun s hs => hpath s (hpre.subset hs)
              obtain ⟨rfl, hc⟩ := List.append_inj' (concat_inj hnode hac' heq) rfl
              rw [(List.cons.inj hc).1]
              exact .inr rfl
      obtain ⟨hok', hmem'⟩ := ih _ hok fun y hy => hl y (List.mem_cons_of_mem _ hy)
      refine ⟨hok', ?_⟩
      intro e
      rw [List.foldl_cons, hmem', hmem]
      simp only [List.mem_cons, exists_eq_or_imp]
      exact or_assoc
  obtain ⟨hok, hmem⟩ := hloop (gsplit canon m.lpath) ix h (by
    intro x hx
    obtain ⟨a, b, hab, rfl⟩ := mem_gsplit.mp hx
    exact ⟨a, ⟨b, hab.symm⟩, rfl⟩)
  refine ⟨hok, ?_⟩
  intro e
  show e ∈ (List.foldl _ ix (gsplit canon m.lpath)).l2c ↔ _
  rw [hmem]
  apply or_congr_right
  constructor
  · rintro ⟨x, -, a, c, -, ⟨rest, hrest⟩, rfl⟩
    exact ⟨a, c, rest, by rw [← hrest, List.append_assoc]; rfl, rfl⟩
  · rintro ⟨a, c, rest, hrest, rfl⟩
    have hrest' : m.node canon = (a ++ [c]) ++ rest := by rw [hrest, List.append_assoc]; rfl
    exact ⟨_, mem_gsplit.mpr ⟨a ++ [c], rest, hrest', rfl⟩, a, c, rfl, ⟨rest, hrest'.symm⟩, rfl⟩

/-- The children of a node towards the mount points below it. -/
theorem mem_l2c (hpaths : ∀ m ∈ db, IsPath canon m.lpath) {n : List Str} (hn : Node canon n)
    {child : Str} : child ∈ l2c canon db (concat n) ↔
      ∃ m ∈ db, ∃ c rest, m.node canon = n ++ c :: rest ∧ child = concat (n ++ [c]) := by
  have hloop : ∀ (l : List Mount) (ix : Index), ix.Ok canon → (∀ m ∈ l, IsPath canon m.lpath) →
      ∀ e, e ∈ (l.foldl (addMount canon) ix).l2c ↔ e ∈ ix.l2c ∨ ∃ m ∈ l, ∃ a c rest,
        m.node canon = a ++ c :: rest ∧ e = (concat a, concat (a ++ [c])) := by
    intro l
    induction l with
    | nil => intro ix _ _; simp
    | cons m l ih =>
      intro ix h hl e
      obtain ⟨hok, hmem⟩ := addMount_l2c h (hl m List.mem_cons_self)
      rw [List.foldl_cons, ih _ hok (fun m hm => hl m (List.mem_cons_of_mem _ hm)), hmem]
      simp only [List.mem_cons, exists_eq_or_imp]
      exact or_assoc
  have hall := hloop db ⟨[], [], []⟩ ⟨by simp, by simp⟩ hpaths
  rw [l2c, List.mem_map]
  constructor
  · rintro ⟨e, he, rfl⟩
    obtain ⟨he, hparent⟩ := List.mem_filter.mp he
    rcases (hall e).mp he with he | ⟨m, hm, a, c, rest, hnode, rfl⟩
    · cases he
    · have ha : Node canon a := fun s hs => hpaths m hm s (by
        show s ∈ m.node canon
        rw [hnode]
        exact List.mem_append_left _ hs)
      obtain rfl := concat_inj ha hn (of_decide_eq_true hparent)
      exact ⟨m, hm, c, rest, hnode, rfl⟩
  · rintro ⟨m, hm, c, rest, hnode, rfl⟩
    refine ⟨(concat n, concat (n ++ [c])), List.mem_filter.mpr ⟨?_, by simp⟩, rfl⟩
    exact (hall _).mpr (.inr ⟨m, hm, n, c, rest, hnode, rfl⟩)

end

end Mihini.Treemgr
