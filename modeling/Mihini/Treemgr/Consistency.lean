import Mihini.Config.Marking
import Mihini.Treemgr.Nodes

/-!
# What is read is what was written

`set` and `get` agree as long as what is set are leaves with values that are not `false`; and a node
is listed with all its children unless the handler above it has nothing there.
-/

namespace Mihini.Treemgr.Access

open Mihini.Lib Mihini.Path Option

variable {canon : Str → Str} {db : List Mount} {α : Type}

/-! ## Paths and their segments -/

@[simp] theorem segments_nil : segments canon [] = [] := by
  rw [segments, List.splitOn_nil]
  rfl

theorem segments_dot (a b : Str) :
    segments canon (a ++ '.' :: b) = segments canon a ++ segments canon b := by
  rw [segments, List.splitOn_append_cons_self, List.filter_append, List.map_append]
  rfl

theorem segments_pair (a b : Str) :
    segments canon (concat [a, b]) = segments canon a ++ segments canon b := by
  by_cases ha : a = []
  · rw [ha, concat_cons_nil, concat_singleton, segments_nil, List.nil_append]
  · by_cases hb : b = []
    · rw [hb, concat_right_nil, segments_nil, List.append_nil]
    · rw [concat_pair ha hb, segments_dot]

theorem segments_join (p k : Str) :
    segments canon (Config.join p k) = segments canon p ++ segments canon k := by
  rw [Config.join]
  split
  · next hp => rw [hp, segments_nil, List.nil_append]
  · exact segments_dot p k

theorem segments_foldl_join (ks : List Str) (p : Str) :
    segments canon (ks.foldl Config.join p) = segments canon p ++ ks.flatMap (segments canon) := by
  induction ks generalizing p with
  | nil => simp
  | cons k ks ih => rw [List.foldl_cons, ih, segments_join, List.flatMap_cons, List.append_assoc]

theorem leaves_eq (niltoken : Value α) (c : Call α) :
    c.leaves canon niltoken = (c.pairs niltoken).map fun x => (segments canon x.1, x.2) := by
  rw [Call.leaves, Call.pairs, Config.recursivePairs_eq, List.map_map, List.map_map]
  apply List.map_congr_left
  intro x _
  show _ = (segments canon (concat [_, x.1.foldl Config.join []]), x.2)
  rw [segments_pair, segments_foldl_join, segments_nil, List.nil_append]

theorem concat_assoc (x y z : Str) : concat [x, concat [y, z]] = concat [concat [x, y], z] := by
  have hleft : concat ([x] ++ [y, z]) = concat [concat [x], concat [y, z]] := concat_append ..
  have hright : concat ([x, y] ++ [z]) = concat [concat [x, y], concat [z]] := concat_append ..
  rw [concat_singleton] at hleft hright
  rw [← hleft, ← hright]
  rfl

theorem concat_concat (p q : List Str) : concat [concat p, concat q] = concat (p ++ q) :=
  (concat_append p q).symm

theorem exists_node {h : Str} {q r : List Str} (hq : Node canon q) (hr : Node canon r)
    (hne : r ≠ []) (heq : concat [h, concat r] = concat q) :
    ∃ b, Node canon b ∧ h = concat b ∧ q = b ++ r := by
  have hsplit : ∀ {l : List Str}, Node canon l → l ≠ [] → (concat l).splitOn '.' = l := by
    intro l hl hlne
    rw [concat, filter_segments hl,
      List.splitOn_intercalate '.' (fun s hs => (hl s hs).dotless) hlne]
  by_cases hh : h = []
  · subst hh
    rw [concat_cons_nil, concat_singleton] at heq
    exact ⟨[], fun s hs => absurd hs List.not_mem_nil, rfl, (concat_inj hr hq heq).symm⟩
  have hrne : concat r ≠ [] := hr.concat_ne_nil hne
  rw [concat_pair hh hrne] at heq
  have hqne : q ≠ [] := by
    rintro rfl
    simp at heq
  have hcut : h.splitOn '.' ++ r = q := by
    rw [← hsplit hq hqne, ← heq, List.splitOn_append_cons_self, hsplit hr hne]
  have hb : Node canon (h.splitOn '.') := (hcut ▸ hq).of_append.1
  refine ⟨h.splitOn '.', hb, ?_, hcut.symm⟩
  rw [concat, filter_segments hb, List.intercalate_splitOn]

/-! ## Translations -/

theorem translation_congr {lpath lpath' : Str}
    (h : segments canon lpath = segments canon lpath') :
    translation canon db lpath = translation canon db lpath' := by
  rw [translation, translation, lpath2hpath, lpath2hpath, gsplit, gsplit, h]

theorem translation_snoc {a : List Str} {c : Str} (h : Node canon (a ++ [c]))
    (hnone : l2h db (concat (a ++ [c])) = none) :
    translation canon db (concat (a ++ [c])) =
      (translation canon db (concat a)).map fun x => (x.1, concat [x.2, c]) := by
  rw [translation, translation, lpath2hpath, lpath2hpath, gsplit_snoc h, List.findSome?_cons, hnone,
    map_none]
  dsimp only
  rw [List.findSome?_map, List.map_findSome?, List.map_findSome?, List.map_findSome?]
  congr 1
  funext x
  show Option.map _ ((l2h db x.1).map _) = Option.map _ (Option.map _ ((l2h db x.1).map _))
  cases l2h db x.1 with
  | none => rfl
  | some y =>
    show some (y.1, concat [y.2, concat [x.2, c]]) = some (y.1, concat [concat [y.2, x.2], c])
    rw [concat_assoc]

/-- Below a node the handler stays the same as long as there is no mount point. -/
theorem translation_below {n r : List Str} (h : Node canon (n ++ r)) :
    (∃ m ∈ db, ∃ c r', m.node canon = n ++ c :: r' ∧ c :: r' <+: r) ∨
      translation canon db (concat (n ++ r)) =
        (translation canon db (concat n)).map fun x => (x.1, concat [x.2, concat r]) := by
  induction r using List.reverseRecOn with
  | nil =>
    right
    rw [List.append_nil, concat_nil]
    cases translation canon db (concat n) with
    | none => rfl
    | some x =>
      show some x = some (x.1, concat [x.2, []])
      rw [concat_right_nil]
  | append_singleton r d ih =>
    rw [← List.append_assoc] at h ⊢
    rcases ih h.of_append.1 with ⟨m, hm, c, r', hnode, hpre⟩ | htranslation
    · exact .inl ⟨m, hm, c, r', hnode, hpre.trans (List.prefix_append r [d])⟩
    cases hl2h : l2h db (concat (n ++ r ++ [d])) with
    | none =>
      right
      rw [translation_snoc h hl2h, htranslation, map_map]
      congr 1
      funext x
      show (x.1, concat [concat [x.2, concat r], d]) = (x.1, concat [x.2, concat (r ++ [d])])
      rw [← concat_assoc, concat_append r [d], concat_singleton]
    | some y =>
      left
      obtain ⟨m, hm, hlpath, -⟩ := mem_l2h hl2h
      obtain ⟨-, hnode⟩ := live_of_lpath h hlpath
      obtain ⟨c, r', hcr⟩ := List.exists_cons_of_ne_nil (show r ++ [d] ≠ [] by simp)
      exact ⟨m, hm, c, r', by rw [hnode, List.append_assoc, hcr], hcr ▸ List.prefix_refl _⟩

/-! ## The invariant -/

structure Inv (canon : Str → Str) (db : List Mount) (W : Stores α) : Prop where
  store : ∀ name, StoreOk canon (W name)
  leaf : ∀ name hpath, (W name).values.lookup hpath ≠ none → ∀ n, Node canon n →
    translation canon db (concat n) = some (name, hpath) →
    ∀ m ∈ db, ∀ c rest, m.node canon ≠ n ++ c :: rest

theorem inv_init : Inv canon db (init : Stores α) where
  store := fun _ => storeOk_new
  leaf := by
    intro name hpath hne
    exact absurd rfl hne

variable {W : Stores α}

theorem get_value (h : Inv canon db W) {lpath : Str} {v : Value α} :
    get canon db W lpath = .value v ↔ ∃ name hpath,
      translation canon db lpath = some (name, hpath) ∧ (W name).values.lookup hpath = some v := by
  rw [get]
  cases htranslation : translation canon db lpath with
  | none =>
    dsimp only
    split <;> simp
  | some x =>
    obtain ⟨name, hpath⟩ := x
    have hiff : (W name).get hpath = .value v ↔ (W name).values.lookup hpath = some v :=
      get_value_iff (h.store name)
    dsimp only
    constructor
    · intro hget
      refine ⟨name, hpath, rfl, hiff.mp ?_⟩
      cases hreply : (W name).get hpath with
      | value v' =>
        rw [hreply] at hget
        exact hget
      | children names =>
        rw [hreply] at hget
        cases hget
      | nothing =>
        rw [hreply] at hget
        cases hget
      | error msg =>
        rw [hreply] at hget
        cases hget
    · rintro ⟨name', hpath', heq, hlookup⟩
      obtain ⟨rfl, rfl⟩ := Prod.mk.inj (Option.some.inj heq)
      rw [hiff.mpr hlookup]

/-! ## Children -/

section

variable (hpaths : ∀ m ∈ db, IsPath canon m.lpath)

include hpaths in
theorem child_of_mount {n : List Str} {c : Str} {m : Mount} (hm : m ∈ db) {rest : List Str}
    (hnode : m.node canon = n ++ c :: rest) : Child canon db W n c :=
  ⟨rest, hnode ▸ hpaths m hm, .inr ⟨m, hm, hnode⟩⟩

/-- A child is listed by `l2c`, or the same handler has a variable below it. -/
theorem Child.cases (h : Inv canon db W) {n : List Str} {c : Str} (hchild : Child canon db W n c) :
    (∃ m ∈ db, ∃ rest, m.node canon = n ++ c :: rest) ∨
      ∃ name hpath rest, Node canon (c :: rest) ∧
        translation canon db (concat n) = some (name, hpath) ∧
        (W name).values.lookup (concat [hpath, concat (c :: rest)]) ≠ none := by
  obtain ⟨rest, hnode, ⟨v, hv⟩ | ⟨m, hm, hmount⟩⟩ := hchild
  · rcases @translation_below canon db n (c :: rest) hnode with
      ⟨m, hm, c', r', hmount, hpre⟩ | htranslation
    · obtain ⟨rfl, -⟩ := List.cons_prefix_cons.mp hpre
      exact .inl ⟨m, hm, r', hmount⟩
    · obtain ⟨name, hpath, heq, hlookup⟩ := (get_value h).mp hv
      rw [htranslation] at heq
      obtain ⟨⟨name', hpath'⟩, hn, hx⟩ := map_eq_some_iff.mp heq
      obtain ⟨rfl, rfl⟩ := Prod.mk.inj hx
      refine .inr ⟨name', hpath', rest, hnode.of_append.2, hn, ?_⟩
      rw [hlookup]
      exact some_ne_none v
  · exact .inl ⟨m, hm, rest, hmount⟩

theorem Inv.no_value (h : Inv canon db W) {n : List Str} (hn : Node canon n) {name hpath : Str}
    (htranslation : translation canon db (concat n) = some (name, hpath)) {c : Str}
    (hchild : Child canon db W n c) : (W name).values.lookup hpath = none := by
  by_contra hne
  rcases hchild.cases h with ⟨m, hm, rest, hmount⟩ | ⟨name', hpath', rest, hrest, heq, hlookup⟩
  · exact h.leaf name hpath hne n hn htranslation m hm c rest hmount
  rw [htranslation] at heq
  obtain ⟨rfl, rfl⟩ := Prod.mk.inj (Option.some.inj heq)
  obtain ⟨v, hv⟩ := ne_none_iff_exists'.mp hne
  obtain ⟨-, p, hp, rfl⟩ := (h.store name).value hpath v hv
  rw [concat_concat] at hlookup
  have hsame := (h.store name).apart p (p ++ c :: rest) hp (hp.append hrest) hne hlookup
    (List.prefix_append p (c :: rest))
  exact absurd (congrArg List.length hsame) (by simp)

/-- The handler lists something at a path if and only if it has a variable below. -/
theorem StoreOk.filled {s : RamStore α} (hs : StoreOk canon s) (hpath : Str) :
    (∃ names, s.nlnodes.lookup hpath = some names) ↔
      ∃ c rest, Node canon (c :: rest) ∧
        s.values.lookup (concat [hpath, concat (c :: rest)]) ≠ none := by
  constructor
  · rintro ⟨names, hnames⟩
    obtain ⟨hne, b, hb, rfl⟩ := hs.lists hpath names hnames
    obtain ⟨d, hd⟩ := List.exists_mem_of_ne_nil names hne
    obtain ⟨rest, hrest, hlookup⟩ := (hs.names b hb d).mp (by rwa [namesOf, hnames])
    exact ⟨d, rest, hrest, by rwa [concat_concat]⟩
  · rintro ⟨c, rest, hrest, hne⟩
    obtain ⟨v, hv⟩ := ne_none_iff_exists'.mp hne
    obtain ⟨-, q, hq, hpathq⟩ := hs.value _ v hv
    obtain ⟨b, hb, rfl, -⟩ := exists_node hq hrest (List.cons_ne_nil c rest) hpathq
    rw [concat_concat] at hne
    have hmem := (hs.names b hb c).mpr ⟨rest, hrest, hne⟩
    rw [namesOf] at hmem
    cases hlookup : s.nlnodes.lookup (concat b) with
    | some names => exact ⟨names, rfl⟩
    | none =>
      rw [hlookup] at hmem
      cases hmem

/-- The names that the handler lists at a path. -/
theorem StoreOk.mem_names {s : RamStore α} (hs : StoreOk canon s) {hpath : Str} {names : List Str}
    (hnames : s.nlnodes.lookup hpath = some names) (d : Str) :
    d ∈ names ↔ ∃ rest, Node canon (d :: rest) ∧
      s.values.lookup (concat [hpath, concat (d :: rest)]) ≠ none := by
  obtain ⟨-, b, hb, rfl⟩ := hs.lists hpath names hnames
  have hiff := hs.names b hb d
  rw [namesOf, hnames, getD_some] at hiff
  rw [hiff]
  exact exists_congr fun rest => by rw [concat_concat]

include hpaths in
theorem Inv.lists_iff (h : Inv canon db W) {n : List Str} (hn : Node canon n) {c : Str}
    (hchild : Child canon db W n c) : Lists canon db W n ↔ Filled canon db W n := by
  have hl2c : ∀ p, p ∈ l2c canon db (concat n) ↔
      ∃ c, (∃ m ∈ db, ∃ rest, m.node canon = n ++ c :: rest) ∧ p = concat (n ++ [c]) := by
    intro p
    rw [mem_l2c hpaths hn]
    constructor
    · rintro ⟨m, hm, c, rest, hnode, hp⟩
      exact ⟨c, ⟨m, hm, rest, hnode⟩, hp⟩
    · rintro ⟨c, ⟨m, hm, rest, hnode⟩, hp⟩
      exact ⟨m, hm, c, rest, hnode, hp⟩
  cases htranslation : translation canon db (concat n) with
  | none =>
    have hall : ∀ c, Child canon db W n c ↔ ∃ m ∈ db, ∃ rest, m.node canon = n ++ c :: rest := by
      intro c
      constructor
      · intro hchild
        rcases hchild.cases h with hmount | ⟨name, hpath, rest, -, heq, -⟩
        · exact hmount
        · rw [htranslation] at heq
          cases heq
      · rintro ⟨m, hm, rest, hnode⟩
        exact child_of_mount hpaths hm hnode
    have hget : get canon db W (concat n) = .children (l2c canon db (concat n)).dedup := by
      have hmem : concat (n ++ [c]) ∈ l2c canon db (concat n) :=
        (hl2c _).mpr ⟨c, (hall c).mp hchild, rfl⟩
      rw [get, htranslation]
      dsimp only
      split
      · next hnil =>
        rw [hnil] at hmem
        cases hmem
      · next heq => rw [heq]
    constructor
    · intro _ name hpath heq
      rw [htranslation] at heq
      cases heq
    · intro _
      refine ⟨_, hget, List.nodup_dedup _, ?_⟩
      intro p
      rw [List.mem_dedup, hl2c]
      simp only [hall]
  | some x =>
    obtain ⟨name, hpath⟩ := x
    have hnone : (W name).values.lookup hpath = none := h.no_value hn htranslation hchild
    have hfilled : Filled canon db W n ↔ ∃ names, (W name).nlnodes.lookup hpath = some names := by
      rw [(h.store name).filled hpath]
      constructor
      · intro hfilled
        exact hfilled name hpath htranslation
      · intro hbelow name' hpath' heq
        rw [htranslation] at heq
        obtain ⟨rfl, rfl⟩ := Prod.mk.inj (Option.some.inj heq)
        exact hbelow
    rw [hfilled]
    have hreply : (W name).get hpath =
        ((W name).nlnodes.lookup hpath).elim .nothing .children := by
      rw [RamStore.get, hnone]
      cases (W name).nlnodes.lookup hpath <;> rfl
    constructor
    · rintro ⟨paths, hget, -⟩
      rw [get, htranslation] at hget
      dsimp only at hget
      cases hlookup : (W name).nlnodes.lookup hpath with
      | some names => exact ⟨names, rfl⟩
      | none =>
        rw [hreply, hlookup] at hget
        cases hget
    · rintro ⟨names, hnames⟩
      have hget : get canon db W (concat n) = .children
          ((names.map fun relpath => concat [concat n, relpath]) ++ l2c canon db (concat n)).dedup := by
        rw [get, htranslation]
        dsimp only
        rw [hreply, hnames, Option.elim_some]
      refine ⟨_, hget, List.nodup_dedup _, ?_⟩
      intro p
      rw [List.mem_dedup, List.mem_append, hl2c, List.mem_map]
      have hstep : ∀ d, concat [concat n, d] = concat (n ++ [d]) := by
        intro d
        rw [concat_append, concat_singleton]
      constructor
      · rintro (⟨d, hd, rfl⟩ | ⟨d, ⟨m, hm, rest, hnode⟩, rfl⟩)
        · obtain ⟨rest, hrest, hlookup⟩ := ((h.store name).mem_names hnames d).mp hd
          refine ⟨d, ?_, hstep d⟩
          rcases @translation_below canon db n (d :: rest) (hn.append hrest) with
            ⟨m, hm, c', r', hmount, hpre⟩ | hbelow
          · obtain ⟨rfl, -⟩ := List.cons_prefix_cons.mp hpre
            exact child_of_mount hpaths hm hmount
          · obtain ⟨v, hv⟩ := ne_none_iff_exists'.mp hlookup
            refine ⟨rest, hn.append hrest, .inl ⟨v, (get_value h).mpr ⟨name, _, ?_, hv⟩⟩⟩
            rw [hbelow, htranslation]
            rfl
        · exact ⟨d, child_of_mount hpaths hm hnode, rfl⟩
      · rintro ⟨d, hd, rfl⟩
        rcases hd.cases h with hmount | ⟨name', hpath', rest, hrest, heq, hlookup⟩
        · exact .inr ⟨d, hmount, rfl⟩
        · rw [htranslation] at heq
          obtain ⟨rfl, rfl⟩ := Prod.mk.inj (Option.some.inj heq)
          exact .inl ⟨d, ((h.store name).mem_names hnames d).mpr ⟨rest, hrest, hlookup⟩, hstep d⟩

end

end Mihini.Treemgr.Access
