import Mihini.Config.Marking

/-!
# The second loop

What is in the cache and in the store once all is written.
-/

namespace Mihini.Config

open Mihini.Lib Mihini.Path

variable {ν : Type} {canon : Str → Str} [DecidableEq ν]

/-! ## Both loops -/

def put (t : LuaFields Str ν) (x : List Str × Option ν) : LuaFields Str ν :=
  match x.2 with
  | some v => t.set last x.1 (.leaf v)
  | none => t.clear x.1

section

variable {F : List Str → Option ν} {L : List (List Str × Option ν)}

theorem marked_all (hF : ∀ p, F p ≠ none → Names canon p) {cache : LuaFields Str ν}
    (hdistinct : cache.Distinct) (hshape : Shape F cache.node) (hnames : ∀ x ∈ L, Names canon x.1)
    (hpair : L.Pairwise fun x y => ¬ y.1 <+: x.1) (hL : Coherent L) :
    Marked canon F L ((pathsOf L).foldl (mark canon) (cache, ∅)) := by
  induction L using List.reverseRecOn with
  | nil =>
    refine ⟨⟨hshape.value, ?_⟩, hdistinct, ?_, ?_⟩
    · intro p hp
      rcases ((hshape.table p).mp hp).2 with hroot | htable
      · exact .inl hroot
      · exact .inr (.inl htable)
    · intro k x hx
      nomatch hx
    · intro p _
      rw [overlay_nil, if_pos rfl]
      rfl
  | append_singleton L x ih =>
    obtain ⟨hinit, -, hlast⟩ := List.pairwise_append.mp hpair
    rw [pathsOf, List.map_append, List.foldl_append]
    have hmarked := ih (fun y hy => hnames y (List.mem_append_left _ hy)) hinit hL.init
    exact hmarked.step hF (hnames x (List.mem_append_right _ (List.mem_singleton.mpr rfl)))
      (fun y hy => hlast y hy x (List.mem_singleton.mpr rfl)) hL

omit [DecidableEq ν] in
theorem node_puts {f : LuaFields Str ν} (hne : ∀ x ∈ L, x.1 ≠ [])
    (hpair : L.Pairwise fun x y => ¬ y.1 <+: x.1) (hL : Coherent L) (q : List Str) :
    (∀ v, (q, some v) ∈ L → (L.foldl put f).node q = some (some v)) ∧
    ((∃ x ∈ L, x.2 ≠ none ∧ q <+: x.1 ∧ q ≠ x.1) → (L.foldl put f).node q = some none) ∧
    ((∃ x ∈ L, x.1 <+: q) → (∀ x ∈ L, x.2 ≠ none → ¬ q <+: x.1) →
      (L.foldl put f).node q = none) ∧
    ((∀ x ∈ L, ¬ x.1 <+: q) → (∀ x ∈ L, x.2 ≠ none → ¬ q <+: x.1) →
      (L.foldl put f).node q = f.node q) := by
  induction L using List.reverseRecOn with
  | nil =>
    refine ⟨fun v h => absurd h List.not_mem_nil, ?_, ?_, fun _ _ => rfl⟩
    · intro h
      obtain ⟨x, hx, -⟩ := h
      exact absurd hx List.not_mem_nil
    · intro h
      obtain ⟨x, hx, -⟩ := h
      exact absurd hx List.not_mem_nil
  | append_singleton L x ih =>
    obtain ⟨k, v⟩ := x
    obtain ⟨hinit, -, hlast⟩ := List.pairwise_append.mp hpair
    have hmem : (k, v) ∈ L ++ [(k, v)] := List.mem_append_right _ (List.mem_singleton.mpr rfl)
    have hk : k ≠ [] := hne _ hmem
    have hafter : ∀ y ∈ L, ¬ k <+: y.1 := fun y hy => hlast y hy (k, v) (List.mem_singleton.mpr rfl)
    have hsplit : ∀ y, y ∈ L ++ [(k, v)] → y ∈ L ∨ y = (k, v) := fun y hy =>
      (List.mem_append.mp hy).imp_right List.mem_singleton.mp
    obtain ⟨hwritten, habove, hgone, hkept⟩ :=
      ih (fun y hy => hne y (List.mem_append_left _ hy)) hinit hL.init
    rw [List.foldl_append, List.foldl_cons, List.foldl_nil]
    cases v with
    | some a =>
      have hnode : (put (L.foldl put f) (k, some a)).node q = _ :=
        LuaFields.node_set last hk q
      show (∀ v, _ → (put (L.foldl put f) (k, some a)).node q = _) ∧ _
      rw [hnode]
      refine ⟨?_, ?_, ?_, ?_⟩
      · intro w hw
        rcases hsplit _ hw with hw | hw
        · have hkq := hafter _ hw
          have hqk : ¬ q <+: k := by
            intro hqk
            have heq := hL.apart _ (List.mem_append_left _ hw) _ hmem (by rintro ⟨⟩) (by rintro ⟨⟩) hqk
            exact hkq (heq ▸ List.prefix_refl _)
          rw [if_neg fun heq : q = k => hqk (heq ▸ List.prefix_refl _), if_neg hkq, if_neg hqk]
          exact hwritten w hw
        · obtain ⟨hq, hw⟩ := Prod.mk.inj hw
          rw [if_pos hq, hw]
      · intro h
        obtain ⟨y, hy, hv, hqy, hne'⟩ := h
        have hkq : ¬ k <+: q := by
          intro hkq
          rcases hsplit y hy with hy | rfl
          · exact hafter y hy (hkq.trans hqy)
          · exact hne' (hqy.eq_of_length_le hkq.length_le)
        rw [if_neg fun heq : q = k => hkq (heq ▸ List.prefix_refl _), if_neg hkq]
        split
        · rfl
        · rcases hsplit y hy with hy | rfl
          · exact habove ⟨y, hy, hv, hqy, hne'⟩
          · exact absurd hqy ‹_›
      · intro h hnew
        obtain ⟨y, hy, hyq⟩ := h
        have hqk := hnew _ hmem (by rintro ⟨⟩)
        rw [if_neg fun heq : q = k => hqk (heq ▸ List.prefix_refl _)]
        split
        · rfl
        · rcases hsplit y hy with hy | rfl
          · exact hgone ⟨y, hy, hyq⟩ fun z hz => hnew z (List.mem_append_left _ hz)
          · exact absurd hyq ‹_›
      · intro hap hnew
        have hqk := hnew _ hmem (by rintro ⟨⟩)
        rw [if_neg fun heq : q = k => hqk (heq ▸ List.prefix_refl _), if_neg (hap _ hmem), if_neg hqk]
        exact hkept (fun y hy => hap y (List.mem_append_left _ hy))
          fun y hy => hnew y (List.mem_append_left _ hy)
    | none =>
      have hnode : (put (L.foldl put f) (k, none)).node q = _ := LuaFields.node_clear hk q
      rw [hnode]
      refine ⟨?_, ?_, ?_, ?_⟩
      · intro w hw
        rcases hsplit _ hw with hw | hw
        · rw [if_neg (hafter _ hw)]
          exact hwritten w hw
        · cases (Prod.mk.inj hw).2
      · intro h
        obtain ⟨y, hy, hv, hqy, hne'⟩ := h
        rcases hsplit y hy with hy | rfl
        · rw [if_neg fun hkq => hafter y hy (hkq.trans hqy)]
          exact habove ⟨y, hy, hv, hqy, hne'⟩
        · exact absurd rfl hv
      · intro h hnew
        obtain ⟨y, hy, hyq⟩ := h
        split
        · rfl
        · rcases hsplit y hy with hy | rfl
          · exact hgone ⟨y, hy, hyq⟩ fun z hz => hnew z (List.mem_append_left _ hz)
          · exact absurd hyq ‹_›
      · intro hap hnew
        rw [if_neg (hap _ hmem)]
        exact hkept (fun y hy => hap y (List.mem_append_left _ hy))
          fun y hy => hnew y (List.mem_append_left _ hy)

omit [DecidableEq ν] in
theorem distinct_puts {f : LuaFields Str ν} (hf : f.Distinct) : (L.foldl put f).Distinct := by
  induction L generalizing f with
  | nil => exact hf
  | cons x L ih =>
    apply ih
    unfold put
    split
    · exact hf.set last
    · exact hf.clear

def Tidy (F G : List Str → Option ν) : Prop :=
  ∀ r, F r ≠ none → G r = none → ∀ p, p ≠ [] → p <+: r → p ≠ r →
    ∃ q, G q ≠ none ∧ (p <+: q ∨ q <+: p)

omit [DecidableEq ν] in
theorem shape_puts {cache : LuaFields Str ν} (hshape : PrefixFree F)
    (h : Grown F L cache) (hL : Coherent L) (hroot : ∀ v, ([], some v) ∉ L)
    (htidy : Tidy F (overlay L F)) {ws : List (List Str × Option ν)}
    (hws : ∀ q x, (q, x) ∈ ws ↔ overlay L F q ≠ F q ∧ x = overlay L F q)
    (hpair : ws.Pairwise fun x y => ¬ y.1 <+: x.1) :
    Shape (overlay L F) (ws.foldl put cache).node := by
  have hfree := hshape.overlay hL
  have hF0 : F [] = none := by
    by_contra hne
    obtain ⟨a, ha⟩ := Option.ne_none_iff_exists'.mp hne
    nomatch (h.value [] a).mpr ha
  have hG0 : overlay L F [] = none := by
    rcases overlay_cases L F [] with ⟨v, hv, -⟩ | ⟨-, ⟨-, hover⟩ | ⟨-, hover⟩⟩
    · exact absurd hv (hroot v)
    · exact hover
    · rw [hover, hF0]
  have hne : ∀ x ∈ ws, x.1 ≠ [] := by
    intro x hx heq
    have := ((hws x.1 x.2).mp hx).1
    rw [heq, hG0, hF0] at this
    exact this rfl
  have hcoherent : Coherent ws := by
    constructor
    · intro x hx y hy hxv hyv hxy
      rw [((hws x.1 x.2).mp hx).2] at hxv
      rw [((hws y.1 y.2).mp hy).2] at hyv
      exact hfree _ _ hxv hyv hxy
    · intro x hx y hy hxy
      rw [((hws x.1 x.2).mp hx).2, ((hws y.1 y.2).mp hy).2, hxy]
  have hnode := node_puts (f := cache) hne hpair hcoherent
  -- the entries that lead to or through a value that is kept
  have hstays : ∀ p, overlay L F p = F p → F p ≠ none → ∀ x ∈ ws, ¬ x.1 <+: p := by
    intro p hp hFp x hx hxp
    obtain ⟨hchange, hxv⟩ := (hws x.1 x.2).mp hx
    by_cases hnil : overlay L F x.1 = none
    · have heq := hshape x.1 p (by rw [hnil] at hchange; exact Ne.symm hchange) hFp hxp
      rw [heq] at hchange
      exact hchange hp
    · have heq := hfree x.1 p hnil (by rw [hp]; exact hFp) hxp
      rw [heq] at hchange
      exact hchange hp
  have hnotLeaf : ∀ p, overlay L F p = none → ∀ v, (ws.foldl put cache).node p ≠ some (some v) := by
    intro p hp v hv
    obtain ⟨-, habove, hgone, hkept⟩ := hnode p
    by_cases h1 : ∃ x ∈ ws, x.2 ≠ none ∧ p <+: x.1
    · obtain ⟨x, hx, hxv, hpx⟩ := h1
      have hpx' : p ≠ x.1 := by
        intro heq
        rw [((hws x.1 x.2).mp hx).2, ← heq, hp] at hxv
        exact hxv rfl
      rw [habove ⟨x, hx, hxv, hpx, hpx'⟩] at hv
      nomatch hv
    · have hnew : ∀ x ∈ ws, x.2 ≠ none → ¬ p <+: x.1 := fun x hx hxv hpx => h1 ⟨x, hx, hxv, hpx⟩
      by_cases h2 : ∃ x ∈ ws, x.1 <+: p
      · rw [hgone h2 hnew] at hv
        nomatch hv
      have hap : ∀ x ∈ ws, ¬ x.1 <+: p := fun x hx hxp => h2 ⟨x, hx, hxp⟩
      rw [hkept hap hnew] at hv
      have hFp := (h.value p v).mp hv
      by_cases hsame : overlay L F p = F p
      · rw [← hsame, hp] at hFp
        nomatch hFp
      · exact hap _ ((hws p none).mpr ⟨hsame, hp.symm⟩) (List.prefix_refl p)
  have hleaf : ∀ p v, overlay L F p = some v → (ws.foldl put cache).node p = some (some v) := by
    intro p v hp
    obtain ⟨hwritten, -, -, hkept⟩ := hnode p
    by_cases hsame : overlay L F p = F p
    · have hFp : F p ≠ none := by
        rw [← hsame, hp]
        exact nofun
      have hap := hstays p hsame hFp
      rw [hkept hap]
      · rw [← hsame] at hFp
        exact (h.value p v).mpr (by rw [← hsame, hp])
      · intro x hx hxv hpx
        rw [((hws x.1 x.2).mp hx).2] at hxv
        have heq := hfree p x.1 (by rw [hp]; exact nofun) hxv hpx
        exact hap x hx (heq ▸ List.prefix_refl _)
    · exact hwritten v ((hws p (some v)).mpr ⟨hsame, hp.symm⟩)
  refine ⟨fun p v => ⟨?_, hleaf p v⟩, fun p => ⟨?_, ?_⟩⟩
  · intro hv
    cases hp : overlay L F p with
    | none => exact absurd hv (hnotLeaf p hp v)
    | some w =>
      rw [hleaf p w hp] at hv
      exact Option.some.inj hv
  · intro hp
    have hGp : overlay L F p = none := by
      cases hGp : overlay L F p with
      | none => rfl
      | some v =>
        rw [hleaf p v hGp] at hp
        nomatch Option.some.inj hp
    refine ⟨hGp, ?_⟩
    by_cases hpnil : p = []
    · exact .inl hpnil
    obtain ⟨-, -, hgone, hkept⟩ := hnode p
    by_cases h1 : ∃ x ∈ ws, x.2 ≠ none ∧ p <+: x.1
    · obtain ⟨x, hx, hxv, hpx⟩ := h1
      refine .inr ⟨x.1, hpx, ?_⟩
      rw [← ((hws x.1 x.2).mp hx).2]
      exact hxv
    · have hnew : ∀ x ∈ ws, x.2 ≠ none → ¬ p <+: x.1 := fun x hx hxv hpx => h1 ⟨x, hx, hxv, hpx⟩
      by_cases h2 : ∃ x ∈ ws, x.1 <+: p
      · rw [hgone h2 hnew] at hp
        nomatch hp
      have hap : ∀ x ∈ ws, ¬ x.1 <+: p := fun x hx hxp => h2 ⟨x, hx, hxp⟩
      rw [hkept hap hnew] at hp
      rcases h.table p hp with hroot | ⟨q, hpq, hFq⟩ | ⟨q, v, hq, -, hpq⟩
      · exact .inl hroot
      · by_cases hGq : overlay L F q = none
        · have hpq' : p ≠ q := by
            intro heq
            obtain ⟨a, ha⟩ := Option.ne_none_iff_exists'.mp hFq
            rw [heq, (h.value q a).mpr ha] at hp
            nomatch Option.some.inj hp
          obtain ⟨r, hGr, hr⟩ := htidy q hFq hGq p hpnil hpq hpq'
          rcases hr with hpr | hrp
          · exact .inr ⟨r, hpr, hGr⟩
          · by_cases hsame : overlay L F r = F r
            · have hrq := hshape r q (by rw [← hsame]; exact hGr) hFq (hrp.trans hpq)
              rw [hrq] at hrp
              exact absurd (hpq.eq_of_length_le hrp.length_le) hpq'
            · exact absurd hrp (hap _ ((hws r _).mpr ⟨hsame, rfl⟩))
        · exact .inr ⟨q, hpq, hGq⟩
      · refine .inr ⟨q, hpq, ?_⟩
        rw [overlay_written hL hq]
        exact nofun
  · intro hp
    obtain ⟨hGp, hpath⟩ := hp
    rcases hpath with rfl | ⟨q, hpq, hGq⟩
    · rfl
    obtain ⟨-, habove, -, hkept⟩ := hnode p
    have hpq' : p ≠ q := by
      intro heq
      rw [heq] at hGp
      exact hGq hGp
    by_cases h1 : ∃ x ∈ ws, x.2 ≠ none ∧ p <+: x.1
    · obtain ⟨x, hx, hxv, hpx⟩ := h1
      refine habove ⟨x, hx, hxv, hpx, fun heq => ?_⟩
      rw [((hws x.1 x.2).mp hx).2, ← heq, hGp] at hxv
      exact hxv rfl
    · have hnew : ∀ x ∈ ws, x.2 ≠ none → ¬ p <+: x.1 := fun x hx hxv hpx => h1 ⟨x, hx, hxv, hpx⟩
      have hsame : overlay L F q = F q := by
        by_contra hne
        exact hnew _ ((hws q _).mpr ⟨hne, rfl⟩) hGq hpq
      have hFq : F q ≠ none := by
        rw [← hsame]
        exact hGq
      rw [hkept (fun x hx hxp => hstays q hsame hFq x hx (hxp.trans hpq)) hnew]
      obtain ⟨a, ha⟩ := Option.ne_none_iff_exists'.mp hFq
      have hleafq := (h.value q a).mpr ha
      exact LuaFields.node_of_leads (by rw [hleafq]; exact nofun) hpq hpq'

end

def putStore (t : LuaTable Str ν) (x : Str × Option ν) : LuaTable Str ν :=
  match x.2 with
  | some v => t.insert x.1 v
  | none => t.erase x.1

omit [DecidableEq ν] in
theorem lookup_putStore_ne {t : LuaTable Str ν} {x : Str × Option ν} {k : Str} (h : k ≠ x.1) :
    (putStore t x).lookup k = t.lookup k := by
  unfold putStore
  split
  · exact AList.lookup_insert_ne h
  · exact AList.lookup_erase_ne h

omit [DecidableEq ν] in
theorem lookup_putStore (t : LuaTable Str ν) (k : Str) (v : Option ν) :
    (putStore t (k, v)).lookup k = v := by
  cases v with
  | none => exact AList.lookup_erase k t
  | some v => exact AList.lookup_insert t

omit [DecidableEq ν] in
theorem lookup_putStores {t : LuaTable Str ν} {l : List (Str × Option ν)}
    (h : l.Pairwise fun x y => x.1 ≠ y.1) (k : Str) :
    (∀ v, (k, v) ∈ l → (l.foldl putStore t).lookup k = v) ∧
    (k ∉ l.map Prod.fst → (l.foldl putStore t).lookup k = t.lookup k) := by
  induction l generalizing t with
  | nil => exact ⟨fun v hv => absurd hv List.not_mem_nil, fun _ => rfl⟩
  | cons x l ih =>
    obtain ⟨hx, hl⟩ := List.pairwise_cons.mp h
    obtain ⟨hmem, hother⟩ := ih (t := putStore t x) hl
    constructor
    · intro v hv
      rcases List.mem_cons.mp hv with heq | hv
      · have hnew : k ∉ l.map Prod.fst := by
          intro hk
          obtain ⟨y, hy, hyk⟩ := List.mem_map.mp hk
          exact hx y hy (by rw [← heq, hyk])
        rw [List.foldl_cons, hother hnew, ← heq, lookup_putStore]
      · exact hmem v hv
    · intro hk
      rw [List.map_cons, List.mem_cons, not_or] at hk
      rw [List.foldl_cons, hother hk.2, lookup_putStore_ne hk.1]

omit [DecidableEq ν] in
theorem write_eq {ws : List (List Str × Option ν)} (hnames : ∀ x ∈ ws, Names canon x.1)
    (hne : ∀ x ∈ ws, x.1 ≠ []) (s : State ν) :
    write canon s (pathsOf ws) = ({ s with
      cache := ws.foldl put s.cache
      store := (pathsOf ws).foldl putStore s.store }, true) := by
  induction ws generalizing s with
  | nil => rfl
  | cons x ws ih =>
    obtain ⟨p, v⟩ := x
    have hp := hnames (p, v) List.mem_cons_self
    have hstep : write canon s ((concat p, v) :: pathsOf ws) =
        write canon { s with
          cache := upathSet canon s.cache (concat p) v
          store := putStore s.store (concat p, v) } (pathsOf ws) := by
      cases hconcat : concat p with
      | nil => exact absurd hconcat (concat_ne_nil hp (hne (p, v) List.mem_cons_self))
      | cons c k => cases v <;> rfl
    have hput : upathSet canon s.cache (concat p) v = put s.cache (p, v) := by
      cases v with
      | none => rw [upathSet, segments_concat hp, put]
      | some a => rw [upathSet, segments_concat hp, put]
    show write canon s ((concat p, v) :: pathsOf ws) = _
    rw [hstep, hput, ih (fun y hy => hnames y (List.mem_cons_of_mem _ hy))
      fun y hy => hne y (List.mem_cons_of_mem _ hy)]
    rfl

theorem concat_le_of_leads {p q : List Str} (hq : Names canon q) (h : p <+: q) :
    concat p <+: concat q := by
  obtain ⟨r, rfl⟩ := h
  by_cases hp : p = []
  · rw [hp, concat_nil]
    exact List.nil_prefix
  by_cases hr : r = []
  · rw [hr, List.append_nil]
  have hpn : Names canon p := hq.of_prefix (List.prefix_append p r)
  have hrn : Names canon r := fun s hs => hq s (List.mem_append_right p hs)
  rw [concat_append, concat_pair (concat_ne_nil hpn hp) (concat_ne_nil hrn hr)]
  exact List.prefix_append _ _

omit [DecidableEq ν] in
/-- The entries of a table whose keys are paths of names, in the order in which they are visited. -/
theorem exists_paths {t : Values ν}
    (hkeys : ∀ k x, t.lookup k = some x → ∃ p, Names canon p ∧ k = concat p) :
    ∃ ps : List (List Str × Option ν), pathsOf ps = sortedPairs t ∧ (∀ x ∈ ps, Names canon x.1) ∧
      (∀ p x, (p, x) ∈ ps ↔ Names canon p ∧ t.lookup (concat p) = some x) ∧
      ps.Pairwise fun x y => ¬ y.1 <+: x.1 := by
  have hmem : ∀ x ∈ sortedPairs t, ∃ p, Names canon p ∧ x.1 = concat p := fun x hx =>
    hkeys x.1 x.2 (mem_sortedPairs.mp hx)
  refine ⟨(sortedPairs t).map fun x => (segments canon x.1, x.2), ?_, ?_, ?_, ?_⟩
  · rw [pathsOf, List.map_map]
    conv_rhs => rw [← List.map_id (sortedPairs t)]
    apply List.map_congr_left
    intro x hx
    obtain ⟨p, hp, hk⟩ := hmem x hx
    show (concat (segments canon x.1), x.2) = x
    rw [hk, segments_concat hp, ← hk]
  · intro x hx
    obtain ⟨y, hy, rfl⟩ := List.mem_map.mp hx
    obtain ⟨p, hp, hk⟩ := hmem y hy
    show Names canon (segments canon y.1)
    rw [hk, segments_concat hp]
    exact hp
  · intro p x
    rw [List.mem_map]
    constructor
    · intro h
      obtain ⟨y, hy, heq⟩ := h
      obtain ⟨q, hq, hk⟩ := hmem y hy
      obtain ⟨hseg, hx⟩ := Prod.mk.inj heq
      rw [hk, segments_concat hq] at hseg
      rw [← hseg]
      refine ⟨hq, ?_⟩
      rw [← hk, ← hx]
      exact mem_sortedPairs.mp hy
    · intro h
      obtain ⟨hp, hx⟩ := h
      exact ⟨(concat p, x), mem_sortedPairs.mpr hx, by rw [segments_concat hp]⟩
  · rw [List.pairwise_map]
    refine (pairwise_sortedPairs t).imp_of_mem ?_
    intro x y hx hy hxy hleads
    obtain ⟨p, hp, hkx⟩ := hmem x hx
    obtain ⟨q, hq, hky⟩ := hmem y hy
    have hqp : q <+: p := by
      rw [hkx, hky, segments_concat hp, segments_concat hq] at hleads
      exact hleads
    have hle : concat q ≤ concat p := not_lt.mp (concat_le_of_leads hp hqp).le
    rw [hkx, hky] at hxy
    exact hxy.2 (le_antisymm hxy.1 hle)

end Mihini.Config
