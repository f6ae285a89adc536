import Mihini.Config.Writing
import Mihini.Lib.Run

/-!
# The cache and the store agree
-/

namespace Mihini.Config

open Mihini.Lib Mihini.Path LuaTable

variable {ν : Type} {canon : Str → Str} [DecidableEq ν]

/-! ## The states -/

structure Inv (canon : Str → Str) (s : State ν) : Prop where
  distinct : s.cache.Distinct
  keys : ∀ k v, s.store.lookup k = some v → ∃ p, p ≠ [] ∧ Names canon p ∧ k = concat p
  shape : Shape (flat canon s.store) s.cache.node

def Notified (canon : Str → Str) (F G : List Str → Option ν) (s s' : State ν) : Prop :=
  (F = G ∧ s'.notices = s.notices) ∨
    F ≠ G ∧ ∃ W, s'.notices = s.notices ++ [W] ∧
      ∀ k x, W.lookup k = some x ↔ ∃ p, Names canon p ∧ k = concat p ∧ F p ≠ G p ∧ x = G p

section

variable {s : State ν} {values : Values ν} {L : List (List Str × Option ν)}

/-- The first loop, for the values that a table has. -/
theorem marked_values (hs : Inv canon s)
    (hkeys : ∀ k x, values.lookup k = some x → ∃ p, Names canon p ∧ k = concat p)
    (hmem : ∀ p x, (p, x) ∈ L ↔ Names canon p ∧ values.lookup (concat p) = some x)
    (hL : Coherent L) :
    Marked canon (flat canon s.store) L
      ((sortedPairs values).foldl (mark canon) (s.cache, ∅)) := by
  obtain ⟨ps, hps, hnames, hpsmem, hpair⟩ := exists_paths hkeys
  have hsame : ∀ x, x ∈ ps ↔ x ∈ L := fun x => by rw [hpsmem x.1 x.2, hmem x.1 x.2]
  have hcoherent : Coherent ps :=
    ⟨fun x hx y hy => hL.apart x ((hsame x).mp hx) y ((hsame y).mp hy),
      fun x hx y hy => hL.single x ((hsame x).mp hx) y ((hsame y).mp hy)⟩
  have hmarked := marked_all (fun p hp => Names.of_flat hp) hs.distinct hs.shape hnames hpair
    hcoherent
  have hover : overlay ps (flat canon s.store) = overlay L (flat canon s.store) := by
    funext q
    rcases overlay_cases L (flat canon s.store) q with ⟨v, hv, hover⟩ | ⟨hnew, ⟨⟨x, hx, hq⟩, hover⟩ |
      ⟨hap, hover⟩⟩
    · rw [hover]
      exact overlay_written hcoherent ((hsame _).mpr hv)
    · rw [hover]
      exact overlay_dropped ((hsame x).mpr hx) hq fun v hv => hnew v ((hsame _).mp hv)
    · rw [hover]
      exact overlay_kept fun x hx => hap x ((hsame x).mp hx)
  rw [← hps]
  refine ⟨⟨hmarked.value, ?_⟩, hmarked.distinct, hmarked.keys, ?_⟩
  · intro p hp
    rcases hmarked.table p hp with hroot | htable | ⟨q, v, hq, hrest⟩
    · exact .inl hroot
    · exact .inr (.inl htable)
    · exact .inr (.inr ⟨q, v, (hsame _).mp hq, hrest⟩)
  · intro p hp
    rw [← hover]
    exact hmarked.towrite p hp


omit [DecidableEq ν] in
theorem exists_lookup {t : Values ν} (h : t.isEmpty = false) : ∃ k x, t.lookup k = some x := by
  cases hentries : t.entries with
  | nil =>
    rw [isEmpty, hentries] at h
    nomatch h
  | cons e rest =>
    exact ⟨e.1, e.2, mem_entries_iff.mp (by rw [hentries]; exact List.mem_cons_self)⟩

omit [DecidableEq ν] in
theorem Grown.shape {F : List Str → Option ν} {cache : LuaFields Str ν}
    (h : Grown F L cache) (hnew : ∀ q v, (q, some v) ∈ L → F q ≠ some v → q = []) :
    Shape F cache.node := by
  have hleaf : ∀ p, F p ≠ none → ∃ a, cache.node p = some (some a) := by
    intro p hp
    obtain ⟨a, ha⟩ := Option.ne_none_iff_exists'.mp hp
    exact ⟨a, (h.value p a).mpr ha⟩
  refine ⟨h.value, fun p => ⟨fun hp => ⟨?_, ?_⟩, fun hp => ?_⟩⟩
  · by_contra hne
    obtain ⟨a, ha⟩ := hleaf p hne
    rw [ha] at hp
    nomatch Option.some.inj hp
  · rcases h.table p hp with hroot | htable | ⟨q, v, hq, hne, hpq⟩
    · exact .inl hroot
    · exact .inr htable
    · rw [hnew q v hq hne] at hpq
      exact .inl (List.prefix_nil.mp hpq)
  · obtain ⟨hFp, rfl | ⟨q, hpq, hFq⟩⟩ := hp
    · rfl
    · obtain ⟨a, ha⟩ := hleaf q hFq
      exact LuaFields.node_of_leads (by rw [ha]; exact nofun) hpq fun heq => hFq (heq ▸ hFp)

theorem exists_writes {cache : LuaFields Str ν} {W : Values ν}
    (hnames : ∀ x ∈ L, Names canon x.1)
    (hmarked : Marked canon (flat canon s.store) L (cache, W)) :
    ∃ ws : List (List Str × Option ν), pathsOf ws = sortedPairs W ∧ (∀ x ∈ ws, Names canon x.1) ∧
      (∀ q x, (q, x) ∈ ws ↔ overlay L (flat canon s.store) q ≠ flat canon s.store q ∧
        x = overlay L (flat canon s.store) q) ∧
      (∀ q x, (q, x) ∈ ws ↔ Names canon q ∧ W.lookup (concat q) = some x) ∧
      ws.Pairwise fun x y => ¬ y.1 <+: x.1 := by
  have hchanged : ∀ p, overlay L (flat canon s.store) p ≠ flat canon s.store p → Names canon p := by
    intro p hp
    rcases overlay_cases L (flat canon s.store) p with ⟨v, hv, -⟩ | ⟨-, ⟨-, hover⟩ | ⟨-, hover⟩⟩
    · exact hnames _ hv
    · rw [hover] at hp
      exact Names.of_flat (Ne.symm hp)
    · exact absurd hover hp
  obtain ⟨ws, hws, hwsnames, hwsmem, hpair⟩ := exists_paths hmarked.keys
  refine ⟨ws, hws, hwsnames, ?_, hwsmem, hpair⟩
  intro q x
  rw [hwsmem]
  constructor
  · intro h
    rw [show W.lookup (concat q) = _ from hmarked.towrite q h.1] at h
    split at h
    · nomatch h.2
    · next hne => exact ⟨hne, (Option.some.inj h.2).symm⟩
  · intro h
    refine ⟨hchanged q h.1, ?_⟩
    rw [show W.lookup (concat q) = _ from hmarked.towrite q (hchanged q h.1), if_neg h.1, h.2]

omit [DecidableEq ν] in
theorem flat_putStores {F G : List Str → Option ν} {store : LuaTable Str ν} {W : Values ν}
    (hF : flat canon store = F) (hG : ∀ p, G p ≠ none → Names canon p)
    {ws : List (List Str × Option ν)} (hws : pathsOf ws = sortedPairs W)
    (hnames : ∀ x ∈ ws, Names canon x.1)
    (hmem : ∀ q x, (q, x) ∈ ws ↔ G q ≠ F q ∧ x = G q) :
    flat canon ((pathsOf ws).foldl putStore store) = G := by
  have hstore := lookup_putStores (t := store) (l := pathsOf ws)
    (by rw [hws]; exact (pairwise_sortedPairs W).imp fun h => h.2)
  funext p
  by_cases hp : Names canon p
  · rw [flat_of_names hp]
    by_cases hsame : G p = F p
    · rw [(hstore (concat p)).2, hsame, ← hF, flat_of_names hp]
      intro hk
      obtain ⟨y, hy, hyk⟩ := List.mem_map.mp hk
      obtain ⟨x, hx, rfl⟩ := List.mem_map.mp hy
      have hxp : x.1 = p := concat_inj (hnames x hx) hp hyk
      exact ((hmem x.1 x.2).mp hx).1 (hxp ▸ hsame)
    · exact (hstore (concat p)).1 _
        (List.mem_map.mpr ⟨(p, _), (hmem p _).mpr ⟨hsame, rfl⟩, rfl⟩)
  · by_cases hGp : G p = none
    · rw [hGp]
      exact if_neg hp
    · exact absurd (hG p hGp) hp

/-- A call of `internalset` that comes to its end. -/
theorem internalset_spec (hs : Inv canon s)
    (hkeys : ∀ k x, values.lookup k = some x → ∃ p, Names canon p ∧ k = concat p)
    (hmem : ∀ p x, (p, x) ∈ L ↔ Names canon p ∧ values.lookup (concat p) = some x)
    (hL : Coherent L) (hroot : ∀ v, ([], some v) ∉ L)
    (htidy : Tidy (flat canon s.store) (overlay L (flat canon s.store))) :
    ∃ s', internalset canon s values = (s', .ok ()) ∧ Inv canon s' ∧
      flat canon s'.store = overlay L (flat canon s.store) ∧
      Notified canon (flat canon s.store) (flat canon s'.store) s s' := by
  have hnames : ∀ x ∈ L, Names canon x.1 := fun x hx => ((hmem x.1 x.2).mp hx).1
  have hmarked := marked_values hs hkeys hmem hL
  unfold internalset
  generalize (sortedPairs values).foldl (mark canon) (s.cache, ∅) = marked at hmarked ⊢
  obtain ⟨cache, W⟩ := marked
  obtain ⟨ws, hws, hwsnames, hwsmem, hwsW, hpair⟩ := exists_writes hnames hmarked
  cases hempty : isEmpty W with
  | true =>
    have hsame : overlay L (flat canon s.store) = flat canon s.store := by
      funext p
      by_contra hne
      have hp := ((hwsW p _).mp ((hwsmem p _).mpr ⟨hne, rfl⟩)).2
      rw [lookup_of_isEmpty hempty] at hp
      nomatch hp
    refine ⟨{ s with cache := cache }, by simp [hempty],
      ⟨hmarked.distinct, hs.keys, hmarked.toGrown.shape ?_⟩, hsame.symm, .inl ⟨rfl, rfl⟩⟩
    intro q v hq hne
    rw [← hsame] at hne
    exact absurd (overlay_written hL hq) hne
  | false =>
    have hG : ∀ p, overlay L (flat canon s.store) p ≠ none → Names canon p := by
      intro p hp
      rcases overlay_cases L (flat canon s.store) p with ⟨v, hv, -⟩ | ⟨-, ⟨-, hover⟩ | ⟨-, hover⟩⟩
      · exact hnames _ hv
      · exact absurd hover hp
      · rw [hover] at hp
        exact Names.of_flat hp
    have hne : ∀ x ∈ ws, x.1 ≠ [] := by
      intro x hx heq
      obtain ⟨hchange, -⟩ := (hwsmem x.1 x.2).mp hx
      rw [heq, hs.shape.root] at hchange
      rcases overlay_cases L (flat canon s.store) [] with ⟨v, hv, -⟩ | ⟨-, ⟨-, hover⟩ | ⟨-, hover⟩⟩
      · exact hroot v hv
      · exact hchange hover
      · exact hchange (hover.trans hs.shape.root)
    have hshape := shape_puts hs.shape.prefixFree hmarked.toGrown hL hroot htidy hwsmem hpair
    have hflat := flat_putStores rfl hG hws hwsnames hwsmem
    refine ⟨⟨ws.foldl put cache, (pathsOf ws).foldl putStore s.store, s.notices ++ [W]⟩, ?_,
      ⟨distinct_puts hmarked.distinct, ?_, ?_⟩, hflat, .inr ⟨?_, W, rfl, ?_⟩⟩
    · simp only [hempty, ← hws, write_eq hwsnames hne, Bool.false_eq_true, if_false]
    · intro k v hk
      have hstore := lookup_putStores (t := s.store) (l := pathsOf ws)
        (by rw [hws]; exact (pairwise_sortedPairs W).imp fun h => h.2)
      by_cases hmemk : k ∈ (pathsOf ws).map Prod.fst
      · obtain ⟨y, hy, hyk⟩ := List.mem_map.mp hmemk
        obtain ⟨x, hx, rfl⟩ := List.mem_map.mp hy
        exact ⟨x.1, hne x hx, hwsnames x hx, hyk.symm⟩
      · exact hs.keys k v (by rw [← (hstore k).2 hmemk]; exact hk)
    · show Shape (flat canon ((pathsOf ws).foldl putStore s.store)) (ws.foldl put cache).node
      rw [hflat]
      exact hshape
    · intro hsame
      obtain ⟨k, x, hk⟩ := exists_lookup hempty
      obtain ⟨p, hp, rfl⟩ := hmarked.keys k x hk
      obtain ⟨hchange, -⟩ := (hwsmem p x).mp ((hwsW p x).mpr ⟨hp, hk⟩)
      rw [← hflat] at hchange
      exact hchange (congrFun hsame p).symm
    · intro k x
      show W.lookup k = some x ↔ ∃ p, Names canon p ∧ k = concat p ∧
        flat canon s.store p ≠ flat canon ((pathsOf ws).foldl putStore s.store) p ∧
        x = flat canon ((pathsOf ws).foldl putStore s.store) p
      rw [hflat]
      constructor
      · intro hk
        obtain ⟨p, hp, rfl⟩ := hmarked.keys k x hk
        obtain ⟨hchange, hx⟩ := (hwsmem p x).mp ((hwsW p x).mpr ⟨hp, hk⟩)
        exact ⟨p, hp, rfl, Ne.symm hchange, hx⟩
      · intro h
        obtain ⟨p, -, rfl, hchange, hx⟩ := h
        exact ((hwsW p x).mp ((hwsmem p x).mpr ⟨Ne.symm hchange, hx⟩)).2

/-- A value for the root is refused, and nothing changes. -/
theorem internalset_root (hs : Inv canon s)
    (hkeys : ∀ k x, values.lookup k = some x → ∃ p, Names canon p ∧ k = concat p)
    (hmem : ∀ p x, (p, x) ∈ L ↔ Names canon p ∧ values.lookup (concat p) = some x)
    (hL : Coherent L) {v : ν} (hroot : ([], some v) ∈ L) :
    ∃ s', internalset canon s values = (s', .error "cannot set root element of config") ∧
      Inv canon s' ∧ s'.store = s.store ∧ s'.notices = s.notices := by
  have hmarked := marked_values hs hkeys hmem hL
  unfold internalset
  generalize (sortedPairs values).foldl (mark canon) (s.cache, ∅) = marked at hmarked ⊢
  obtain ⟨cache, W⟩ := marked
  have hlookup : W.lookup [] = some (some v) := by
    have h := hmarked.towrite [] fun s hs => absurd hs List.not_mem_nil
    rw [overlay_written hL hroot, if_neg (by rw [hs.shape.root]; exact nofun)] at h
    exact h
  have hempty : isEmpty W = false := by
    cases h : isEmpty W with
    | false => rfl
    | true =>
      rw [lookup_of_isEmpty h] at hlookup
      nomatch hlookup
  have hfirst : ∃ rest, sortedPairs W = ([], some v) :: rest := by
    have hin := mem_sortedPairs.mpr hlookup
    have hpair := pairwise_sortedPairs W
    cases hsorted : sortedPairs W with
    | nil =>
      rw [hsorted] at hin
      exact absurd hin List.not_mem_nil
    | cons x rest =>
      rw [hsorted] at hin hpair
      rcases List.mem_cons.mp hin with heq | hin
      · exact ⟨rest, by rw [heq]⟩
      · obtain ⟨hle, hne⟩ := (List.pairwise_cons.mp hpair).1 _ hin
        exact absurd (List.le_nil.mp (not_lt.mpr hle)) hne
  obtain ⟨rest, hrest⟩ := hfirst
  refine ⟨{ s with cache := cache }, ?_, ⟨hmarked.distinct, hs.keys, hmarked.toGrown.shape ?_⟩, rfl, rfl⟩
  · simp only [hempty, hrest, write, Bool.false_eq_true, if_false]
  · intro q w hq _
    exact (hL.apart _ hroot _ hq nofun nofun List.nil_prefix).symm

end

/-! ## Calls of `set` -/

def Proper (canon : Str → Str) (k : Str) : Prop :=
  Names canon (segments canon k) ∧ concat (segments canon k) = k

instance (canon : Str → Str) (k : Str) : Decidable (Proper canon k) :=
  inferInstanceAs (Decidable (_ ∧ _))

def written (canon : Str → Str) (path : Str) (value : LuaTree Str (Option ν)) (clear : Bool) :
    List (List Str × Option ν) :=
  (valuesOf (clean canon path) value clear).map fun x => (segments canon x.1, x.2)

def valueAt (s : State ν) (p : List Str) : Option ν := (s.cache.node p).join

/-- The condition on a call of `set`, when these are the values in the cache: the paths of the
values are as they are read, no new value leads through another, no table is left empty, and some
value is left. -/
structure Accepts (canon : Str → Str) (F : List Str → Option ν) (path : Str)
    (value : LuaTree Str (Option ν)) (clear : Bool) : Prop where
  proper : ∀ x ∈ valuesOf (clean canon path) value clear, Proper canon x.1
  coherent : Coherent (written canon path value clear)
  tidy : (∀ v, ([], some v) ∉ written canon path value clear) →
    Tidy F (overlay (written canon path value clear) F)
  left : (∀ v, ([], some v) ∉ written canon path value clear) →
    ∃ p, overlay (written canon path value clear) F p ≠ none

/-- What a call of `set` does that succeeds. -/
structure Done (canon : Str → Str) (s s' : State ν) (path : Str)
    (value : LuaTree Str (Option ν)) (clear : Bool) : Prop where
  set : ∀ k v, (k, some v) ∈ valuesOf (clean canon path) value clear →
    get canon s' k = some (.leaf v)
  gone : ∀ x ∈ written canon path value clear, ∀ q, q ≠ [] → x.1 <+: q →
    (x.2 ≠ none → x.1 ≠ q) →
    (∀ y ∈ written canon path value clear, y.2 ≠ none → ¬ q <+: y.1) → s'.cache.node q = none
  kept : ∀ q, (∀ x ∈ written canon path value clear,
    ¬ x.1 <+: q ∧ (x.2 ≠ none → ¬ q <+: x.1)) → valueAt s' q = valueAt s q
  notified : Notified canon (valueAt s) (valueAt s') s s'

/-- What a call of `set` does: a value for the root is refused and changes nothing. -/
inductive Effect (canon : Str → Str) (s : State ν) (path : Str) (value : LuaTree Str (Option ν))
    (clear : Bool) : State ν × Except String Unit → Prop where
  | refused {s' : State ν} {v : ν} {msg : String}
      (root : ([], some v) ∈ written canon path value clear)
      (cache : ∀ p, s'.cache.node p = s.cache.node p) (store : s'.store = s.store)
      (notices : s'.notices = s.notices) : Effect canon s path value clear (s', .error msg)
  | done {s' : State ν} (root : ∀ v, ([], some v) ∉ written canon path value clear)
      (done : Done canon s s' path value clear) : Effect canon s path value clear (s', .ok ())

section

variable {s : State ν} {path : Str} {value : LuaTree Str (Option ν)} {clear : Bool}

omit [DecidableEq ν] in
theorem Inv.valueAt_eq (h : Inv canon s) : valueAt s = flat canon s.store := by
  funext p
  rw [valueAt]
  cases hp : s.cache.node p with
  | none =>
    cases hF : flat canon s.store p with
    | none => rfl
    | some v =>
      rw [(h.shape.value p v).mpr hF] at hp
      nomatch hp
  | some kind =>
    cases kind with
    | none => exact ((h.shape.table p).mp hp).1.symm
    | some v => exact ((h.shape.value p v).mp hp).symm

omit [DecidableEq ν] in
theorem mem_written {x : Str × Option ν} (hx : x ∈ valuesOf (clean canon path) value clear) :
    (segments canon x.1, x.2) ∈ written canon path value clear :=
  List.mem_map.mpr ⟨x, hx, rfl⟩

omit [DecidableEq ν] in
/-- The table of the values, when there is one value for each path. -/
theorem lookup_values {F : List Str → Option ν} (h : Accepts canon F path value clear)
    (p : List Str) (x : Option ν) :
    (p, x) ∈ written canon path value clear ↔ Names canon p ∧
      (assign ∅ (valuesOf (clean canon path) value clear)).lookup (concat p) =
        some x := by
  constructor
  · intro hx
    obtain ⟨y, hy, heq⟩ := List.mem_map.mp hx
    obtain ⟨hp, hyx⟩ := Prod.mk.inj heq
    obtain ⟨hnames, hconcat⟩ := h.proper y hy
    rw [← hp, hconcat, ← hyx]
    refine ⟨hnames, lookup_assign hy fun b hb => ?_⟩
    exact h.coherent.single _ (mem_written hb) _ (mem_written hy) rfl
  · intro hx
    rcases mem_of_lookup_assign hx.2 with hmem | hnone
    · have := mem_written hmem
      rwa [segments_concat hx.1] at this
    · nomatch hnone

omit [DecidableEq ν] in
theorem keys_values {F : List Str → Option ν} (h : Accepts canon F path value clear) (k : Str)
    (x : Option ν)
    (hk : (assign ∅ (valuesOf (clean canon path) value clear)).lookup k = some x) :
    ∃ p, Names canon p ∧ k = concat p := by
  rcases mem_of_lookup_assign hk with hmem | hnone
  · obtain ⟨hnames, hconcat⟩ := h.proper _ hmem
    exact ⟨_, hnames, hconcat.symm⟩
  · nomatch hnone

omit [DecidableEq ν] in
theorem done_of_over {s' : State ν} (hs : Inv canon s) (hs' : Inv canon s')
    (h : Accepts canon (valueAt s) path value clear)
    (hover : flat canon s'.store = overlay (written canon path value clear) (flat canon s.store))
    (hnotified : Notified canon (flat canon s.store) (flat canon s'.store) s s') :
    Done canon s s' path value clear := by
  refine ⟨?_, ?_, ?_, ?_⟩
  · intro k v hk
    have hvalue : flat canon s'.store (segments canon k) = some v := by
      rw [hover]
      exact overlay_written h.coherent (mem_written hk)
    have hnode := (hs'.shape.value _ v).mpr hvalue
    rw [LuaFields.node] at hnode
    obtain ⟨t, ht, hkind⟩ := Option.map_eq_some_iff.mp hnode
    rw [get, ht]
    cases t with
    | leaf a => rw [Option.some.inj hkind]
    | table fields => cases hkind
  · intro x hx q hq hxq hne hnew
    have hnone : flat canon s'.store q = none := by
      rw [hover]
      exact overlay_dropped hx (.inl hxq) fun v hv =>
        hnew _ hv (by rintro ⟨⟩) (List.prefix_refl q)
    cases hkind : s'.cache.node q with
    | none => rfl
    | some kind =>
      cases kind with
      | some v =>
        rw [(hs'.shape.value q v).mp hkind] at hnone
        cases hnone
      | none =>
        rcases ((hs'.shape.table q).mp hkind).2 with hroot | ⟨r, hqr, hr⟩
        · exact absurd hroot hq
        · rw [hover] at hr
          rcases overlay_cases (written canon path value clear) (flat canon s.store) r with
            ⟨v, hv, -⟩ | ⟨-, ⟨-, hover⟩ | ⟨hap, -⟩⟩
          · exact absurd hqr (hnew _ hv (by rintro ⟨⟩))
          · exact absurd hover hr
          · exact absurd (hxq.trans hqr) (hap x hx).1
  · intro q hq
    rw [hs.valueAt_eq, hs'.valueAt_eq, hover]
    exact overlay_kept hq
  · rw [hs.valueAt_eq, hs'.valueAt_eq]
    exact hnotified

structure Full (canon : Str → Str) (s : State ν) : Prop extends Inv canon s where
  left : ∃ p, flat canon s.store p ≠ none

theorem set_spec (hs : Inv canon s) (h : Accepts canon (valueAt s) path value clear) :
    Effect canon s path value clear (set canon s path value clear) ∧
      Inv canon (set canon s path value clear).1 ∧
      ((∃ v, ([], some v) ∈ written canon path value clear) ∧
          (set canon s path value clear).1.store = s.store ∨
        ∃ p, flat canon (set canon s path value clear).1.store p ≠ none) := by
  unfold Config.set
  by_cases hroot : ∃ v, ([], some v) ∈ written canon path value clear
  · obtain ⟨v, hv⟩ := hroot
    obtain ⟨s', hset, hs', hstore, hnotices⟩ :=
      internalset_root hs (keys_values h) (lookup_values h) h.coherent hv
    rw [hset]
    refine ⟨.refused hv (fun p => ?_) hstore hnotices, hs', .inl ⟨⟨v, hv⟩, hstore⟩⟩
    have hshape := hs'.shape
    rw [hstore] at hshape
    exact hshape.unique hs.shape p
  · have hnoroot : ∀ v, ([], some v) ∉ written canon path value clear := fun v hv => hroot ⟨v, hv⟩
    have htidy := h.tidy hnoroot
    have hleft := h.left hnoroot
    rw [hs.valueAt_eq] at htidy hleft
    obtain ⟨s', hset, hs', hover, hnotified⟩ :=
      internalset_spec hs (keys_values h) (lookup_values h) h.coherent hnoroot htidy
    rw [hset]
    refine ⟨.done hnoroot (done_of_over hs hs' h hover hnotified), hs', .inr ?_⟩
    show ∃ p, flat canon s'.store p ≠ none
    rw [hover]
    exact hleft

theorem Full.set (hs : Full canon s) (h : Accepts canon (valueAt s) path value clear) :
    Full canon (Config.set canon s path value clear).1 := by
  obtain ⟨-, hinv, ⟨-, hstore⟩ | hleft⟩ := set_spec hs.toInv h
  · exact ⟨hinv, by rw [hstore]; exact hs.left⟩
  · exact ⟨hinv, hleft⟩

end

/-! ## Loading -/

structure Stored (canon : Str → Str) (store : LuaTable Str ν) : Prop where
  keys : ∀ k v, store.lookup k = some v → ∃ p, p ≠ [] ∧ Names canon p ∧ k = concat p
  apart : PrefixFree (flat canon store)

omit [DecidableEq ν] in
theorem build_spec {store : LuaTable Str ν} (h : Stored canon store) :
    (build canon store).Distinct ∧ Shape (flat canon store) (build canon store).node := by
  let ws : List (List Str × Option ν) :=
    store.entries.map fun e => (segments canon e.1, some e.2)
  have hkey : ∀ e ∈ store.entries, ∃ p, p ≠ [] ∧ Names canon p ∧ e.1 = concat p := fun e he =>
    h.keys e.1 e.2 (mem_entries_iff.mp he)
  have hmem : ∀ q x, (q, x) ∈ ws ↔ ∃ v, x = some v ∧ flat canon store q = some v := by
    intro q x
    rw [List.mem_map]
    constructor
    · intro hx
      obtain ⟨e, he, heq⟩ := hx
      obtain ⟨hq, hx⟩ := Prod.mk.inj heq
      obtain ⟨p, -, hp, hk⟩ := hkey e he
      refine ⟨e.2, hx.symm, ?_⟩
      rw [← hq, hk, segments_concat hp, flat_of_names hp, ← hk]
      exact mem_entries_iff.mp he
    · intro hx
      obtain ⟨v, rfl, hv⟩ := hx
      have hq : Names canon q := Names.of_flat (by rw [hv]; exact nofun)
      rw [flat_of_names hq] at hv
      exact ⟨⟨concat q, v⟩, mem_entries_iff.mpr hv, by rw [segments_concat hq]⟩
  have hne : ∀ x ∈ ws, x.1 ≠ [] := by
    intro x hx
    obtain ⟨e, he, rfl⟩ := List.mem_map.mp hx
    obtain ⟨p, hpne, hp, hk⟩ := hkey e he
    show segments canon e.1 ≠ []
    rw [hk, segments_concat hp]
    exact hpne
  have hvalue : ∀ x ∈ ws, flat canon store x.1 = x.2 ∧ x.2 ≠ none := by
    intro x hx
    obtain ⟨v, hv, hflat⟩ := (hmem x.1 x.2).mp hx
    rw [hv]
    exact ⟨hflat, nofun⟩
  have hL : Coherent ws := by
    constructor
    · intro x hx y hy hxv hyv hxy
      refine h.apart _ _ ?_ ?_ hxy
      · rw [(hvalue x hx).1]
        exact hxv
      · rw [(hvalue y hy).1]
        exact hyv
    · intro x hx y hy hxy
      rw [← (hvalue x hx).1, ← (hvalue y hy).1, hxy]
  have hpair : ws.Pairwise fun x y => ¬ y.1 <+: x.1 := by
    have hkeys : store.entries.Pairwise fun e e' => e.1 ≠ e'.1 := List.pairwise_map.mp store.nodupKeys
    rw [List.pairwise_map]
    refine hkeys.imp_of_mem ?_
    intro e e' he he' hee' hleads
    obtain ⟨p, -, hp, hk⟩ := hkey e he
    obtain ⟨p', -, hp', hk'⟩ := hkey e' he'
    have hx := hvalue _ (List.mem_map.mpr ⟨e, he, rfl⟩)
    have hx' := hvalue _ (List.mem_map.mpr ⟨e', he', rfl⟩)
    have heq : segments canon e'.1 = segments canon e.1 :=
      h.apart _ _ (by rw [hx'.1]; exact nofun) (by rw [hx.1]; exact nofun) hleads
    rw [hk, hk', segments_concat hp, segments_concat hp'] at heq
    exact hee' (by rw [hk, hk', heq])
  have hover : overlay ws (fun _ => none) = flat canon store := by
    funext q
    rcases overlay_cases ws (fun _ => none) q with ⟨v, hv, hover⟩ | ⟨hnew, hrest⟩
    · rw [hover]
      exact (hvalue _ hv).1.symm
    · have hnone : flat canon store q = none := by
        by_contra hne
        obtain ⟨v, hv⟩ := Option.ne_none_iff_exists'.mp hne
        exact hnew v ((hmem q _).mpr ⟨v, rfl, hv⟩)
      rcases hrest with ⟨-, hover⟩ | ⟨-, hover⟩ <;> rw [hover, hnone]
  have hgrown : Grown (fun _ => none) ws (.nil : LuaFields Str ν) := by
    constructor
    · intro p v
      cases p <;> exact ⟨nofun, nofun⟩
    · intro p hp
      cases p with
      | nil => exact .inl rfl
      | cons k ks => nomatch hp
  have hbuild : build canon store = ws.foldl put .nil := by
    rw [build, List.foldl_map]
    rfl
  rw [hbuild, ← hover]
  refine ⟨distinct_puts trivial, shape_puts (fun p q hp => absurd rfl hp) hgrown hL
    (fun v hv => hne _ hv rfl) (fun r hr => absurd rfl hr) (fun q x => ?_) hpair⟩
  rw [hover, hmem]
  constructor
  · intro hx
    obtain ⟨v, rfl, hv⟩ := hx
    rw [hv]
    exact ⟨nofun, rfl⟩
  · intro hx
    obtain ⟨v, hv⟩ := Option.ne_none_iff_exists'.mp hx.1
    exact ⟨v, by rw [hx.2, hv], hv⟩

/-! ## Runs -/

section

variable {defaultconfig : LuaFields Str (Option ν)}

def Sound (canon : Str → Str) (defaultconfig : LuaFields Str (Option ν)) (s : State ν)
    (e : Event ν) : Prop :=
  match e.call canon defaultconfig with
  | some (path, value, clear) => Accepts canon (valueAt s) path value clear
  | none => True

theorem loadcache_of_left {store : LuaTable Str ν} (h : Stored canon store)
    (hleft : ∃ p, flat canon store p ≠ none) :
    loadcache canon defaultconfig store = ⟨build canon store, store, []⟩ := by
  have hempty : (build canon store).isEmpty = false := by
    obtain ⟨p, hp⟩ := hleft
    obtain ⟨v, hv⟩ := Option.ne_none_iff_exists'.mp hp
    have hnode := ((build_spec h).2.value p v).mpr hv
    cases hbuild : build canon store with
    | cons k t rest => rfl
    | nil =>
      rw [hbuild] at hnode
      cases p <;> nomatch hnode
  simp only [loadcache, hempty, Bool.false_eq_true, if_false]

theorem Full.step {s : State ν} (h : Full canon s) {e : Event ν}
    (he : Sound canon defaultconfig s e) : Full canon (step canon defaultconfig s e) := by
  cases e with
  | set path value clear => exact h.set he
  | default path => exact h.set he
  | reload =>
    have hstored : Stored canon s.store := ⟨h.keys, h.shape.prefixFree⟩
    obtain ⟨hdistinct, hshape⟩ := build_spec hstored
    show Full canon { loadcache canon defaultconfig s.store with notices := s.notices }
    rw [loadcache_of_left hstored h.left]
    exact ⟨⟨hdistinct, h.keys, hshape⟩, h.left⟩

end

end Mihini.Config
