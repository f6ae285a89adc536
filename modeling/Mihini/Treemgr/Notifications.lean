import Mathlib.Data.List.Dedup
import Mihini.Lib.Run
import Mihini.Treemgr.Agreement
import Mihini.Treemgr.Hooks

/-!
# Notifications

Which hooks a change of the store reaches, and with which values.
-/

namespace Mihini.Treemgr

open Mihini.Lib Mihini.Path AList State LuaTable Option

section

variable (canon : Str → Str) (db : List Mount) (ram : Str) {α : Type}

/-! ## What a hook needs -/

def MountedBelow (lpath : Str) : Prop :=
  ∃ m ∈ db, m.Live canon ∧ (∃ hpath, l2h db m.lpath = some (ram, hpath)) ∧ m.lpath ≠ lpath ∧
    segments canon lpath <+: m.node canon

def Needs (lpath hpath : Str) : Prop :=
  translation canon db lpath = some (ram, hpath) ∨ hpath = [] ∧ MountedBelow canon db ram lpath

def Watches (hook : Hook) (lpath : Str) : Prop :=
  ∃ x ∈ gsplit canon lpath, x.1 ∈ hook.monitored

def Changed (s : State α) (hmap : LuaTable Str (Value α)) (lpath : Str) (v : Value α) : Prop :=
  clean canon lpath = lpath ∧ ∃ hpath, translation canon db lpath = some (ram, hpath) ∧
    hmap.lookup hpath = some v ∧ s.store.values.lookup hpath ≠ some v

def Reads (store : RamStore α) (other : Str → Str → Reply α) (lpath : Str) (v : Value α) : Prop :=
  ∃ name hpath, translation canon db lpath = some (name, hpath) ∧
    if name = ram then store.values.lookup hpath = some v else other name hpath = .value v

/-- Every hook that watches a variable that changes is called, once, and no other; its argument has
the variables it watches and those associated with it, as they are then. -/
structure Exact (s s' : State α) (hmap : LuaTable Str (Value α)) (other : Str → Str → Reply α) :
    Prop where
  nodup : (s'.calls.map Call.hook).Nodup
  called : ∀ hook, hook ∈ s'.calls.map Call.hook ↔
    hook ∈ s.active ∧ ∃ lpath v, Changed canon db ram s hmap lpath v ∧ Watches canon hook lpath
  changed : ∀ c ∈ s'.calls, ∀ lpath v, Changed canon db ram s hmap lpath v →
    Watches canon c.hook lpath → c.lmap.lookup lpath = some v
  associated : ∀ c ∈ s'.calls, ∀ lpath ∈ c.hook.associated, ∀ v,
    Reads canon db ram s'.store other lpath v → c.lmap.lookup lpath = some v
  entries : ∀ c ∈ s'.calls, ∀ lpath v, c.lmap.lookup lpath = some v →
    Reads canon db ram s'.store other lpath v ∧
      (lpath ∈ c.hook.associated ∨ Changed canon db ram s hmap lpath v ∧
        relevant canon c.hook lpath)

/-! ## The condition -/

/-- A variable of the map changes whose path is registered, or one above it. -/
def Notifies (s : State α) (hmap : LuaTable Str (Value α)) : Prop :=
  ∃ hpath v, hmap.lookup hpath = some v ∧ s.store.values.lookup hpath ≠ some v ∧
    ∃ x ∈ gsplit canon hpath, x.1 ∈ s.store.registered

def Readable (s : State α) (hmap : LuaTable Str (Value α)) (other : Str → Str → Reply α)
    (lpath : Str) : Prop :=
  match translation canon db lpath with
  | some (name, hpath) =>
    if name = ram then s.store.values.lookup hpath ≠ some .no ∨ hpath ∈ hmap
    else ∀ msg, other name hpath ≠ .error msg
  | none => l2c canon db lpath ≠ []

structure Notifiable (s : State α) (hmap : LuaTable Str (Value α))
    (other : Str → Str → Reply α) : Prop where
  faithful : ∀ hpath ∈ hmap, ∀ lpath, lpath ∈ hpath2lpath canon db ram hpath ↔
    clean canon lpath = lpath ∧ translation canon db lpath = some (ram, hpath)
  unchanged : ∀ hpath v, hmap.lookup hpath = some v → s.store.values.lookup hpath = some v →
    ∀ hook ∈ s.active, ∀ lpath ∈ hpath2lpath canon db ram hpath, ¬relevant canon hook lpath
  needless : (∃ hook ∈ s.active, ∃ lpath ∈ hook.monitored, ∃ hpath ∈ hmap,
      Needs canon db ram lpath hpath) →
    ∃ hook ∈ s.active, ∃ hpath ∈ hmap, ∃ lpath ∈ hpath2lpath canon db ram hpath,
      Watches canon hook lpath
  readable : ∀ hook ∈ s.active, (∃ hpath ∈ hmap, ∃ lpath ∈ hpath2lpath canon db ram hpath,
      Watches canon hook lpath) →
    ∀ lpath ∈ hook.associated, Readable canon db ram s hmap other lpath

/-- The map for the store; `set` fails when a path has no mapping. -/
def storeMap (lmap : List (Str × Value α)) : LuaTable Str (Value α) :=
  (handlerMap canon db ram lmap ∅).getD ∅

/-- The paths of a hook are read as they are written, and `l2m` has the store when it is mounted
below one.  A hook that is unregistered leaves to the others what they need.  The paths of a map
for the store are in normal form, and so on if there is a notification. -/
def Sound (s : State α) : Event α → Prop
  | .register monitored associated =>
    (∀ lpath ∈ monitored ++ associated, IsPath canon lpath) ∧
    ∀ lpath ∈ monitored, MountedBelow canon db ram (clean canon lpath) →
      ram ∈ l2m canon db (clean canon lpath)
  | .unregister hook =>
    ∀ lpath ∈ hook.monitored, ∀ hpath, translation canon db lpath = some (ram, hpath) →
      (∃ hook' ∈ s.active, hook' ≠ hook ∧ ∃ lpath' ∈ hook'.monitored,
        Needs canon db ram lpath' hpath) →
      ∃ hook' ∈ s.active, hook' ≠ hook ∧ ∃ lpath' ∈ hook'.monitored,
        lpath' ∈ hpath2lpath canon db ram hpath
  | .set lmap other =>
    (∀ hpath ∈ storeMap canon db ram lmap, clean canon hpath = hpath) ∧
    (Notifies canon s (storeMap canon db ram lmap) →
      Notifiable canon db ram s (storeMap canon db ram lmap) other)

end

/-! ## Translations -/

section

variable {canon : Str → Str} {db : List Mount} {ram : Str}

theorem of_findSome?_downto {α β : Type} {g : Nat → α} {f : α → Option β} {b : β} {n : Nat}
    (h : ((List.range (n + 1)).reverse.map g).findSome? f = some b) :
    ∃ k ≤ n, f (g k) = some b ∧ ∀ j, k < j → j ≤ n → f (g j) = none := by
  induction n with
  | zero => exact ⟨0, Nat.le_refl 0, by simpa using h, fun j hj hle => by omega⟩
  | succ n ih =>
    rw [List.range_succ, List.reverse_append, List.reverse_singleton, List.singleton_append,
      List.map_cons, List.findSome?_cons] at h
    split at h
    · next b' hb =>
      exact ⟨n + 1, Nat.le_refl _, hb.trans h, fun j hj hle => by omega⟩
    · next hnone =>
      obtain ⟨k, hk, hhit, hmiss⟩ := ih h
      refine ⟨k, Nat.le_succ_of_le hk, hhit, ?_⟩
      intro j hj hle
      by_cases heq : j = n + 1
      · rw [heq]
        exact hnone
      · exact hmiss j hj (by omega)

/-- The mount point through which a logical path is translated, and none is deeper. -/
theorem deepest_of_translation {lpath name hpath : Str}
    (h : translation canon db lpath = some (name, hpath)) :
    ∃ a b hpfx, segments canon lpath = a ++ b ∧ l2h db (concat a) = some (name, hpfx) ∧
      hpath = concat [hpfx, concat b] ∧
      ∀ a' b', segments canon lpath = a' ++ b' → a.length < a'.length →
        l2h db (concat a') = none := by
  obtain ⟨r, hr, heq⟩ := map_eq_some_iff.mp h
  obtain ⟨k, hk, hhit, hmiss⟩ := of_findSome?_downto hr
  obtain ⟨y, hy, rfl⟩ := map_eq_some_iff.mp hhit
  obtain ⟨rfl, rfl⟩ := Prod.mk.inj heq
  refine ⟨_, _, y.2, (List.take_append_drop k _).symm, hy, rfl, ?_⟩
  intro a' b' hsplit hlen
  have hle : a'.length ≤ (segments canon lpath).length := by
    rw [hsplit, List.length_append]
    omega
  rw [List.length_take] at hlen
  have hnone := hmiss a'.length (by omega) hle
  rw [hsplit, List.take_left] at hnone
  exact map_eq_none_iff.mp hnone

theorem translation_of_deepest {lpath name hpfx : Str} {a b : List Str}
    (hsplit : segments canon lpath = a ++ b) (hhit : l2h db (concat a) = some (name, hpfx))
    (hmiss : ∀ a' b', segments canon lpath = a' ++ b' → a.length < a'.length →
      l2h db (concat a') = none) :
    translation canon db lpath = some (name, concat [hpfx, concat b]) := by
  rw [translation, lpath2hpath_hit hsplit hhit hmiss]
  rfl

/-- In a path in normal form a handler's prefix is cut off at the end of a segment. -/
theorem mem_gsplit_of_clean (hcanon : Numerals canon) {hpath hpfx : Str} {c b : List Str}
    (hclean : clean canon hpath = hpath) (hseg : ∀ s ∈ c ++ b, Segment canon s)
    (heq : hpath = concat [hpfx, concat (c ++ b)]) :
    ∃ x ∈ gsplit canon hpath, x.1 = concat [hpfx, concat c] := by
  have hpath' := isPath_of_clean hcanon hclean
  by_cases hnil : hpfx = []
  · rw [hnil, concat_cons_nil, concat_singleton] at heq
    refine ⟨(concat c, concat b), mem_gsplit.mpr ⟨c, b, ?_, rfl⟩, ?_⟩
    · rw [heq, segments_concat hseg]
    · rw [hnil, concat_cons_nil, concat_singleton]
  by_cases hrest : c ++ b = []
  · have hc : c = [] := (List.append_eq_nil_iff.mp hrest).1
    rw [hrest, concat_nil, concat_right_nil] at heq
    refine ⟨(hpath, []), mem_gsplit.mpr ⟨segments canon hpath, [], by simp, ?_⟩, ?_⟩
    · rw [show concat (segments canon hpath) = hpath from hclean, concat_nil]
    · rw [hc, concat_nil, concat_right_nil, heq]
  · have hne : concat (c ++ b) ≠ [] := by
      intro hempty
      obtain ⟨s, hs⟩ := List.exists_mem_of_ne_nil _ hrest
      exact (hseg s hs).nonempty (concat_eq_nil.mp hempty s hs)
    have hcut : hpath = hpfx ++ '.' :: concat (c ++ b) := by rw [heq, concat_pair hnil hne]
    have hparts : hpath.splitOn '.' = segments canon hpath := by
      have hsegs : segments canon hpath ≠ [] := by
        intro hempty
        rw [clean, hempty, concat_nil] at hclean
        rw [← hclean] at hcut
        exact absurd hcut.symm (by simp)
      conv_lhs => rw [← hclean, clean, concat, filter_segments hpath']
      exact List.splitOn_intercalate '.' (fun s hs => (hpath' s hs).dotless) hsegs
    have htail : (concat (c ++ b)).splitOn '.' = c ++ b := by
      rw [concat, filter_segments hseg]
      exact List.splitOn_intercalate '.' (fun s hs => (hseg s hs).dotless) hrest
    have hsplit : segments canon hpath = (hpfx.splitOn '.' ++ c) ++ b := by
      rw [← hparts, hcut, List.splitOn_append_cons_self, htail, List.append_assoc]
    have hhead : concat (hpfx.splitOn '.') = hpfx := by
      have hall : ∀ s ∈ hpfx.splitOn '.', Segment canon s := by
        intro s hs
        apply hpath'
        rw [hsplit]
        exact List.mem_append_left _ (List.mem_append_left _ hs)
      rw [concat, filter_segments hall, List.intercalate_splitOn]
    exact ⟨_, mem_gsplit.mpr ⟨_, _, hsplit, rfl⟩, by rw [concat_append, hhead]⟩

/-- A hook that watches a variable of the store needs its path or one above it. -/
theorem needs_of_watches (hcanon : Numerals canon) {hook : Hook} {lpath hpath : Str}
    (hlpath : clean canon lpath = lpath) (htrans : translation canon db lpath = some (ram, hpath))
    (hclean : clean canon hpath = hpath) (hwatch : Watches canon hook lpath) :
    ∃ l ∈ hook.monitored, ∃ x ∈ gsplit canon hpath, Needs canon db ram l x.1 := by
  obtain ⟨x, hx, hmon⟩ := hwatch
  obtain ⟨a', b', hsplit', rfl⟩ := mem_gsplit.mp hx
  obtain ⟨a, b, hpfx, hsplit, hhit, heq, hmiss⟩ := deepest_of_translation htrans
  have hsegs := isPath_of_clean hcanon hlpath
  have ha : ∀ s ∈ a, Segment canon s := fun s hs =>
    hsegs s (by rw [hsplit]; exact List.mem_append_left _ hs)
  have ha' : ∀ s ∈ a', Segment canon s := fun s hs =>
    hsegs s (by rw [hsplit']; exact List.mem_append_left _ hs)
  refine ⟨concat a', hmon, ?_⟩
  by_cases hle : a.length ≤ a'.length
  · have hpfx' : a <+: a' :=
      List.prefix_of_prefix_length_le ⟨b, hsplit.symm⟩ ⟨b', hsplit'.symm⟩ hle
    obtain ⟨c, rfl⟩ := hpfx'
    have hb : b = c ++ b' := by
      rw [hsplit, List.append_assoc] at hsplit'
      exact List.append_cancel_left hsplit'
    have hseg : ∀ s ∈ c ++ b', Segment canon s := fun s hs =>
      hsegs s (by rw [hsplit, hb]; exact List.mem_append_right _ hs)
    rw [hb] at heq
    obtain ⟨x, hx, hfst⟩ := mem_gsplit_of_clean hcanon hclean hseg heq
    refine ⟨x, hx, .inl ?_⟩
    rw [hfst]
    apply translation_of_deepest (segments_concat ha') hhit
    intro a'' b'' hsplit'' hlen
    rw [segments_concat ha'] at hsplit''
    exact hmiss a'' (b'' ++ b') (by rw [hsplit', hsplit'', List.append_assoc]) hlen
  · refine ⟨([], concat (segments canon hpath)), mem_gsplit.mpr ⟨[], _, rfl, rfl⟩, .inr ⟨rfl, ?_⟩⟩
    obtain ⟨m, hm, hlpath', hkey⟩ := mem_l2h hhit
    obtain ⟨hlive, hnode⟩ := live_of_lpath ha hlpath'
    refine ⟨m, hm, hlive, ⟨hpfx, by rw [hlpath', hhit]⟩, ?_, ?_⟩
    · intro hsame
      rw [hlpath'] at hsame
      rw [concat_inj ha ha' hsame] at hle
      exact hle (Nat.le_refl _)
    · rw [segments_concat ha', hnode]
      exact List.prefix_of_prefix_length_le ⟨b', hsplit'.symm⟩ ⟨b, hsplit.symm⟩ (by omega)

end

/-- On a mapping whose lines are in normal form, paths in normal form are reported as they are
read. -/
theorem mem_hpath2lpath_iff_read {canon : Str → Str} (hcanon : Numerals canon) {db : List Mount}
    (hnd : (db.map Mount.lpath).Nodup) (hnames : ∀ m ∈ db, m.name ≠ [])
    (hreg : Regular canon db) {ram hpath : Str} (hram : ':' ∉ ram)
    (hclean : clean canon hpath = hpath) (lpath : Str) :
    lpath ∈ hpath2lpath canon db ram hpath ↔
      clean canon lpath = lpath ∧ translation canon db lpath = some (ram, hpath) := by
  have hup := (hreg.agree hcanon hnd hnames).up ram hpath hram (isPath_of_clean hcanon hclean) lpath
  rw [hclean] at hup
  exact hup

theorem regular_singleton {canon : Str → Str} {m : Mount} (hlive : m.Live canon)
    (hname : ':' ∉ m.name)
    (hhpath : trimEnd m.hpath = m.hpath ∧ clean canon m.hpath = m.hpath) : Regular canon [m] where
  name m' hm _ := by rw [List.mem_singleton.mp hm]; exact hname
  hpath m' hm _ := by rw [List.mem_singleton.mp hm]; exact hhpath
  apart m' hm _ m'' hm' _ _ := by rw [List.mem_singleton.mp hm, List.mem_singleton.mp hm']
  unread m' hm hdead := absurd (List.mem_singleton.mp hm ▸ hlive) hdead
  redundant m' hm hdead := absurd (List.mem_singleton.mp hm ▸ hlive) hdead

/-! ## The store -/

namespace RamStore

variable {α : Type} {canon : Str → Str}

theorem mem_foldl_register (l : List Str) (s : RamStore α) (hpath : Str) :
    hpath ∈ (l.foldl register s).registered ↔ hpath ∈ l ∨ hpath ∈ s.registered := by
  induction l generalizing s with
  | nil => simp
  | cons h l ih =>
    rw [List.foldl_cons, ih]
    simp only [register, List.mem_cons]
    tauto

theorem mem_foldl_unregister (l : List Str) (s : RamStore α) (hpath : Str) :
    hpath ∈ (l.foldl unregister s).registered ↔ hpath ∈ s.registered ∧ hpath ∉ l := by
  induction l generalizing s with
  | nil => simp
  | cons h l ih =>
    rw [List.foldl_cons, ih]
    simp only [unregister, List.mem_cons, List.mem_filter, decide_eq_true_eq, not_or]
    tauto

theorem foldl_unregister_values (l : List Str) (s : RamStore α) :
    (l.foldl unregister s).values = s.values := by
  induction l generalizing s with
  | nil => rfl
  | cons h l ih => exact ih _

variable [DecidableEq α]

theorem setHpath_values (s : RamStore α) (hpath : Str) (v : Value α) (p : Str) :
    (s.setHpath canon hpath v).1.values.lookup p =
      if p = hpath then some v else s.values.lookup p := by
  rw [setHpath]
  split
  · next hsame =>
    split
    · next heq => rw [heq, hsame]
    · rfl
  · split
    · next heq => rw [heq, lookup_insert]
    · next hne => rw [lookup_insert_ne hne]

theorem setHpath_registered (s : RamStore α) (hpath : Str) (v : Value α) :
    (s.setHpath canon hpath v).1.registered = s.registered := by
  rw [setHpath]
  split <;> rfl

theorem setHpath_notifies (s : RamStore α) (hpath : Str) (v : Value α) :
    (s.setHpath canon hpath v).2 = true ↔
      s.values.lookup hpath ≠ some v ∧ ∃ x ∈ gsplit canon hpath, x.1 ∈ s.registered := by
  rw [setHpath]
  split
  · next hsame => simp [hsame]
  · next hne => simp [hne]

/-- The loop of `set`, from any store on. -/
theorem foldl_setHpath {es : List (Sigma fun _ : Str => Value α)} (hnd : es.NodupKeys)
    (s : RamStore α) (b : Bool) :
    let r := es.foldl (fun r e =>
      let r' := r.1.setHpath canon e.1 e.2
      (r'.1, r.2 || r'.2)) (s, b)
    r.1.registered = s.registered ∧
      (∀ p, r.1.values.lookup p = (es.dlookup p).or (s.values.lookup p)) ∧
      (r.2 = true ↔ b = true ∨ ∃ e ∈ es, s.values.lookup e.1 ≠ some e.2 ∧
        ∃ x ∈ gsplit canon e.1, x.1 ∈ s.registered) := by
  induction es generalizing s b with
  | nil => simp
  | cons e es ih =>
    have hnd' := List.nodupKeys_cons.mp hnd
    obtain ⟨hreg, hval, hflag⟩ := ih hnd'.2 (s.setHpath canon e.1 e.2).1
      (b || (s.setHpath canon e.1 e.2).2)
    refine ⟨hreg.trans (setHpath_registered s e.1 e.2), ?_, ?_⟩
    · intro p
      rw [List.foldl_cons, hval, setHpath_values]
      by_cases heq : p = e.1
      · subst heq
        rw [List.dlookup_eq_none.mpr hnd'.1, if_pos rfl, List.dlookup_cons_eq]
        rfl
      · rw [if_neg heq, List.dlookup_cons_ne _ _ heq]
    · rw [List.foldl_cons, hflag, Bool.or_eq_true, setHpath_notifies, setHpath_registered]
      have hothers : (∃ e' ∈ es, (s.setHpath canon e.1 e.2).1.values.lookup e'.1 ≠ some e'.2 ∧
          ∃ x ∈ gsplit canon e'.1, x.1 ∈ s.registered) ↔
          ∃ e' ∈ es, s.values.lookup e'.1 ≠ some e'.2 ∧
            ∃ x ∈ gsplit canon e'.1, x.1 ∈ s.registered := by
        apply exists_congr
        intro e'
        apply and_congr_right
        intro hmem
        have hne : e'.1 ≠ e.1 := fun heq =>
          hnd'.1 (heq ▸ List.mem_map_of_mem hmem)
        rw [setHpath_values, if_neg hne]
      rw [hothers]
      simp only [List.mem_cons, exists_eq_or_imp]
      exact or_assoc

theorem set_registered (s : RamStore α) (hmap : LuaTable Str (Value α)) :
    (s.set canon hmap).1.registered = s.registered :=
  (foldl_setHpath hmap.nodupKeys s false).1

theorem set_values (s : RamStore α) (hmap : LuaTable Str (Value α)) (p : Str) :
    (s.set canon hmap).1.values.lookup p = (hmap.lookup p).or (s.values.lookup p) :=
  (foldl_setHpath hmap.nodupKeys s false).2.1 p

theorem set_notifies (s : State α) (hmap : LuaTable Str (Value α)) :
    (s.store.set canon hmap).2 = true ↔ Notifies canon s hmap := by
  rw [RamStore.set, (foldl_setHpath hmap.nodupKeys s.store false).2.2]
  constructor
  · rintro (h | ⟨e, he, hchanged, hreg⟩)
    · cases h
    · exact ⟨e.1, e.2, mem_entries_iff.mp he, hchanged, hreg⟩
  · rintro ⟨hpath, v, hlookup, hchanged, hreg⟩
    exact .inr ⟨⟨hpath, v⟩, mem_entries_iff.mpr hlookup, hchanged, hreg⟩

end RamStore

/-! ## The arguments of hooks -/

section

variable {canon : Str → Str} {db : List Mount} {ram : Str} {α : Type}

theorem lmapOf_eq_assign (hmap : LuaTable Str (Value α)) :
    lmapOf canon db ram hmap = assign ∅ (hmap.entries.flatMap fun e =>
      (hpath2lpath canon db ram e.1).map fun lpath => (lpath, e.2)) := by
  rw [lmapOf, assign, List.foldl_flatMap]
  simp only [List.foldl_map]

variable {lpath : Str} {hmap : LuaTable Str (Value α)} {v : Value α}

theorem mem_reported :
    (lpath, v) ∈ (hmap.entries.flatMap fun e =>
      (hpath2lpath canon db ram e.1).map fun lpath => (lpath, e.2)) ↔
      ∃ hpath, hmap.lookup hpath = some v ∧ lpath ∈ hpath2lpath canon db ram hpath := by
  rw [List.mem_flatMap]
  constructor
  · rintro ⟨e, he, hmem⟩
    obtain ⟨l, hl, heq⟩ := List.mem_map.mp hmem
    obtain ⟨rfl, rfl⟩ := Prod.mk.inj heq
    exact ⟨e.1, mem_entries_iff.mp he, hl⟩
  · rintro ⟨hpath, hlookup, hl⟩
    exact ⟨⟨hpath, v⟩, mem_entries_iff.mpr hlookup, List.mem_map.mpr ⟨lpath, hl, rfl⟩⟩

theorem mem_lmapOf :
    lpath ∈ lmapOf canon db ram hmap ↔
      ∃ hpath ∈ hmap, lpath ∈ hpath2lpath canon db ram hpath := by
  rw [← lookup_isSome, lmapOf_eq_assign]
  constructor
  · intro h
    obtain ⟨v, hv⟩ := isSome_iff_exists.mp h
    rcases mem_of_lookup_assign hv with hmem | hempty
    · obtain ⟨hpath, hlookup, hl⟩ := mem_reported.mp hmem
      exact ⟨hpath, lookup_isSome.mp (by rw [hlookup]; rfl), hl⟩
    · rw [lookup_empty] at hempty
      cases hempty
  · rintro ⟨hpath, hmem, hl⟩
    obtain ⟨v, hv⟩ := isSome_iff_exists.mp (lookup_isSome.mpr hmem)
    exact isSome_lookup_assign
      (.inl (List.mem_map.mpr ⟨(lpath, v), mem_reported.mpr ⟨hpath, hv, hl⟩, rfl⟩))

/-- When its paths are reported under the logical paths from which they are read, the map has their
values. -/
theorem lookup_lmapOf
    (hfaithful : ∀ hpath ∈ hmap, ∀ lpath, lpath ∈ hpath2lpath canon db ram hpath ↔
      clean canon lpath = lpath ∧ translation canon db lpath = some (ram, hpath))
    :
    (lmapOf canon db ram hmap).lookup lpath = some v ↔
      clean canon lpath = lpath ∧
        ∃ hpath, translation canon db lpath = some (ram, hpath) ∧ hmap.lookup hpath = some v := by
  have hread : ∀ v', (lmapOf canon db ram hmap).lookup lpath = some v' →
      clean canon lpath = lpath ∧
        ∃ hpath, translation canon db lpath = some (ram, hpath) ∧ hmap.lookup hpath = some v' := by
    intro v' hv'
    rw [lmapOf_eq_assign] at hv'
    rcases mem_of_lookup_assign hv' with hmem | hempty
    · obtain ⟨hpath, hlookup, hl⟩ := mem_reported.mp hmem
      have hin : hpath ∈ hmap := lookup_isSome.mp (by rw [hlookup]; rfl)
      obtain ⟨hclean, htrans⟩ := (hfaithful hpath hin lpath).mp hl
      exact ⟨hclean, hpath, htrans, hlookup⟩
    · rw [lookup_empty] at hempty
      cases hempty
  refine ⟨hread v, ?_⟩
  rintro ⟨hclean, hpath, htrans, hlookup⟩
  have hin : hpath ∈ hmap := lookup_isSome.mp (by rw [hlookup]; rfl)
  have hmem : lpath ∈ lmapOf canon db ram hmap :=
    mem_lmapOf.mpr ⟨hpath, hin, (hfaithful hpath hin lpath).mpr ⟨hclean, htrans⟩⟩
  obtain ⟨v', hv'⟩ := isSome_iff_exists.mp (lookup_isSome.mpr hmem)
  obtain ⟨_, hpath', htrans', hlookup'⟩ := hread v' hv'
  rw [htrans] at htrans'
  obtain ⟨-, rfl⟩ := Prod.mk.inj (Option.some.inj htrans')
  rw [hv', ← hlookup', hlookup]

variable {store : RamStore α} {other : Str → Str → Reply α}

/-- `get` writes the values that it can read into the table. -/
theorem lookup_get {lpaths : List Str} {result m : LuaTable Str (Value α)}
    (h : get canon db ram store other lpaths result = .ok m) (lpath : Str) :
    m.lookup lpath = if lpath ∈ lpaths then
      match getLpath canon db ram store other lpath with
      | .ok (some v) => some v
      | _ => result.lookup lpath
    else result.lookup lpath := by
  induction lpaths generalizing result with
  | nil =>
    rw [get] at h
    rw [Except.ok.inj h]
    rfl
  | cons l lpaths ih =>
    rw [get] at h
    split at h
    · cases h
    · next hget =>
      rw [ih h]
      by_cases heq : lpath = l
      · subst heq
        simp [hget]
      · simp [heq]
    · next v hget =>
      rw [ih h]
      by_cases heq : lpath = l
      · subst heq
        simp [hget]
      · simp [heq, lookup_insert_ne heq]

theorem get_ok {lpaths : List Str} (result : LuaTable Str (Value α))
    (h : ∀ lpath ∈ lpaths, ∃ v, getLpath canon db ram store other lpath = .ok v) :
    ∃ m, get canon db ram store other lpaths result = .ok m := by
  induction lpaths generalizing result with
  | nil => exact ⟨result, rfl⟩
  | cons l lpaths ih =>
    obtain ⟨v, hv⟩ := h l List.mem_cons_self
    have hrest : ∀ lpath ∈ lpaths, ∃ v, getLpath canon db ram store other lpath = .ok v :=
      fun lpath hmem => h lpath (List.mem_cons_of_mem l hmem)
    rw [get, hv]
    cases v with
    | none => exact ih result hrest
    | some v => exact ih (result.insert l v) hrest

variable {lmap : LuaTable Str (Value α)}

theorem mem_callHooks {hooks : List Hook} {c : Call α}
    (h : c ∈ callHooks canon db ram store other lmap hooks) :
    c.hook ∈ hooks ∧ hookLmap canon db ram store other lmap c.hook = .ok c.lmap := by
  induction hooks with
  | nil => cases h
  | cons hook hooks ih =>
    rw [callHooks] at h
    split at h
    · cases h
    · next arg harg =>
      rcases List.mem_cons.mp h with rfl | h
      · exact ⟨List.mem_cons_self, harg⟩
      · obtain ⟨hmem, hok⟩ := ih h
        exact ⟨List.mem_cons_of_mem hook hmem, hok⟩

theorem callHooks_hook {hooks : List Hook}
    (h : ∀ hook ∈ hooks, ∃ m, hookLmap canon db ram store other lmap hook = .ok m) :
    (callHooks canon db ram store other lmap hooks).map Call.hook = hooks := by
  induction hooks with
  | nil => rfl
  | cons hook hooks ih =>
    obtain ⟨m, hm⟩ := h hook List.mem_cons_self
    rw [callHooks, hm]
    simp only [List.map_cons]
    rw [ih fun hook' hmem => h hook' (List.mem_cons_of_mem hook hmem)]

variable {hook : Hook}

theorem mem_notifiedHooks {hooks : List (Str × Hook)}
    : hook ∈ notifiedHooks canon hooks lmap ↔
      ∃ lpath ∈ lmap, ∃ x ∈ gsplit canon lpath, (x.1, hook) ∈ hooks := by
  rw [notifiedHooks, List.mem_dedup, List.mem_flatMap]
  apply exists_congr
  intro lpath
  apply and_congr_right
  intro _
  rw [List.mem_flatMap]
  apply exists_congr
  intro x
  apply and_congr_right
  intro _
  rw [List.mem_map]
  constructor
  · rintro ⟨e, he, rfl⟩
    obtain ⟨hmem, heq⟩ := List.mem_filter.mp he
    have hfst : e.1 = x.1 := by simpa using heq
    exact hfst ▸ hmem
  · intro hmem
    exact ⟨(x.1, hook), List.mem_filter.mpr ⟨hmem, by simp⟩, rfl⟩

/-! ### What a hook is given -/

theorem relevant_of_watches (h : Watches canon hook lpath) :
    relevant canon hook lpath = true := by
  obtain ⟨x, hx, hmon⟩ := h
  rw [relevant, List.any_eq_true]
  exact ⟨x, hx, by simp [hmon]⟩

theorem relevant_of_associated (hlpath : clean canon lpath = lpath)
    (h : lpath ∈ hook.associated) : relevant canon hook lpath = true := by
  rw [relevant, List.any_eq_true]
  refine ⟨(lpath, []), mem_gsplit.mpr ⟨segments canon lpath, [], (List.append_nil _).symm, ?_⟩, ?_⟩
  · rw [show concat (segments canon lpath) = lpath from hlpath, concat_nil]
  · simp [h]

theorem reads_of_getLpath
    (h : getLpath canon db ram store other lpath = .ok (some v)) :
    Reads canon db ram store other lpath v := by
  rw [getLpath] at h
  split at h
  · next name hpath htrans =>
    refine ⟨name, hpath, htrans, ?_⟩
    split at h
    · next hreply =>
      obtain rfl := Option.some.inj (Except.ok.inj h)
      split
      · next hram =>
        rw [if_pos hram, RamStore.get] at hreply
        split at hreply
        · next a hlookup =>
          rw [hlookup, Reply.value.inj hreply]
        · split at hreply <;> cases hreply
      · next hram =>
        rw [if_neg hram] at hreply
        exact hreply
    · cases h
    · cases h
    · cases h
  · split at h <;> cases h

/-- A `false` of the store is not read. -/
theorem getLpath_of_reads
    (hno : ∀ hpath, translation canon db lpath = some (ram, hpath) →
      store.values.lookup hpath ≠ some .no)
    (h : Reads canon db ram store other lpath v) :
    getLpath canon db ram store other lpath = .ok (some v) := by
  obtain ⟨name, hpath, htrans, hvalue⟩ := h
  rw [getLpath, htrans]
  dsimp only
  split at hvalue
  · next hram =>
    subst hram
    rw [if_pos rfl, RamStore.get, hvalue]
    cases v with
    | no => exact absurd hvalue (hno hpath htrans)
    | val a => rfl
  · next hram => rw [if_neg hram, hvalue]

theorem Reads.unique {v w : Value α} (h : Reads canon db ram store other lpath v)
    (h' : Reads canon db ram store other lpath w) : v = w := by
  obtain ⟨name, hpath, htrans, hv⟩ := h
  obtain ⟨name', hpath', htrans', hw⟩ := h'
  rw [htrans] at htrans'
  obtain ⟨rfl, rfl⟩ := Prod.mk.inj (Option.some.inj htrans')
  split at hv
  · next hram =>
    rw [if_pos hram, hv] at hw
    exact Option.some.inj hw
  · next hram =>
    rw [if_neg hram, hv] at hw
    exact Reply.value.inj hw

theorem getLpath_ok
    (hother : ∀ name hpath, translation canon db lpath = some (name, hpath) → name ≠ ram →
      ∀ msg, other name hpath ≠ .error msg)
    (hnone : translation canon db lpath = none → l2c canon db lpath ≠ []) :
    ∃ v, getLpath canon db ram store other lpath = .ok v := by
  rw [getLpath]
  split
  · next name hpath htrans =>
    split
    · exact ⟨_, rfl⟩
    · exact ⟨_, rfl⟩
    · exact ⟨_, rfl⟩
    · next msg hreply =>
      exfalso
      split at hreply
      · rw [RamStore.get] at hreply
        split at hreply
        · cases hreply
        · split at hreply <;> cases hreply
      · next hram => exact hother name hpath htrans hram msg hreply
  · next htrans =>
    rw [if_neg (hnone htrans)]
    exact ⟨none, rfl⟩

/-- The argument of a hook: what is notified and relevant to it, and what is read in addition. -/
theorem lookup_hookLmap {lmap arg : LuaTable Str (Value α)}
    (hpaths : ∀ lpath ∈ hook.associated, clean canon lpath = lpath)
    (h : hookLmap canon db ram store other lmap hook = .ok arg) :
    arg.lookup lpath = some v ↔
      relevant canon hook lpath = true ∧ lmap.lookup lpath = some v ∨
      lpath ∈ hook.associated ∧ lpath ∉ lmap ∧
        getLpath canon db ram store other lpath = .ok (some v) := by
  have hsorted : ∀ v, (lmap.filter fun lpath _ => relevant canon hook lpath).lookup lpath = some v ↔
      relevant canon hook lpath = true ∧ lmap.lookup lpath = some v := by
    intro v
    rw [lookup_filter, filter_eq_some_iff]
    exact and_comm
  rw [lookup_get h]
  by_cases hmore : lpath ∈ hook.associated ∧ lpath ∉ lmap
  · obtain ⟨hassoc, hout⟩ := hmore
    have hnone := lookup_eq_none.mpr hout
    have hnotin : (lmap.filter fun lpath _ => relevant canon hook lpath).lookup lpath = none := by
      rw [lookup_filter, hnone]
      rfl
    rw [if_pos (List.mem_filter.mpr ⟨hassoc, decide_eq_true (lookup_eq_none.mp hnotin)⟩)]
    rw [hnotin, hnone]
    constructor
    · intro hv
      right
      split at hv
      · next v' hget => exact ⟨hassoc, hout, hget.trans (by rw [hv])⟩
      · cases hv
    · rintro (⟨-, hv⟩ | ⟨-, -, hget⟩)
      · cases hv
      · rw [hget]
  · have hnotin : lpath ∉ hook.associated.filter
        fun lpath => lpath ∉ lmap.filter fun lpath _ => relevant canon hook lpath := by
      intro hmem
      obtain ⟨hassoc, hdec⟩ := List.mem_filter.mp hmem
      have hin : lpath ∈ lmap := not_not.mp fun hout => hmore ⟨hassoc, hout⟩
      obtain ⟨v', hv'⟩ := isSome_iff_exists.mp (lookup_isSome.mpr hin)
      have hboth := (hsorted v').mpr ⟨relevant_of_associated (hpaths lpath hassoc) hassoc, hv'⟩
      exact of_decide_eq_true hdec (lookup_isSome.mp (by rw [hboth]; rfl))
    rw [if_neg hnotin, hsorted]
    constructor
    · exact .inl
    · rintro (hv | ⟨hassoc, hout, -⟩)
      · exact hv
      · exact absurd ⟨hassoc, hout⟩ hmore

end

/-! ## The invariant -/

section

variable (canon : Str → Str) (db : List Mount) (ram : Str) {α : Type}

structure Inv (s : State α) : Prop where
  hooks : ∀ lpath hook, (lpath, hook) ∈ s.hooks ↔ hook ∈ s.active ∧ lpath ∈ hook.monitored
  ids : ∀ hook ∈ s.active, hook.id < s.made.length
  paths : ∀ hook ∈ s.active, ∀ lpath ∈ hook.associated, clean canon lpath = lpath
  needed : ∀ hook ∈ s.active, ∀ lpath ∈ hook.monitored, ∀ hpath, Needs canon db ram lpath hpath →
    hpath ∈ s.store.registered

end

section

variable {canon : Str → Str} {db : List Mount} {ram : Str} {α : Type}

theorem inv_init : Inv canon db ram (init : State α) where
  hooks := by simp [init]
  ids := by simp [init]
  paths := by simp [init]
  needed := by simp [init]

theorem mem_registrations {lpath hpath : Str}
    (hbelow : MountedBelow canon db ram lpath → ram ∈ l2m canon db lpath)
    (hneeds : Needs canon db ram lpath hpath) : hpath ∈ registrations canon db ram lpath := by
  rw [registrations, List.mem_append]
  rcases hneeds with htrans | ⟨rfl, hmounted⟩
  · obtain ⟨a, b, hpfx, hsplit, hhit, heq, -⟩ := deepest_of_translation htrans
    left
    rw [List.mem_filterMap]
    exact ⟨(concat a, concat b), mem_gsplit.mpr ⟨a, b, hsplit, rfl⟩, by simp [hhit, heq]⟩
  · right
    rw [if_pos (hbelow hmounted)]
    exact List.mem_singleton_self []

namespace Inv

variable {s : State α}

theorem quiet (h : Inv canon db ram s) (calls : List (Call α)) :
    Inv canon db ram { s with calls := calls } :=
  ⟨h.hooks, h.ids, h.paths, h.needed⟩

theorem register (h : Inv canon db ram s) {monitored associated : List Str}
    (hpaths : ∀ lpath ∈ monitored ++ associated, IsPath canon lpath)
    (hbelow : ∀ lpath ∈ monitored, MountedBelow canon db ram (clean canon lpath) →
      ram ∈ l2m canon db (clean canon lpath)) :
    Inv canon db ram { register canon db ram s monitored associated with
      active := newHook canon s monitored associated :: s.active } where
  hooks := by
    intro lpath hook
    show (lpath, hook) ∈ s.hooks ++ _ ↔ _
    rw [List.mem_append, h.hooks, List.mem_map]
    simp only [Prod.mk.injEq, List.mem_cons]
    constructor
    · rintro (⟨hactive, hmon⟩ | ⟨l, hl, rfl, rfl⟩)
      · exact ⟨.inr hactive, hmon⟩
      · exact ⟨.inl rfl, hl⟩
    · rintro ⟨rfl | hactive, hmon⟩
      · exact .inr ⟨lpath, hmon, rfl, rfl⟩
      · exact .inl ⟨hactive, hmon⟩
  ids := by
    intro hook hactive
    show hook.id < s.made.length + 1
    rcases List.mem_cons.mp hactive with rfl | hactive
    · exact Nat.lt_succ_self _
    · exact Nat.lt_succ_of_lt (h.ids hook hactive)
  paths := by
    intro hook hactive
    rcases List.mem_cons.mp hactive with rfl | hactive
    · intro lpath hassoc
      obtain ⟨l, hl, rfl⟩ := List.mem_map.mp (List.mem_dedup.mp hassoc)
      exact clean_concat (hpaths l (List.mem_append_right _ hl))
    · exact h.paths hook hactive
  needed := by
    intro hook hactive lpath hmon hpath hneeds
    refine (RamStore.mem_foldl_register _ _ _).mpr ?_
    rcases List.mem_cons.mp hactive with rfl | hactive
    · left
      refine List.mem_flatMap.mpr ⟨lpath, hmon, mem_registrations ?_ hneeds⟩
      obtain ⟨l, hl, rfl⟩ := List.mem_map.mp (List.mem_dedup.mp hmon)
      exact hbelow l hl
    · exact .inr (h.needed hook hactive lpath hmon hpath hneeds)

variable {hook : Hook}

theorem all_of_active (h : Inv canon db ram s) (hactive : hook ∈ s.active) :
    (hook.monitored.all fun lpath => s.hooks.any fun e => e.1 = lpath) = true := by
  rw [List.all_eq_true]
  intro lpath hmon
  rw [List.any_eq_true]
  exact ⟨(lpath, hook), (h.hooks lpath hook).mpr ⟨hactive, hmon⟩, by simp⟩

theorem unregister (h : Inv canon db ram s)
    (hsound : Sound canon db ram s (.unregister hook)) :
    Inv canon db ram { unregister canon db ram s hook with
      active := s.active.filter fun h => h ≠ hook } := by
  have hmem : ∀ hook', hook' ∈ (s.active.filter fun h => h ≠ hook) ↔
      hook' ∈ s.active ∧ hook' ≠ hook := by
    intro hook'
    rw [List.mem_filter, decide_eq_true_eq]
  by_cases hall : (hook.monitored.all fun lpath => s.hooks.any fun e => e.1 = lpath) = true
  · have heq : Treemgr.unregister canon db ram s hook =
        let hooks := s.hooks.filter fun e => ¬(e.1 ∈ hook.monitored ∧ e.2 = hook)
        { s with
          hooks := hooks
          store := (collectable canon db ram hooks hook).foldl RamStore.unregister s.store } :=
      if_pos hall
    rw [heq]
    have hleft : ∀ lpath hook', (lpath, hook') ∈
        (s.hooks.filter fun e => ¬(e.1 ∈ hook.monitored ∧ e.2 = hook)) ↔
        (hook' ∈ s.active ∧ hook' ≠ hook) ∧ lpath ∈ hook'.monitored := by
      intro lpath hook'
      rw [List.mem_filter, h.hooks, decide_eq_true_eq]
      constructor
      · rintro ⟨⟨hactive, hmon⟩, hnot⟩
        exact ⟨⟨hactive, fun heq => hnot ⟨heq ▸ hmon, heq⟩⟩, hmon⟩
      · rintro ⟨⟨hactive, hne⟩, hmon⟩
        exact ⟨⟨hactive, hmon⟩, fun hboth => hne hboth.2⟩
    refine ⟨?_, ?_, ?_, ?_⟩
    · intro lpath hook'
      rw [hmem]
      exact hleft lpath hook'
    · exact fun hook' hactive => h.ids hook' ((hmem hook').mp hactive).1
    · exact fun hook' hactive => h.paths hook' ((hmem hook').mp hactive).1
    · intro hook' hactive lpath hmon hpath hneeds
      obtain ⟨hbefore, hne⟩ := (hmem hook').mp hactive
      refine (RamStore.mem_foldl_unregister _ _ _).mpr
        ⟨h.needed hook' hbefore lpath hmon hpath hneeds, ?_⟩
      intro hcollect
      obtain ⟨l, hl, hsome⟩ := List.mem_filterMap.mp hcollect
      split at hsome
      · cases hsome
      · next name hp htrans =>
        split at hsome
        · next hcond =>
          obtain ⟨rfl, hnot⟩ := hcond
          rw [Option.some.inj hsome] at htrans hnot
          obtain ⟨hook'', hactive'', hne'', l'', hmon'', hequiv⟩ :=
            hsound l hl hpath htrans ⟨hook', hbefore, hne, lpath, hmon, hneeds⟩
          apply hnot
          rw [List.any_eq_true]
          refine ⟨l'', hequiv, ?_⟩
          rw [List.any_eq_true]
          exact ⟨(l'', hook''), (hleft l'' hook'').mpr ⟨⟨hactive'', hne''⟩, hmon''⟩, by simp⟩
        · cases hsome
  · have heq : Treemgr.unregister canon db ram s hook = s := if_neg hall
    have hnot : hook ∉ s.active := fun hactive => hall (h.all_of_active hactive)
    have hsame : (s.active.filter fun h => h ≠ hook) = s.active := by
      rw [List.filter_eq_self]
      intro hook' hactive
      rw [decide_eq_true_eq]
      exact fun heq => hnot (heq ▸ hactive)
    rw [heq, hsame]
    exact h

variable {hmap : LuaTable Str (Value α)}

/-- A hook is notified when it monitors a reported path or a node above it. -/
theorem notified_iff (h : Inv canon db ram s) :
    hook ∈ notifiedHooks canon s.hooks (lmapOf canon db ram hmap) ↔
      hook ∈ s.active ∧ ∃ hpath ∈ hmap, ∃ lpath ∈ hpath2lpath canon db ram hpath,
        Watches canon hook lpath := by
  rw [mem_notifiedHooks]
  constructor
  · rintro ⟨lpath, hmem, x, hx, hhook⟩
    obtain ⟨hpath, hin, hl⟩ := mem_lmapOf.mp hmem
    obtain ⟨hactive, hmon⟩ := (h.hooks x.1 hook).mp hhook
    exact ⟨hactive, hpath, hin, lpath, hl, x, hx, hmon⟩
  · rintro ⟨hactive, hpath, hin, lpath, hl, x, hx, hmon⟩
    exact ⟨lpath, mem_lmapOf.mpr ⟨hpath, hin, hl⟩, x, hx, (h.hooks x.1 hook).mpr ⟨hactive, hmon⟩⟩

variable {other : Str → Str → Reply α} {store : RamStore α}

theorem notify (h : Inv canon db ram s)
    (hstore : store.registered = s.store.registered)
    (hneedless : (∃ hook ∈ s.active, ∃ lpath ∈ hook.monitored, ∃ hpath ∈ hmap,
        Needs canon db ram lpath hpath) →
      ∃ hook ∈ s.active, ∃ hpath ∈ hmap, ∃ lpath ∈ hpath2lpath canon db ram hpath,
        Watches canon hook lpath) :
    Inv canon db ram (notify canon db ram { s with store := store } other hmap) := by
  have hset : Inv canon db ram { s with store := store } :=
    ⟨h.hooks, h.ids, h.paths, by rw [hstore]; exact h.needed⟩
  rw [Treemgr.notify]
  dsimp only
  split
  · next hnobody =>
    refine ⟨h.hooks, h.ids, h.paths, ?_⟩
    intro hook hactive lpath hmon hpath hneeds
    refine (RamStore.mem_foldl_unregister _ _ _).mpr
      ⟨hset.needed hook hactive lpath hmon hpath hneeds, ?_⟩
    intro hin
    obtain ⟨hook', hactive', hwatched⟩ :=
      hneedless ⟨hook, hactive, lpath, hmon, hpath, mem_keys.mpr hin, hneeds⟩
    have hnotified := h.notified_iff.mpr ⟨hactive', hwatched⟩
    rw [hnobody] at hnotified
    cases hnotified
  · exact hset.quiet _

/-! ### What is notified -/

/-- Nobody watches a change that the store does not notify. -/
theorem quiet_of_not_notifies (h : Inv canon db ram s) (hcanon : Numerals canon)
    (hclean : ∀ hpath ∈ hmap, clean canon hpath = hpath)
    (hnot : ¬Notifies canon s hmap) (hactive : hook ∈ s.active) {lpath : Str}
    {v : Value α} (hchanged : Changed canon db ram s hmap lpath v) :
    ¬Watches canon hook lpath := by
  intro hwatch
  obtain ⟨hlpath, hpath, htrans, hlookup, hne⟩ := hchanged
  have hin : hpath ∈ hmap := lookup_isSome.mp (by rw [hlookup]; rfl)
  obtain ⟨l, hmon, x, hx, hneeds⟩ :=
    needs_of_watches hcanon hlpath htrans (hclean hpath hin) hwatch
  exact hnot ⟨hpath, v, hlookup, hne, x, hx, h.needed hook hactive l hmon x.1 hneeds⟩

theorem exact_of_not_notifies (h : Inv canon db ram s) (hcanon : Numerals canon)
    (hclean : ∀ hpath ∈ hmap, clean canon hpath = hpath) (hnot : ¬Notifies canon s hmap)
    {s' : State α} (hcalls : s'.calls = []) : Exact canon db ram s s' hmap other where
  nodup := by
    rw [hcalls]
    exact List.nodup_nil
  called := by
    intro hook
    rw [hcalls]
    constructor
    · intro hmem
      cases hmem
    · rintro ⟨hactive, lpath, v, hchanged, hwatch⟩
      exact absurd hwatch (h.quiet_of_not_notifies hcanon hclean hnot hactive hchanged)
  changed := by
    intro c hc
    rw [hcalls] at hc
    cases hc
  associated := by
    intro c hc
    rw [hcalls] at hc
    cases hc
  entries := by
    intro c hc
    rw [hcalls] at hc
    cases hc

/-- The hooks that are notified are those that watch a change. -/
theorem notified_iff_changed (h : Inv canon db ram s)
    (hnotifiable : Notifiable canon db ram s hmap other)
    :
    hook ∈ notifiedHooks canon s.hooks (lmapOf canon db ram hmap) ↔
      hook ∈ s.active ∧ ∃ lpath v, Changed canon db ram s hmap lpath v ∧
        Watches canon hook lpath := by
  rw [h.notified_iff]
  apply and_congr_right
  intro hactive
  constructor
  · rintro ⟨hpath, hin, lpath, hl, hwatch⟩
    obtain ⟨v, hlookup⟩ := isSome_iff_exists.mp (lookup_isSome.mpr hin)
    obtain ⟨hlpath, htrans⟩ := (hnotifiable.faithful hpath hin lpath).mp hl
    refine ⟨lpath, v, ⟨hlpath, hpath, htrans, hlookup, ?_⟩, hwatch⟩
    intro hsame
    exact hnotifiable.unchanged hpath v hlookup hsame hook hactive lpath hl
      (relevant_of_watches hwatch)
  · rintro ⟨lpath, v, ⟨hlpath, hpath, htrans, hlookup, -⟩, hwatch⟩
    have hin : hpath ∈ hmap := lookup_isSome.mp (by rw [hlookup]; rfl)
    exact ⟨hpath, hin, lpath, (hnotifiable.faithful hpath hin lpath).mpr ⟨hlpath, htrans⟩, hwatch⟩

/-- What a notified hook is given can be read. -/
theorem hookLmap_ok (h : Inv canon db ram s)
    (hnotifiable : Notifiable canon db ram s hmap other)
    (store : RamStore α)
    (hhook : hook ∈ notifiedHooks canon s.hooks (lmapOf canon db ram hmap)) :
    ∃ arg, hookLmap canon db ram store other (lmapOf canon db ram hmap) hook = .ok arg := by
  obtain ⟨hactive, hwatched⟩ := h.notified_iff.mp hhook
  apply get_ok
  intro lpath hmem
  have hreadable := hnotifiable.readable hook hactive hwatched lpath (List.mem_filter.mp hmem).1
  rw [Readable] at hreadable
  apply getLpath_ok
  · intro name hpath htrans hram
    rw [htrans] at hreadable
    dsimp only at hreadable
    rw [if_neg hram] at hreadable
    exact hreadable
  · intro htrans
    rw [htrans] at hreadable
    exact hreadable

/-- The value under which a path of the store is notified is the one it has now. -/
theorem reads_of_lmapOf
    (hnotifiable : Notifiable canon db ram s hmap other)
    (hvalues : ∀ p, store.values.lookup p = (hmap.lookup p).or (s.store.values.lookup p))
    {lpath : Str} {v : Value α} (hv : (lmapOf canon db ram hmap).lookup lpath = some v) :
    Reads canon db ram store other lpath v := by
  obtain ⟨-, hpath, htrans, hlookup⟩ := (lookup_lmapOf hnotifiable.faithful).mp hv
  exact ⟨ram, hpath, htrans, by rw [if_pos rfl, hvalues, hlookup]; rfl⟩

theorem exact_of_notifies (h : Inv canon db ram s)
    (hnotifiable : Notifiable canon db ram s hmap other)
    {s' : State α}
    (hvalues : ∀ p, s'.store.values.lookup p = (hmap.lookup p).or (s.store.values.lookup p))
    (hstore : store.values = s'.store.values)
    (hcalls : s'.calls = callHooks canon db ram store other (lmapOf canon db ram hmap)
      (notifiedHooks canon s.hooks (lmapOf canon db ram hmap))) :
    Exact canon db ram s s' hmap other := by
  have hmap_hook : s'.calls.map Call.hook =
      notifiedHooks canon s.hooks (lmapOf canon db ram hmap) := by
    rw [hcalls]
    exact callHooks_hook fun hook hmem => h.hookLmap_ok hnotifiable store hmem
  have hreads : ∀ lpath v, Reads canon db ram store other lpath v ↔
      Reads canon db ram s'.store other lpath v := by
    intro lpath v
    rw [Reads, Reads, hstore]
  have hcall : ∀ c ∈ s'.calls, c.hook ∈ notifiedHooks canon s.hooks (lmapOf canon db ram hmap) ∧
      ∀ lpath v, c.lmap.lookup lpath = some v ↔
        relevant canon c.hook lpath = true ∧ (lmapOf canon db ram hmap).lookup lpath = some v ∨
        lpath ∈ c.hook.associated ∧ lpath ∉ lmapOf canon db ram hmap ∧
          getLpath canon db ram store other lpath = .ok (some v) := by
    intro c hc
    rw [hcalls] at hc
    obtain ⟨hmem, harg⟩ := mem_callHooks hc
    have hactive := (h.notified_iff.mp hmem).1
    exact ⟨hmem, fun lpath v => lookup_hookLmap (h.paths c.hook hactive) harg⟩
  refine ⟨?_, ?_, ?_, ?_, ?_⟩
  · rw [hmap_hook]
    exact List.nodup_dedup _
  · intro hook
    rw [hmap_hook]
    exact h.notified_iff_changed hnotifiable
  · intro c hc lpath v hchanged hwatch
    obtain ⟨hlpath, hpath, htrans, hlookup, -⟩ := hchanged
    exact ((hcall c hc).2 lpath v).mpr (.inl ⟨relevant_of_watches hwatch,
      (lookup_lmapOf hnotifiable.faithful).mpr ⟨hlpath, hpath, htrans, hlookup⟩⟩)
  · intro c hc lpath hassoc v hv
    obtain ⟨hmem, harg⟩ := hcall c hc
    obtain ⟨hactive, hwatched⟩ := h.notified_iff.mp hmem
    have hlpath := h.paths c.hook hactive lpath hassoc
    rw [harg]
    by_cases hin : lpath ∈ lmapOf canon db ram hmap
    · left
      obtain ⟨v', hv'⟩ := isSome_iff_exists.mp (lookup_isSome.mpr hin)
      have hv'' := reads_of_lmapOf hnotifiable hvalues hv'
      refine ⟨relevant_of_associated hlpath hassoc, ?_⟩
      rw [hv', hv.unique hv'']
    · right
      refine ⟨hassoc, hin, getLpath_of_reads ?_ ((hreads lpath v).mpr hv)⟩
      intro hpath htrans
      have hout : hpath ∉ hmap := fun hpathin =>
        hin (mem_lmapOf.mpr ⟨hpath, hpathin,
          (hnotifiable.faithful hpath hpathin lpath).mpr ⟨hlpath, htrans⟩⟩)
      have hreadable := hnotifiable.readable c.hook hactive hwatched lpath hassoc
      rw [Readable, htrans] at hreadable
      dsimp only at hreadable
      rw [if_pos rfl] at hreadable
      rw [hstore, hvalues, lookup_eq_none.mpr hout]
      exact hreadable.resolve_right hout
  · intro c hc lpath v hv
    obtain ⟨hmem, harg⟩ := hcall c hc
    have hactive := (h.notified_iff.mp hmem).1
    rcases (harg lpath v).mp hv with ⟨hrelevant, hlookup⟩ | ⟨hassoc, -, hget⟩
    · refine ⟨reads_of_lmapOf hnotifiable hvalues hlookup, .inr ⟨?_, hrelevant⟩⟩
      obtain ⟨hlpath, hpath, htrans, hset⟩ := (lookup_lmapOf hnotifiable.faithful).mp hlookup
      refine ⟨hlpath, hpath, htrans, hset, ?_⟩
      intro hsame
      have hin : hpath ∈ hmap := lookup_isSome.mp (by rw [hset]; rfl)
      exact hnotifiable.unchanged hpath v hset hsame c.hook hactive lpath
        ((hnotifiable.faithful hpath hin lpath).mpr ⟨hlpath, htrans⟩) hrelevant
    · exact ⟨(hreads lpath v).mp (reads_of_getLpath hget), .inl hassoc⟩

/-! ### Steps -/

variable [DecidableEq α]

theorem set (h : Inv canon db ram s) {lmap : List (Str × Value α)}
    (hsound : Sound canon db ram s (.set lmap other)) :
    Inv canon db ram (set canon db ram s lmap other) := by
  rw [Treemgr.set]
  cases hmap : handlerMap canon db ram lmap ∅ with
  | none => exact h
  | some hmap' =>
    have hstore : storeMap canon db ram lmap = hmap' := by rw [storeMap, hmap]; rfl
    dsimp only
    split
    · next hflag =>
      have hnotifies := (RamStore.set_notifies s hmap').mp hflag
      have hnotifiable := hsound.2 (by rw [hstore]; exact hnotifies)
      rw [hstore] at hnotifiable
      exact h.notify (RamStore.set_registered s.store hmap') hnotifiable.needless
    · refine ⟨h.hooks, h.ids, h.paths, ?_⟩
      rw [RamStore.set_registered]
      exact h.needed

theorem step (h : Inv canon db ram s) {e : Event α} (hsound : Sound canon db ram s e) :
    Inv canon db ram (step canon db ram s e) := by
  cases e with
  | register monitored associated =>
    exact (h.quiet []).register hsound.1 hsound.2
  | unregister hook => exact (h.quiet []).unregister hsound
  | set lmap other =>
    refine (h.quiet []).set ⟨hsound.1, fun hnotifies => ?_⟩
    obtain ⟨hfaithful, hunchanged, hneedless, hreadable⟩ := hsound.2 hnotifies
    exact ⟨hfaithful, hunchanged, hneedless, hreadable⟩

theorem exact_set (h : Inv canon db ram s) (hcanon : Numerals canon) (hcalls : s.calls = [])
    {lmap : List (Str × Value α)}
    (hsound : Sound canon db ram s (.set lmap other)) :
    Exact canon db ram s (Treemgr.set canon db ram s lmap other) (storeMap canon db ram lmap)
      other := by
  rw [Treemgr.set]
  cases hmap : handlerMap canon db ram lmap ∅ with
  | none =>
    have hstore : storeMap canon db ram lmap = ∅ := by rw [storeMap, hmap]; rfl
    rw [hstore]
    refine h.exact_of_not_notifies hcanon (fun _ hin => absurd hin (notMem_empty _)) ?_ hcalls
    rintro ⟨hpath, v, hlookup, -⟩
    rw [lookup_empty] at hlookup
    cases hlookup
  | some hmap' =>
    have hstore : storeMap canon db ram lmap = hmap' := by rw [storeMap, hmap]; rfl
    obtain ⟨hclean, hnotifiable⟩ := hsound
    rw [hstore] at hclean hnotifiable ⊢
    have hvalues : ∀ p, (s.store.set canon hmap').1.values.lookup p =
        (hmap'.lookup p).or (s.store.values.lookup p) :=
      RamStore.set_values s.store hmap'
    dsimp only
    split
    · next hflag =>
      specialize hnotifiable ((RamStore.set_notifies s hmap').mp hflag)
      rw [Treemgr.notify]
      dsimp only
      split
      · next hnobody =>
        refine h.exact_of_notifies hnotifiable ?_
          (?_ : (s.store.set canon hmap').1.values = _) ?_
        · intro p
          show ((hmap'.keys.foldl RamStore.unregister _).values).lookup p = _
          rw [RamStore.foldl_unregister_values]
          exact hvalues p
        · exact (RamStore.foldl_unregister_values _ _).symm
        · rw [hnobody]
          exact hcalls
      · next hook rest hsome =>
        refine h.exact_of_notifies hnotifiable hvalues
          (rfl : (s.store.set canon hmap').1.values = _) ?_
        rw [hsome]
    · next hflag =>
      exact h.exact_of_not_notifies hcanon hclean
        (fun hnotifies => hflag ((RamStore.set_notifies s hmap').mpr hnotifies)) hcalls

end Inv

end

/-! ## Runs -/

/-- After any run, a `set` calls the hooks that watch what it changes, and other events call none,
unless an event meets what breaks it. -/
theorem notifications_exact {canon : Str → Str} (hcanon : Numerals canon) {db : List Mount}
    {ram : Str} {α : Type} [DecidableEq α] {s : State α}
    (h : Runs (step canon db ram) (fun s e => Enabled s e ∧ Sound canon db ram s e)
      init s)
    (e : Event α) (he : Enabled s e ∧ Sound canon db ram s e) :
    match e with
    | .set lmap other => Exact canon db ram s (step canon db ram s e)
        (storeMap canon db ram lmap) other
    | _ => (step canon db ram s e).calls = [] := by
  have hinv : Inv canon db ram s :=
    h.invariant (fun s e hboth hs => hs.step hboth.2) inv_init
  cases e with
  | register monitored associated => rfl
  | unregister hook =>
    show (unregister canon db ram { s with calls := [] } hook).calls = []
    rw [unregister]
    split <;> rfl
  | set lmap other =>
    have hsound : Sound canon db ram { s with calls := [] } (.set lmap other) :=
      ⟨he.2.1, fun hnotifies => by
        obtain ⟨hfaithful, hunchanged, hneedless, hreadable⟩ := he.2.2 hnotifies
        exact ⟨hfaithful, hunchanged, hneedless, hreadable⟩⟩
    have hquiet := (hinv.quiet []).exact_set hcanon rfl hsound
    exact ⟨hquiet.nodup, hquiet.called, hquiet.changed, hquiet.associated, hquiet.entries⟩

/-- A hook on a mount point, with an associated variable, and a change below the mount point. -/
theorem notifications_exact_below :
    let db : List Mount := [⟨"a".toList, "h".toList, "x".toList⟩]
    let other : Str → Str → Reply Nat := fun _ _ => .nothing
    let s : State Nat := step id db "h".toList init (.register ["a".toList] ["a.z".toList])
    let lmap : List (Str × Value Nat) := [("a.y".toList, .val 1)]
    Exact id db "h".toList s (step id db "h".toList s (.set lmap other))
      (storeMap id db "h".toList lmap) other := by
  intro db other s lmap
  have hregular : Regular id db := regular_singleton rfl (by decide) ⟨by decide, by decide⟩
  have hfaithful : ∀ hpath, clean id hpath = hpath → ∀ lpath,
      lpath ∈ hpath2lpath id db "h".toList hpath ↔
        clean id lpath = lpath ∧ translation id db lpath = some ("h".toList, hpath) :=
    fun hpath hclean => mem_hpath2lpath_iff_read numerals_id (by decide) (by decide) hregular
      (by decide) hclean
  have hregister : Sound id db "h".toList (init : State Nat)
      (.register ["a".toList] ["a.z".toList]) := by
    refine ⟨?_, ?_⟩
    · intro lpath hmem
      rcases List.mem_pair.mp hmem with rfl | rfl
      · exact isPath_of_clean numerals_id (by decide)
      · exact isPath_of_clean numerals_id (by decide)
    · rintro lpath hmem ⟨m, hm, -, -, hne, -⟩
      rw [List.mem_singleton.mp hmem, List.mem_singleton.mp hm] at hne
      exact absurd (by decide) hne
  have hset : Sound id db "h".toList s (.set lmap other) := by
    have hpaths : ∀ hpath ∈ storeMap id db "h".toList lmap, hpath = "x.y".toList := by
      intro hpath hmem
      exact List.mem_singleton.mp (mem_keys.mp hmem)
    refine ⟨?_, fun _ => ⟨?_, ?_, ?_, ?_⟩⟩
    · intro hpath hmem
      rw [hpaths hpath hmem]
      decide
    · intro hpath hmem
      apply hfaithful
      rw [hpaths hpath hmem]
      decide
    · intro hpath v _ hold
      cases (lookup_empty hpath).symm.trans hold
    · intro _
      exact ⟨⟨0, ["a".toList], ["a.z".toList]⟩, by decide, "x.y".toList, by decide, "a.y".toList,
        by decide, ("a".toList, "y".toList), by decide, by decide⟩
    · intro hook hactive _ lpath hassoc
      rw [List.mem_singleton.mp hactive] at hassoc
      rw [List.mem_singleton.mp hassoc]
      exact .inl fun hold => absurd hold (by decide)
  have hruns : Runs (step id db "h".toList)
      (fun s e => Enabled s e ∧ Sound id db "h".toList s e) init s :=
    Runs.tail (.refl init) (e := Event.register ["a".toList] ["a.z".toList])
      ⟨trivial, hregister⟩
  exact notifications_exact numerals_id hruns (.set lmap other) ⟨trivial, hset⟩

/-- A hook on the mount point of the root of the store is unregistered: the hook above the mount
point is no longer called. -/
theorem unregister_stops_other_hook :
    ¬ ∀ (canon : Str → Str), Numerals canon → ∀ (files : List MapFile) (db : List Mount),
      build files = .ok db → ∀ (ram : Str) (s : State Nat),
      Runs (step canon db ram) Enabled init s →
      ∀ (lmap : List (Str × Value Nat)) (other : Str → Str → Reply Nat),
        Exact canon db ram s (step canon db ram s (.set lmap other)) (storeMap canon db ram lmap)
          other := by
  intro hall
  let db : List Mount := [⟨"a".toList, "h".toList, []⟩]
  let es : List (Event Nat) := [.register [[]] [], .register ["a".toList] [],
    .unregister ⟨1, ["a".toList], []⟩]
  have hruns : Runs (step id db "h".toList) Enabled init
      (es.foldl (step id db "h".toList) init) :=
    Along.runs ⟨trivial, trivial, by show Hook.mk 1 ["a".toList] [] ∈ made _; decide, trivial⟩
  have hexact := hall id numerals_id [⟨"f.map", ["treemgr h".toList, "a = ".toList]⟩] db rfl
    "h".toList _ hruns [("a.x".toList, .val 1)] fun _ _ => .nothing
  have hcalled := (hexact.called ⟨0, [[]], []⟩).mpr ⟨by decide, "a.x".toList, .val 1,
    ⟨by decide, "x".toList, by decide, by decide, by decide⟩, ([], "a.x".toList), by decide,
    by decide⟩
  exact absurd hcalled (by decide)

end Mihini.Treemgr
