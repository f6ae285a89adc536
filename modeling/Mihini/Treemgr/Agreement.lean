import Mathlib.Algebra.GroupWithZero.Nat
import Mathlib.Data.List.Pairwise
import Mathlib.Data.List.TakeWhile
import Mihini.Treemgr.Mapping

/-!
# Logical paths and paths of handlers

When the two translations agree with what the lines of the map files say.
-/

namespace Mihini.Treemgr

open Mihini.Path Option

section

variable (canon : Str → Str)

def Mount.node (m : Mount) : List Str := segments canon m.lpath

def trimEnd (s : Str) : Str := (s.reverse.dropWhile isSpace).reverse

def Mount.target (m : Mount) : List Str := segments canon (trimEnd m.hpath)

def Mount.Above (m : Mount) (lpath : Str) (rest : List Str) : Prop :=
  segments canon lpath = m.node canon ++ rest

/-- Each logical path is translated through the deepest mount point above it, and a path of a
handler into the logical paths, each once, that are translated into it. -/
structure Agree (db : List Mount) : Prop where
  down : ∀ lpath, IsPath canon lpath → ∀ m ∈ db, ∀ rest, m.Above canon lpath rest →
    (∀ m' ∈ db, ∀ rest', m'.Above canon lpath rest' →
      (m'.node canon).length ≤ (m.node canon).length) →
    translation canon db lpath = some (m.name, concat (m.target canon ++ rest))
  outside : ∀ lpath, IsPath canon lpath → (∀ m ∈ db, ∀ rest, ¬ m.Above canon lpath rest) →
    translation canon db lpath = none
  once : ∀ name hpath, ':' ∉ name → IsPath canon hpath → (hpath2lpath canon db name hpath).Nodup
  up : ∀ name hpath, ':' ∉ name → IsPath canon hpath → ∀ lpath,
    lpath ∈ hpath2lpath canon db name hpath ↔
      clean canon lpath = lpath ∧ translation canon db lpath = some (name, clean canon hpath)

def Mount.Live (m : Mount) : Prop := clean canon m.lpath = m.lpath

/-- The lines are written in normal form, no mount point lies at another one or below it, and the
name of a handler has no colon.  The lines whose logical path is not in normal form are of no
effect, and say nothing that another line does not say. -/
structure Regular (db : List Mount) : Prop where
  name : ∀ m ∈ db, m.Live canon → ':' ∉ m.name
  hpath : ∀ m ∈ db, m.Live canon → trimEnd m.hpath = m.hpath ∧ clean canon m.hpath = m.hpath
  apart : ∀ m ∈ db, m.Live canon → ∀ m' ∈ db, m'.Live canon →
    m.node canon <+: m'.node canon → m = m'
  unread : ∀ m ∈ db, ¬ m.Live canon → ∀ name hpath, ':' ∉ name →
    m.key = name ++ ':' :: hpath → clean canon hpath ≠ hpath
  redundant : ∀ m ∈ db, ¬ m.Live canon → IsPath canon m.lpath →
    ∃ m' ∈ db, m'.Live canon ∧ m.name = m'.name ∧
      ∃ rest, m.node canon = m'.node canon ++ rest ∧
        concat (m.target canon) = concat (m'.target canon ++ rest)

end

/-! ## Looking up -/

theorem findSome?_downto {α β : Type} {g : Nat → α} {f : α → Option β} {b : β} {n k : Nat}
    (hk : k ≤ n) (hhit : f (g k) = some b) (hmiss : ∀ j, k < j → j ≤ n → f (g j) = none) :
    ((List.range (n + 1)).reverse.map g).findSome? f = some b := by
  induction n with
  | zero =>
    obtain rfl : k = 0 := Nat.le_zero.mp hk
    simp [hhit]
  | succ n ih =>
    rw [List.range_succ, List.reverse_append, List.reverse_singleton, List.singleton_append,
      List.map_cons, List.findSome?_cons]
    by_cases heq : k = n + 1
    · subst heq
      rw [hhit]
    · rw [hmiss (n + 1) (by omega) (Nat.le_refl _)]
      exact ih (by omega) fun j hj hjn => hmiss j hj (by omega)

theorem find_lpath {db : List Mount} (hnd : (db.map Mount.lpath).Nodup) {m : Mount}
    (hm : m ∈ db) : (db.find? fun m' => m'.lpath = m.lpath) = some m := by
  cases hfind : db.find? fun m' => m'.lpath = m.lpath with
  | none => exact absurd (decide_eq_true rfl) (List.find?_eq_none.mp hfind m hm)
  | some m' =>
    have heq : m'.lpath = m.lpath := by simpa using List.find?_some hfind
    rw [List.inj_on_of_nodup_map hnd (List.mem_of_find?_eq_some hfind) hm heq]

theorem key_inj {name name' hpath hpath' : Str} (hname : ':' ∉ name) (hname' : ':' ∉ name')
    (h : name ++ ':' :: hpath = name' ++ ':' :: hpath') : name = name' ∧ hpath = hpath' := by
  have hcut : ∀ (name hpath : Str), ':' ∉ name →
      (name ++ ':' :: hpath).takeWhile (· != ':') = name := by
    intro name hpath hname
    rw [List.takeWhile_append_of_pos]
    · simp
    · intro c hc
      simpa using fun heq : c = ':' => hname (heq ▸ hc)
  have heq : name = name' := by rw [← hcut name hpath hname, h, hcut name' hpath' hname']
  subst heq
  exact ⟨rfl, List.cons_inj_right ':' |>.mp (List.append_cancel_left h)⟩

theorem readKey_eq_some {line name hpath : Str} (h : readKey line = some (name, hpath)) :
    ':' ∉ name ∧ line = name ++ ':' :: hpath := by
  rw [readKey] at h
  split at h
  · exact absurd h (by rintro ⟨⟩)
  · next c rest hdrop =>
    dsimp only at h
    split at h
    · exact absurd h (by rintro ⟨⟩)
    obtain ⟨rfl, rfl⟩ := Prod.mk.inj (Option.some.inj h)
    constructor
    · intro hmem
      have := List.mem_takeWhile_imp hmem
      simp at this
    · have hc : c = ':' := by
        have := List.head?_dropWhile_not (fun c => c != ':') line
        rw [hdrop] at this
        simpa using this
      subst hc
      rw [← hdrop, List.takeWhile_append_dropWhile]

section

variable {canon : Str → Str} {db : List Mount}

theorem lpath2hpath_hit {lpath name hpath : Str} {a b : List Str}
    (hsplit : segments canon lpath = a ++ b) (hhit : l2h db (concat a) = some (name, hpath))
    (hmiss : ∀ a' b', segments canon lpath = a' ++ b' → a.length < a'.length →
      l2h db (concat a') = none) :
    lpath2hpath canon db lpath = some ⟨name, concat a, hpath, concat b⟩ := by
  have hlen : a.length ≤ (segments canon lpath).length := by
    rw [hsplit, List.length_append]
    omega
  refine findSome?_downto hlen ?_ ?_
  · rw [hsplit, List.take_left, List.drop_left, hhit]
    rfl
  · intro j hj hjn
    dsimp only
    rw [hmiss _ _ (List.take_append_drop j _).symm (by rw [List.length_take]; omega)]
    rfl

theorem hit_of_lpath2hpath {lpath : Str} {r : L2H} (h : lpath2hpath canon db lpath = some r) :
    ∃ a b, segments canon lpath = a ++ b ∧ l2h db (concat a) = some (r.handlerName, r.hpath) ∧
      r.relpath = concat b := by
  obtain ⟨x, hx, hr⟩ := List.exists_of_findSome?_eq_some h
  obtain ⟨a, b, hab, rfl⟩ := mem_gsplit.mp hx
  obtain ⟨y, hy, rfl⟩ := map_eq_some_iff.mp hr
  exact ⟨a, b, hab, hy, rfl⟩

theorem mem_l2h {lpath name hpath : Str} (h : l2h db lpath = some (name, hpath)) :
    ∃ m ∈ db, m.lpath = lpath ∧ readKey m.key = some (name, hpath) := by
  obtain ⟨m, hm, hkey⟩ := bind_eq_some_iff.mp h
  exact ⟨m, List.mem_of_find?_eq_some hm, by simpa using List.find?_some hm, hkey⟩

theorem mem_hpath2lpath {name hpath lpath : Str} :
    lpath ∈ hpath2lpath canon db name hpath ↔
      ∃ a b, segments canon hpath = a ++ b ∧ ∃ m ∈ db, m.key = name ++ ':' :: concat a ∧
        lpath = concat [m.lpath, concat b] := by
  rw [hpath2lpath, List.mem_flatMap]
  constructor
  · intro h
    obtain ⟨x, hx, hmem⟩ := h
    obtain ⟨a, b, hab, rfl⟩ := mem_gsplit.mp hx
    obtain ⟨lmount, hl, rfl⟩ := List.mem_map.mp hmem
    obtain ⟨m, hm, rfl⟩ := List.mem_map.mp hl
    obtain ⟨hdb, hkey⟩ := List.mem_filter.mp hm
    exact ⟨a, b, hab, m, hdb, by simpa using hkey, rfl⟩
  · intro h
    obtain ⟨a, b, hab, m, hm, hkey, rfl⟩ := h
    refine ⟨(concat a, concat b), mem_gsplit.mpr ⟨a, b, hab, rfl⟩, List.mem_map.mpr ⟨m.lpath, ?_, rfl⟩⟩
    exact List.mem_map.mpr ⟨m, List.mem_filter.mpr ⟨hm, by simpa using hkey⟩, rfl⟩

/-- Where a path is looked up, only lines in normal form are found. -/
theorem live_of_lpath {m : Mount} {a : List Str} (ha : ∀ s ∈ a, Segment canon s)
    (h : m.lpath = concat a) : m.Live canon ∧ m.node canon = a := by
  constructor
  · rw [Mount.Live, h, clean_concat ha]
  · rw [Mount.node, h, segments_concat ha]

theorem Mount.Live.concat_node {m : Mount} (h : m.Live canon) : concat (m.node canon) = m.lpath := h

/-! ## Lines in normal form agree -/

section

variable (hcanon : Numerals canon) (hnd : (db.map Mount.lpath).Nodup)
  (hnames : ∀ m ∈ db, m.name ≠ [])

include hcanon in
theorem Mount.Live.segments {m : Mount} (h : m.Live canon) :
    ∀ s ∈ m.node canon, Segment canon s := isPath_of_clean hcanon h

include hcanon in
theorem Regular.target {m : Mount} (hreg : Regular canon db) (hm : m ∈ db)
    (hlive : m.Live canon) :
    concat (m.target canon) = m.hpath ∧ ∀ s ∈ m.target canon, Segment canon s := by
  obtain ⟨htrim, hclean⟩ := hreg.hpath m hm hlive
  rw [Mount.target, htrim]
  exact ⟨hclean, isPath_of_clean hcanon hclean⟩

include hnd hnames in
theorem Regular.l2h (hreg : Regular canon db) {m : Mount} (hm : m ∈ db) (hlive : m.Live canon) :
    l2h db m.lpath = some (m.name, m.hpath) := by
  rw [Treemgr.l2h, find_lpath hnd hm, bind_some, Mount.key,
    readKey_of_colon (hreg.name m hm hlive), if_neg (hnames m hm)]

include hcanon hnd hnames in
/-- A path is translated through a line in normal form above it. -/
theorem Regular.translation (hreg : Regular canon db) {m : Mount} (hm : m ∈ db)
    (hlive : m.Live canon) {lpath : Str} (hpath : IsPath canon lpath) {rest : List Str}
    (habove : m.Above canon lpath rest) :
    translation canon db lpath = some (m.name, concat (m.target canon ++ rest)) := by
  have hit : Treemgr.l2h db (concat (m.node canon)) = some (m.name, m.hpath) := by
    rw [hlive.concat_node]
    exact hreg.l2h hnd hnames hm hlive
  rw [Treemgr.translation, lpath2hpath_hit habove hit, map_some, concat_append,
    (hreg.target hcanon hm hlive).1]
  intro a' b' hsplit hlen
  cases hl : Treemgr.l2h db (concat a') with
  | none => rfl
  | some r =>
    obtain ⟨m', hm', hlpath, -⟩ := mem_l2h hl
    have ha' : ∀ s ∈ a', Segment canon s := fun s hs =>
      hpath s (by rw [hsplit]; exact List.mem_append_left _ hs)
    obtain ⟨hlive', hnode⟩ := live_of_lpath ha' hlpath
    have hpfx : m.node canon <+: m'.node canon := by
      rw [hnode]
      exact List.prefix_of_prefix_length_le ⟨rest, habove.symm⟩ ⟨b', hsplit.symm⟩ hlen.le
    obtain rfl := hreg.apart m hm hlive m' hm' hlive' hpfx
    rw [hnode] at hlen
    exact absurd hlen (Nat.lt_irrefl _)

include hcanon in
/-- What is translated has a line in normal form above it. -/
theorem Regular.of_translation (hreg : Regular canon db) {lpath : Str}
    (hpath : IsPath canon lpath) {x : Str × Str} (h : Treemgr.translation canon db lpath = some x) :
    ∃ m ∈ db, m.Live canon ∧ ∃ rest, m.Above canon lpath rest ∧
      x = (m.name, concat (m.target canon ++ rest)) := by
  obtain ⟨r, hr, rfl⟩ := map_eq_some_iff.mp h
  obtain ⟨a, b, hsplit, hhit, hrel⟩ := hit_of_lpath2hpath hr
  obtain ⟨m, hm, hlpath, hkey⟩ := mem_l2h hhit
  have ha : ∀ s ∈ a, Segment canon s := fun s hs =>
    hpath s (by rw [hsplit]; exact List.mem_append_left _ hs)
  obtain ⟨hlive, hnode⟩ := live_of_lpath ha hlpath
  obtain ⟨hcolon, heq⟩ := readKey_eq_some hkey
  obtain ⟨hname, hhpath⟩ := key_inj (hreg.name m hm hlive) hcolon heq
  refine ⟨m, hm, hlive, b, ?_, ?_⟩
  · rw [Mount.Above, hnode]
    exact hsplit
  · rw [concat_append, (hreg.target hcanon hm hlive).1, hname, hhpath, hrel]

theorem Regular.of_key (hreg : Regular canon db) {m : Mount} (hm : m ∈ db) {name : Str}
    (hname : ':' ∉ name) {a : List Str} (ha : ∀ s ∈ a, Segment canon s)
    (hkey : m.key = name ++ ':' :: concat a) :
    m.Live canon ∧ m.name = name ∧ m.target canon = a := by
  have hlive : m.Live canon := by
    by_contra hdead
    exact hreg.unread m hm hdead name (concat a) hname hkey (clean_concat ha)
  obtain ⟨rfl, hhpath⟩ := key_inj (hreg.name m hm hlive) hname hkey
  refine ⟨hlive, rfl, ?_⟩
  rw [Mount.target, (hreg.hpath m hm hlive).1, hhpath, segments_concat ha]

include hcanon in
/-- Different lines lead to different logical paths. -/
theorem Regular.apart_append (hreg : Regular canon db) {m m' : Mount} (hm : m ∈ db)
    (hlive : m.Live canon) (hm' : m' ∈ db) (hlive' : m'.Live canon) {b b' : List Str}
    (hb : ∀ s ∈ b, Segment canon s) (hb' : ∀ s ∈ b', Segment canon s)
    (h : concat [m.lpath, concat b] = concat [m'.lpath, concat b']) : m = m' := by
  have hall : ∀ (m : Mount) (b : List Str), m.Live canon → (∀ s ∈ b, Segment canon s) →
      ∀ s ∈ m.node canon ++ b, Segment canon s := by
    intro m b hlive hb s hs
    rcases List.mem_append.mp hs with hs | hs
    · exact hlive.segments hcanon s hs
    · exact hb s hs
  have heq : m.node canon ++ b = m'.node canon ++ b' := by
    apply concat_inj (hall m b hlive hb) (hall m' b' hlive' hb')
    rw [concat_append, concat_append, hlive.concat_node, hlive'.concat_node, h]
  rcases Nat.le_total (m.node canon).length (m'.node canon).length with hlen | hlen
  · exact hreg.apart m hm hlive m' hm' hlive'
      (List.prefix_of_prefix_length_le ⟨b, rfl⟩ ⟨b', heq.symm⟩ hlen)
  · exact (hreg.apart m' hm' hlive' m hm hlive
      (List.prefix_of_prefix_length_le ⟨b', rfl⟩ ⟨b, heq⟩ hlen)).symm

include hcanon hnd in
theorem Regular.once (hreg : Regular canon db) {name hpath : Str} (hname : ':' ∉ name)
    (hpathok : IsPath canon hpath) : (hpath2lpath canon db name hpath).Nodup := by
  -- The parts of a split are names of nodes, and a line found under the first part has it as
  -- its target.
  have hparts : ∀ x ∈ gsplit canon hpath, ∃ a b, x = (concat a, concat b) ∧
      (∀ s ∈ a, Segment canon s) ∧ (∀ s ∈ b, Segment canon s) := by
    intro x hx
    obtain ⟨a, b, hab, rfl⟩ := mem_gsplit.mp hx
    refine ⟨a, b, rfl, fun s hs => hpathok s ?_, fun s hs => hpathok s ?_⟩
    · rw [hab]
      exact List.mem_append_left _ hs
    · rw [hab]
      exact List.mem_append_right _ hs
  have hfound : ∀ x ∈ gsplit canon hpath, ∀ m ∈ db.filter fun m => m.key = name ++ ':' :: x.1,
      m ∈ db ∧ m.Live canon ∧ concat (m.target canon) = x.1 := by
    intro x hx m hm
    obtain ⟨a, b, rfl, ha, -⟩ := hparts x hx
    obtain ⟨hdb, hkey⟩ := List.mem_filter.mp hm
    obtain ⟨hlive, -, htarget⟩ := hreg.of_key hdb hname ha (by simpa using hkey)
    exact ⟨hdb, hlive, by rw [htarget]⟩
  have hsame : ∀ x ∈ gsplit canon hpath, ∀ y ∈ gsplit canon hpath,
      ∀ m ∈ db.filter fun m => m.key = name ++ ':' :: x.1,
      ∀ m' ∈ db.filter fun m => m.key = name ++ ':' :: y.1,
      concat [m.lpath, x.2] = concat [m'.lpath, y.2] → m = m' := by
    intro x hx y hy m hm m' hm' heq
    obtain ⟨hdb, hlive, -⟩ := hfound x hx m hm
    obtain ⟨hdb', hlive', -⟩ := hfound y hy m' hm'
    obtain ⟨a, b, rfl, -, hb⟩ := hparts x hx
    obtain ⟨a', b', rfl, -, hb'⟩ := hparts y hy
    exact hreg.apart_append hcanon hdb hlive hdb' hlive' hb hb' heq
  have hsplits : (gsplit canon hpath).Pairwise fun x y => x.1 ≠ y.1 := by
    rw [gsplit, List.pairwise_map, List.pairwise_reverse]
    refine (List.pairwise_lt_range).imp_of_mem ?_
    intro i j hi hj hij heq
    have hsub : ∀ k, ∀ s ∈ (segments canon hpath).take k, Segment canon s := fun k s hs =>
      hpathok s (List.mem_of_mem_take hs)
    have := congrArg List.length (concat_inj (hsub j) (hsub i) heq)
    rw [List.length_take, List.length_take] at this
    rw [List.mem_range] at hi hj
    omega
  rw [hpath2lpath, List.nodup_flatMap]
  constructor
  · intro x hx
    rw [h2l, List.map_map]
    refine List.Nodup.map_on ?_ (hnd.of_map.filter _)
    exact fun m hm m' hm' heq => hsame x hx x hx m hm m' hm' heq
  · refine hsplits.imp_of_mem ?_
    intro x y hx hy hne l hl hl'
    obtain ⟨lmount, hlmount, rfl⟩ := List.mem_map.mp hl
    obtain ⟨lmount', hlmount', heq⟩ := List.mem_map.mp hl'
    obtain ⟨m, hm, rfl⟩ := List.mem_map.mp hlmount
    obtain ⟨m', hm', rfl⟩ := List.mem_map.mp hlmount'
    obtain rfl := hsame y hy x hx m' hm' m hm heq
    apply hne
    rw [← (hfound x hx m' hm).2.2, ← (hfound y hy m' hm').2.2]

include hcanon hnd hnames in
theorem Regular.agree (hreg : Regular canon db) : Agree canon db where
  down lpath hpath m hm rest habove _ := by
    by_cases hlive : m.Live canon
    · exact hreg.translation hcanon hnd hnames hm hlive hpath habove
    have hnode : IsPath canon m.lpath := fun s hs => hpath s (by
      rw [show segments canon lpath = _ from habove]
      exact List.mem_append_left _ hs)
    obtain ⟨m', hm', hlive', hname, rest', hrest, htarget⟩ := hreg.redundant m hm hlive hnode
    have habove' : m'.Above canon lpath (rest' ++ rest) := by
      rw [Mount.Above, ← List.append_assoc, ← hrest]
      exact habove
    rw [hreg.translation hcanon hnd hnames hm' hlive' hpath habove', hname,
      ← List.append_assoc, concat_append_congr htarget]
  outside lpath hpath hout := by
    cases h : Treemgr.translation canon db lpath with
    | none => rfl
    | some x =>
      obtain ⟨m, hm, -, rest, habove, -⟩ := hreg.of_translation hcanon hpath h
      exact absurd habove (hout m hm rest)
  once _ _ hname hpath := hreg.once hcanon hnd hname hpath
  up name hpath hname hpathok lpath := by
    rw [mem_hpath2lpath]
    constructor
    · intro h
      obtain ⟨a, b, hab, m, hm, hkey, rfl⟩ := h
      have ha : ∀ s ∈ a, Segment canon s := fun s hs =>
        hpathok s (by rw [hab]; exact List.mem_append_left _ hs)
      have hb : ∀ s ∈ b, Segment canon s := fun s hs =>
        hpathok s (by rw [hab]; exact List.mem_append_right _ hs)
      obtain ⟨hlive, hname', htarget⟩ := hreg.of_key hm hname ha hkey
      have hnode : ∀ s ∈ m.node canon ++ b, Segment canon s := by
        intro s hs
        rcases List.mem_append.mp hs with hs | hs
        · exact hlive.segments hcanon s hs
        · exact hb s hs
      rw [← hlive.concat_node, ← concat_append]
      refine ⟨clean_concat hnode, ?_⟩
      rw [hreg.translation hcanon hnd hnames hm hlive (isPath_concat hnode)
        (segments_concat hnode), hname', htarget, ← hab]
      rfl
    · intro h
      obtain ⟨hclean, htrans⟩ := h
      obtain ⟨m, hm, hlive, rest, habove, heq⟩ :=
        hreg.of_translation hcanon (isPath_of_clean hcanon hclean) htrans
      obtain ⟨rfl, hhpath⟩ := Prod.mk.inj heq
      obtain ⟨htarget, hsegs⟩ := hreg.target hcanon hm hlive
      have hall : ∀ s ∈ m.target canon ++ rest, Segment canon s := by
        intro s hs
        rcases List.mem_append.mp hs with hs | hs
        · exact hsegs s hs
        · exact isPath_of_clean hcanon hclean s (by
            rw [show segments canon lpath = _ from habove]
            exact List.mem_append_right _ hs)
      refine ⟨m.target canon, rest, concat_inj hpathok hall hhpath, m, hm, ?_, ?_⟩
      · rw [htarget]
        rfl
      · rw [← hclean, clean, show segments canon lpath = _ from habove, concat_append,
          hlive.concat_node]

end

/-! ## What agrees is in normal form -/

theorem countP_intercalate (l : List Str) :
    (['.'].intercalate l).countP isSpace = (l.map fun s => s.countP isSpace).sum := by
  induction l with
  | nil => rfl
  | cons s l ih =>
    cases l with
    | nil => simp
    | cons s' l =>
      rw [List.intercalate_cons_cons, List.countP_append, List.countP_append, ih, List.map_cons,
        List.sum_cons]
      rfl

theorem countP_clean (hcanon : Numerals canon) (path : Str) :
    (clean canon path).countP isSpace ≤ path.countP isSpace := by
  have hone : ∀ s : Str, (canon s).countP isSpace ≤ s.countP isSpace := by
    intro s
    rcases hcanon.spaces s with h | h
    · rw [h]
    · rw [List.countP_eq_zero.mpr]
      · exact Nat.zero_le _
      · intro c hc
        rw [h c hc]
        exact nofun
  have hall : ∀ ps : List Str,
      ((((ps.filter fun elt => !elt.isEmpty).map canon).filter fun v => !v.isEmpty).map
        fun s => s.countP isSpace).sum ≤ (ps.map fun s => s.countP isSpace).sum := by
    intro ps
    induction ps with
    | nil => exact Nat.le_refl 0
    | cons s ps ih =>
      rw [List.map_cons, List.sum_cons, List.filter_cons]
      split
      · rw [List.map_cons, List.filter_cons]
        split
        · rw [List.map_cons, List.sum_cons]
          exact Nat.add_le_add (hone s) ih
        · exact ih.trans (Nat.le_add_left _ _)
      · exact ih.trans (Nat.le_add_left _ _)
  have := hall (path.splitOn '.')
  rw [← countP_intercalate, ← countP_intercalate, List.intercalate_splitOn] at this
  exact this

theorem trimEnd_of_clean (hcanon : Numerals canon) {s : Str}
    (h : clean canon (trimEnd s) = s) : trimEnd s = s := by
  have happend : trimEnd s ++ (s.reverse.takeWhile isSpace).reverse = s := by
    rw [trimEnd, ← List.reverse_append, List.takeWhile_append_dropWhile, List.reverse_reverse]
  have hcount := countP_clean hcanon (trimEnd s)
  have hsum := congrArg (List.countP isSpace) happend
  rw [h] at hcount
  rw [List.countP_append, List.countP_reverse] at hsum
  have hspaces : (s.reverse.takeWhile isSpace) = [] := by
    rw [List.eq_nil_iff_forall_not_mem]
    intro c hc
    have hpos := List.countP_pos_iff.mpr ⟨c, hc, List.mem_takeWhile_imp hc⟩
    omega
  rw [hspaces, List.reverse_nil, List.append_nil] at happend
  exact happend

section

variable (hcanon : Numerals canon) (hnd : (db.map Mount.lpath).Nodup)
  (hnames : ∀ m ∈ db, m.name ≠ [])

theorem colon_notMem_of_translation {lpath : Str} {x : Str × Str}
    (h : translation canon db lpath = some x) : ':' ∉ x.1 := by
  obtain ⟨r, hr, rfl⟩ := map_eq_some_iff.mp h
  obtain ⟨a, b, -, hhit, -⟩ := hit_of_lpath2hpath hr
  obtain ⟨m, -, -, hkey⟩ := mem_l2h hhit
  exact (readKey_eq_some hkey).1

theorem Agree.translation_self (h : Agree canon db) {m : Mount} (hm : m ∈ db)
    (hpath : IsPath canon m.lpath) :
    translation canon db m.lpath = some (m.name, concat (m.target canon)) := by
  have habove : m.Above canon m.lpath [] := (List.append_nil _).symm
  rw [h.down m.lpath hpath m hm [] habove, List.append_nil]
  intro m' _ rest' habove'
  have := congrArg List.length (show m.node canon = m'.node canon ++ rest' from habove')
  rw [List.length_append] at this
  omega

include hcanon hnd hnames in
theorem Agree.line (h : Agree canon db) {m : Mount} (hm : m ∈ db) (hlive : m.Live canon) :
    ':' ∉ m.name ∧ trimEnd m.hpath = m.hpath ∧ clean canon m.hpath = m.hpath := by
  have hself := h.translation_self hm (isPath_of_clean hcanon hlive)
  have hname := colon_notMem_of_translation hself
  have hit : l2h db (concat (m.node canon)) = some (m.name, m.hpath) := by
    rw [hlive.concat_node, l2h, find_lpath hnd hm, bind_some, Mount.key,
      readKey_of_colon hname, if_neg (hnames m hm)]
  rw [translation, lpath2hpath_hit (List.append_nil _).symm hit, map_some] at hself
  · obtain ⟨-, hhpath⟩ := Prod.mk.inj (Option.some.inj hself)
    rw [concat_nil, concat_right_nil] at hhpath
    have htrim : trimEnd m.hpath = m.hpath := trimEnd_of_clean hcanon hhpath.symm
    refine ⟨hname, htrim, ?_⟩
    conv_lhs => rw [← htrim]
    exact hhpath.symm
  · intro a' b' hsplit hlen
    have := congrArg List.length (show m.node canon = a' ++ b' from hsplit)
    replace hlen : (m.node canon).length < a'.length := hlen
    rw [List.length_append] at this
    omega

include hcanon hnd hnames in
/-- What is below a mount point is found from there as well. -/
theorem Agree.apart (h : Agree canon db) {m m' : Mount} (hm : m ∈ db) (hlive : m.Live canon)
    (hm' : m' ∈ db) (hlive' : m'.Live canon) {s : List Str}
    (hs : m'.node canon = m.node canon ++ s) : m = m' := by
  obtain ⟨hname, htrim, hclean⟩ := h.line hcanon hnd hnames hm hlive
  obtain ⟨-, htrim', hclean'⟩ := h.line hcanon hnd hnames hm' hlive'
  have htarget : concat (m.target canon) = m.hpath := by
    rw [Mount.target, htrim]
    exact hclean
  have hsegs : ∀ t ∈ m.target canon ++ s, Segment canon t := by
    intro t ht
    rcases List.mem_append.mp ht with ht | ht
    · rw [Mount.target, htrim] at ht
      exact isPath_of_clean hcanon hclean t ht
    · exact hlive'.segments hcanon t (by rw [hs]; exact List.mem_append_right _ ht)
  have hpath := isPath_concat hsegs
  have hlpath : m'.lpath = concat [m.lpath, concat s] := by
    rw [← hlive'.concat_node, hs, concat_append, hlive.concat_node]
  -- The line of `m` reports the logical path of `m'`, which is thus translated into it; then the
  -- line of `m'` reports it as well.
  have hup := (h.up m.name _ hname hpath m'.lpath).mp (mem_hpath2lpath.mpr
    ⟨m.target canon, s, segments_concat hsegs, m, hm, by rw [htarget]; rfl, hlpath⟩)
  have hself := h.translation_self hm' (isPath_of_clean hcanon hlive')
  rw [hup.2] at hself
  obtain ⟨hname', hhpath'⟩ := Prod.mk.inj (Option.some.inj hself)
  rw [clean_concat hsegs] at hhpath'
  have hkey' : m'.key = m.name ++ ':' :: concat (m.target canon ++ s) := by
    rw [hhpath', Mount.target, htrim', hname']
    show m'.name ++ ':' :: m'.hpath = m'.name ++ ':' :: clean canon m'.hpath
    rw [hclean']
  cases s with
  | nil =>
    rw [List.append_nil] at hs
    apply List.inj_on_of_nodup_map hnd hm hm'
    rw [← hlive.concat_node, ← hlive'.concat_node, hs]
  | cons t s =>
    exfalso
    have hnodup := h.once m.name _ hname hpath
    rw [hpath2lpath, List.nodup_flatMap] at hnodup
    have hmem : ∀ {a b : List Str} {d : Mount}, m.target canon ++ t :: s = a ++ b → d ∈ db →
        d.key = m.name ++ ':' :: concat a → m'.lpath = concat [d.lpath, concat b] →
        m'.lpath ∈ (h2l db m.name (concat a)).map fun lmount => concat [lmount, concat b] := by
      intro a b d _ hd hkey heq
      refine List.mem_map.mpr ⟨d.lpath, List.mem_map.mpr ⟨d, ?_, rfl⟩, heq.symm⟩
      exact List.mem_filter.mpr ⟨hd, by simpa using hkey⟩
    have hin : ∀ {a b : List Str}, m.target canon ++ t :: s = a ++ b →
        (concat a, concat b) ∈ gsplit canon (concat (m.target canon ++ t :: s)) := fun hab =>
      mem_gsplit.mpr ⟨_, _, by rw [segments_concat hsegs]; exact hab, rfl⟩
    have hne : (concat (m.target canon), concat (t :: s)) ≠
        (concat (m.target canon ++ t :: s), concat []) := by
      intro heq
      have hts : ∀ x ∈ t :: s, Segment canon x := fun x hx =>
        hsegs x (List.mem_append_right _ hx)
      have hnone : ∀ x ∈ ([] : List Str), Segment canon x := fun x hx => absurd hx List.not_mem_nil
      exact List.cons_ne_nil t s (concat_inj hts hnone (Prod.mk.inj heq).2)
    have : Std.Symm (Function.onFun List.Disjoint fun x : Str × Str =>
        (h2l db m.name x.1).map fun lmount => concat [lmount, x.2]) := ⟨fun _ _ hd _ h h' =>
      hd h' h⟩
    have hdisjoint := hnodup.2.forall (hin rfl) (hin (List.append_nil _).symm) hne
    exact hdisjoint (hmem rfl hm (by rw [htarget]; rfl) hlpath)
      (hmem (List.append_nil _).symm hm' hkey' (by rw [concat_nil, concat_right_nil]))

include hcanon hnd hnames in
theorem Agree.regular (h : Agree canon db) : Regular canon db where
  name _ hm hlive := (h.line hcanon hnd hnames hm hlive).1
  hpath _ hm hlive := (h.line hcanon hnd hnames hm hlive).2
  apart _ hm hlive _ hm' hlive' hpfx := by
    obtain ⟨s, hs⟩ := hpfx
    exact h.apart hcanon hnd hnames hm hlive hm' hlive' hs.symm
  unread m hm hdead name hpath hname hkey hclean := by
    -- The path of the handler would be translated into the logical path as the line has it.
    have hpathok := isPath_of_clean hcanon hclean
    have hmem : m.lpath ∈ hpath2lpath canon db name hpath := by
      refine mem_hpath2lpath.mpr ⟨segments canon hpath, [], (List.append_nil _).symm, m, hm, ?_, ?_⟩
      · rw [hkey, show concat (segments canon hpath) = hpath from hclean]
      · rw [concat_nil, concat_right_nil]
    exact hdead ((h.up name hpath hname hpathok m.lpath).mp hmem).1
  redundant m hm hdead hpath := by
    have hself := h.translation_self hm hpath
    obtain ⟨r, hr, hx⟩ := map_eq_some_iff.mp hself
    obtain ⟨a, b, hsplit, hhit, hrel⟩ := hit_of_lpath2hpath hr
    obtain ⟨m', hm', hlpath, hkey⟩ := mem_l2h hhit
    have ha : ∀ s ∈ a, Segment canon s := fun s hs =>
      hpath s (by rw [hsplit]; exact List.mem_append_left _ hs)
    obtain ⟨hlive', hnode⟩ := live_of_lpath ha hlpath
    obtain ⟨hname', htrim', hclean'⟩ := h.line hcanon hnd hnames hm' hlive'
    obtain ⟨hcolon, heq⟩ := readKey_eq_some hkey
    obtain ⟨hname, hhpath⟩ := key_inj hname' hcolon heq
    obtain ⟨hn, ht⟩ := Prod.mk.inj hx
    refine ⟨m', hm', hlive', by rw [hname, ← hn], b, by rw [hnode]; exact hsplit, ?_⟩
    rw [← ht, ← hhpath, hrel, concat_append, Mount.target, htrim']
    show _ = concat [clean canon m'.hpath, concat b]
    rw [hclean']

end

/-- What is compiled agrees exactly when its lines are in normal form. -/
theorem build_agree_iff {canon : Str → Str} (hcanon : Numerals canon) {files : List MapFile}
    {db : List Mount} (h : build files = .ok db) : Agree canon db ↔ Regular canon db :=
  ⟨fun hagree => hagree.regular hcanon (build_nodup h) (build_names h),
    fun hreg => hreg.agree hcanon (build_nodup h) (build_names h)⟩

/-- One mount point. -/
theorem build_agree_iff_one :
    Agree id [⟨"a".toList, "h".toList, "x".toList⟩] ↔
      Regular id [⟨"a".toList, "h".toList, "x".toList⟩] := by
  have hbuild : build [⟨"f.map", ["treemgr h".toList, "a = x".toList]⟩] =
      .ok [⟨"a".toList, "h".toList, "x".toList⟩] := rfl
  exact build_agree_iff numerals_id hbuild

/-- A mount point below another one: what is notified under the path that it hides is reported
under a logical path from which something else is read. -/
theorem hidden_path_reported :
    ¬ ∀ (canon : Str → Str), Numerals canon → ∀ (files : List MapFile) (db : List Mount),
      build files = .ok db → Agree canon db := by
  intro hall
  have hagree := hall id numerals_id
    [⟨"f.map", ["treemgr h".toList, "a = x".toList, "a.b = y".toList]⟩]
    [⟨"a".toList, "h".toList, "x".toList⟩, ⟨"a.b".toList, "h".toList, "y".toList⟩] rfl
  have hpath : IsPath id "x.b".toList := by
    intro s hs
    have hsegs : segments id "x.b".toList = [['x'], ['b']] := by decide
    rw [hsegs] at hs
    rcases List.mem_pair.mp hs with rfl | rfl
    · exact ⟨by decide, by decide, rfl⟩
    · exact ⟨by decide, by decide, rfl⟩
  have hup := (hagree.up "h".toList "x.b".toList (by decide) hpath "a.b".toList).mp (by decide)
  exact absurd hup.2 (by decide)

end

end Mihini.Treemgr
