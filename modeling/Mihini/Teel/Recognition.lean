import Mathlib.Data.List.Dedup
import Mathlib.Data.List.TakeWhile
import Mihini.Teel.KeySeq

/-!
# Recognition of key sequences

The search of `teel_run` compares the current byte only.  It is right about a byte that leads on to a
sequence, by the order of the table.  A byte that leads to none may be taken for one of a sequence
further down, which does not begin with the bytes before.
-/

namespace Mihini.Teel.KeySeq

open Mihini.Lib List
open Mihini.Lib.Cut (Segment Begun Shortest Exact Code cut cut_cases)

/-! ## The order of the table -/

theorem compareseq_cons (x y : Nat) (a b : List Nat) :
    compareseq (x :: a) (y :: b) = if x = y then compareseq a b else (x : Int) - y := by
  have hmin : min (a.length + 1) (b.length + 1) = min a.length b.length + 1 := by omega
  rw [compareseq, length_cons, length_cons, hmin, take_succ_cons, take_succ_cons]
  simp only [memcmp]
  by_cases hxy : x = y
  · simp only [hxy, if_true]
    rw [compareseq]
    split <;> omega
  · simp only [hxy, if_false]
    rw [if_neg (by omega)]

theorem compareseq_self (a : List Nat) : compareseq a a = 0 := by
  induction a with
  | nil => rfl
  | cons x a ih => rw [compareseq_cons, if_pos rfl, ih]

theorem compareseq_nil (x : Nat) (a : List Nat) : ¬ compareseq (x :: a) [] ≤ 0 := by
  rw [compareseq]
  simp only [length_nil, Nat.min_zero, take_zero, memcmp, if_true, length_cons]
  omega

theorem prefix_between {p high a low : List Nat} (hhigh : p <+: high) (hlow : p <+: low)
    (hle : compareseq low a ≤ 0) (hle' : compareseq a high ≤ 0) : p <+: a := by
  induction p generalizing high a low with
  | nil => exact nil_prefix
  | cons x p ih =>
    obtain ⟨t, rfl⟩ := hhigh
    obtain ⟨t', rfl⟩ := hlow
    cases a with
    | nil => exact absurd hle (compareseq_nil x _)
    | cons y a =>
      rw [cons_append, compareseq_cons] at hle hle'
      by_cases hxy : x = y
      · subst hxy
        rw [if_pos rfl] at hle hle'
        exact cons_prefix_cons.mpr ⟨rfl, ih (prefix_append p t) (prefix_append p t') hle hle'⟩
      · rw [if_neg hxy] at hle
        rw [if_neg (Ne.symm hxy)] at hle'
        omega

theorem next_le {p a a' : List Nat} {x y : Nat} (h : compareseq (p ++ x :: a) (p ++ y :: a') ≤ 0) :
    x ≤ y := by
  induction p with
  | nil =>
    rw [nil_append, nil_append, compareseq_cons] at h
    split at h <;> omega
  | cons z p ih =>
    rw [cons_append, cons_append, compareseq_cons, if_pos rfl] at h
    exact ih h

/-- A sorted table in which no sequence is empty or begins with another one. -/
structure Keys (map : List KeySeqAction) : Prop where
  sorted : map.Pairwise fun a b => compareksa a b ≤ 0
  code : Code map KeySeqAction.seq

def startingAt (map : List KeySeqAction) (p : List Nat) : List KeySeqAction :=
  map.reverse.dropWhile fun a => !p.isPrefixOf a.seq

def SeqSearch.after (map : List KeySeqAction) (p : List Nat) : SeqSearch := ⟨p, startingAt map p⟩

theorem start_eq_after (map : List KeySeqAction) : SeqSearch.start map = .after map [] := by
  show SeqSearch.mk [] map.reverse = ⟨[], map.reverse.dropWhile fun _ => false⟩
  cases map.reverse <;> rfl

section

variable {p : List Nat} {b : Nat} {high w : KeySeqAction} {seqs : List KeySeqAction}

theorem char_append (a : KeySeqAction) {x : Nat} {t : List Nat} (h : a.seq = p ++ x :: t) :
    a.char p.length = x := by
  rw [KeySeqAction.char, h, getD_eq_getElem?_getD, List.getElem?_append_right (Nat.le_refl _),
    Nat.sub_self]
  rfl

/-- The walk stops at the last sequence that begins with the bytes read. -/
theorem search_match (hsorted : seqs.Pairwise fun a b => compareksa b a ≤ 0)
    (hhigh : ∀ a ∈ seqs, compareksa a high ≤ 0) (hp : p <+: high.seq)
    (hfree : ∀ a ∈ seqs, a.seq <+: w.seq → a = w) (hmem : w ∈ seqs) (hw : p ++ [b] <+: w.seq) :
    ∃ a below, seqs.dropWhile (fun a => !(p ++ [b]).isPrefixOf a.seq) = a :: below ∧
      p ++ [b] <+: a.seq ∧
      search p.length b seqs = if p.length + 1 = a.seqsize then .found a else .partly (a :: below) := by
  induction seqs with
  | nil => exact absurd hmem not_mem_nil
  | cons a seqs ih =>
    obtain ⟨hbelow, hrest⟩ := pairwise_cons.mp hsorted
    have hle : compareksa w a ≤ 0 := by
      rcases mem_cons.mp hmem with rfl | hmem'
      · exact le_of_eq (compareseq_self _)
      · exact hbelow w hmem'
    have hpw : p <+: w.seq := (prefix_append p [b]).trans hw
    have hpa : p <+: a.seq := prefix_between hp hpw hle (hhigh a mem_cons_self)
    obtain ⟨t, ht⟩ := hpa
    obtain ⟨t', ht'⟩ := hw
    rw [append_assoc, singleton_append] at ht'
    cases t with
    | nil =>
      -- The sequence would be a part of `w`.
      rw [append_nil] at ht
      obtain rfl := hfree a mem_cons_self (ht ▸ hpw)
      have hlength := congrArg List.length (ht.trans ht'.symm)
      rw [length_append, length_cons] at hlength
      omega
    | cons y t =>
      have hby : b ≤ y := next_le (p := p) (by rw [ht, ht']; exact hle)
      have hsize : p.length ≤ a.seqsize := by
        rw [KeySeqAction.seqsize, ← ht, length_append]
        omega
      rw [search, if_pos hsize, char_append a ht.symm]
      simp only
      rw [if_neg (by omega)]
      by_cases heq : b = y
      · subst heq
        have hpre : p ++ [b] <+: a.seq := ⟨t, by rw [append_assoc]; exact ht⟩
        refine ⟨a, seqs, ?_, hpre, if_pos rfl⟩
        rw [dropWhile_cons, isPrefixOf_iff_prefix.mpr hpre]
        rfl
      · have hpre : (p ++ [b]).isPrefixOf a.seq = false := by
          rw [Bool.eq_false_iff]
          intro htrue
          obtain ⟨u, hu⟩ := isPrefixOf_iff_prefix.mp htrue
          rw [append_assoc, ← ht] at hu
          exact heq (List.cons.inj (append_cancel_left hu)).1
        rw [if_neg heq, dropWhile_cons, hpre]
        refine ih hrest (fun x hx => hhigh x (mem_cons_of_mem _ hx))
          (fun x hx => hfree x (mem_cons_of_mem _ hx)) ?_
        rcases mem_cons.mp hmem with rfl | hmem'
        · rw [ isPrefixOf_iff_prefix.mpr ⟨t', by rw [append_assoc]; exact ht'⟩] at hpre
          nomatch hpre
        · exact hmem'

variable {map : List KeySeqAction} (hkeys : Keys map)
include hkeys

theorem startingAt_sorted (p : List Nat) :
    (startingAt map p).Pairwise fun a b => compareksa b a ≤ 0 :=
  (pairwise_reverse.mpr hkeys.sorted).sublist (dropWhile_sublist _)

omit hkeys in
theorem mem_startingAt (hw : w ∈ map) (hpre : p <+: w.seq) : w ∈ startingAt map p := by
  have hmem : w ∈ map.reverse := mem_reverse.mpr hw
  rw [← takeWhile_append_dropWhile (p := fun a : KeySeqAction => !p.isPrefixOf a.seq)
    (l := map.reverse)] at hmem
  rcases mem_append.mp hmem with htake | hdrop
  · have hnot := mem_takeWhile_imp htake
    rw [ isPrefixOf_iff_prefix.mpr hpre] at hnot
    nomatch hnot
  · exact hdrop

omit hkeys in
theorem startingAt_cons (hp : Begun map KeySeqAction.seq p) :
    ∃ high seqs, startingAt map p = high :: seqs ∧ p <+: high.seq := by
  obtain ⟨w, hw, hpre, -⟩ := hp
  have hmem := mem_startingAt hw hpre
  have hhead := List.head?_dropWhile_not (fun a : KeySeqAction => !p.isPrefixOf a.seq) map.reverse
  rw [startingAt] at hmem ⊢
  cases hcases : map.reverse.dropWhile fun a => !p.isPrefixOf a.seq with
  | nil =>
    rw [hcases] at hmem
    exact absurd hmem not_mem_nil
  | cons high seqs =>
    rw [hcases] at hhead
    exact ⟨high, seqs, rfl, isPrefixOf_iff_prefix.mp ((Bool.not_eq_false' _).mp hhead)⟩

omit hkeys in
theorem startingAt_concat (map : List KeySeqAction) (p : List Nat) (b : Nat) :
    startingAt map (p ++ [b]) =
      (startingAt map p).dropWhile fun a => !(p ++ [b]).isPrefixOf a.seq := by
  rw [startingAt, startingAt]
  conv_lhs =>
    rw [← takeWhile_append_dropWhile (p := fun a : KeySeqAction => !p.isPrefixOf a.seq)
      (l := map.reverse)]
  refine dropWhile_append_of_pos fun a ha => ?_
  have hnot := mem_takeWhile_imp ha
  rw [Bool.not_eq_true', Bool.eq_false_iff] at hnot ⊢
  intro htrue
  exact hnot ( isPrefixOf_iff_prefix.mpr
    ((prefix_append p [b]).trans ( isPrefixOf_iff_prefix.mp htrue)))

/-- The search for a byte that leads on to a sequence. -/
theorem search_after (hp : Begun map KeySeqAction.seq p) (hw : w ∈ map) (hpre : p ++ [b] <+: w.seq) :
    ∃ a below, startingAt map (p ++ [b]) = a :: below ∧ p ++ [b] <+: a.seq ∧
      search p.length b (startingAt map p) =
        if p.length + 1 = a.seqsize then .found a else .partly (a :: below) := by
  obtain ⟨high, seqs, hat, hhigh⟩ := startingAt_cons hp
  have hsorted := startingAt_sorted hkeys p
  have hmem := mem_startingAt hw ((prefix_append p [b]).trans hpre)
  have hsub : ∀ a ∈ startingAt map p, a ∈ map := fun a ha =>
    mem_reverse.mp (dropWhile_subset _ ha)
  rw [startingAt_concat]
  refine search_match hsorted (fun a ha => ?_) hhigh
    (fun a ha => hkeys.code.free a (hsub a ha) w hw) hmem hpre
  rw [hat] at ha hsorted
  rcases mem_cons.mp ha with rfl | ha'
  · exact le_of_eq (compareseq_self _)
  · exact (pairwise_cons.mp hsorted).1 a ha'

end

/-! ## The turns of the loop -/

section

variable {map : List KeySeqAction} (hkeys : Keys map) {p : List Nat} {b : Nat} {w : KeySeqAction}

theorem turn_after (hb : b < 128) : turn map (.after map p) b =
    match search p.length b (startingAt map p) with
    | .no => (.start map, some (.text (p ++ [b])))
    | .partly seqs => (⟨p ++ [b], seqs⟩, none)
    | .found seq => (.start map, some (.word seq)) := by
  rw [turn, if_neg (by omega)]
  rfl

include hkeys

theorem turn_word (hp : Begun map KeySeqAction.seq p) (hw : w ∈ map) (hseq : w.seq = p ++ [b])
    (hb : b < 128) : turn map (.after map p) b = (.start map, some (.word w)) := by
  obtain ⟨a, below, hat, hpre, hsearch⟩ :=
    search_after hkeys hp hw (b := b) (hseq ▸ prefix_rfl)
  have ha : a ∈ map := by
    refine mem_reverse.mp (dropWhile_subset _ (?_ : a ∈ startingAt map (p ++ [b])))
    rw [hat]
    exact mem_cons_self
  obtain rfl := hkeys.code.free w hw a ha (hseq ▸ hpre)
  have hsize : p.length + 1 = w.seqsize := by
    rw [KeySeqAction.seqsize, hseq, length_append, length_singleton]
  rw [turn_after hb, hsearch, if_pos hsize]

theorem turn_begun (hp : Begun map KeySeqAction.seq p) (hq : Begun map KeySeqAction.seq (p ++ [b]))
    (hb : b < 128) : turn map (.after map p) b = (.after map (p ++ [b]), none) := by
  obtain ⟨w, hw, hword, -⟩ := id hq
  obtain ⟨a, below, hat, hpre, hsearch⟩ := search_after hkeys hp hw hword
  have ha : a ∈ map := by
    refine mem_reverse.mp (dropWhile_subset _ (?_ : a ∈ startingAt map (p ++ [b])))
    rw [hat]
    exact mem_cons_self
  have hsize : p.length + 1 ≠ a.seqsize := by
    intro hsize
    have heq : p ++ [b] = a.seq := hpre.eq_of_length_le (by
      rw [length_append, length_singleton, hsize]
      exact Nat.le_refl _)
    exact hkeys.code.not_begun ha (heq.symm ▸ prefix_rfl : a.seq <+: p ++ [b]) hq
  rw [turn_after hb, hsearch, if_neg hsize, ← hat]
  rfl

end

/-! ## Sessions -/

def turns (map : List KeySeqAction) : SeqSearch → List Nat → List (Segment KeySeqAction Nat) × SeqSearch
  | ss, [] => ([], ss)
  | ss, byte :: bytes =>
    let (ss, segment) := turn map ss byte
    let (segments, ss) := turns map ss bytes
    (segment.toList ++ segments, ss)

section

variable {map : List KeySeqAction} {returns : List Nat → Bool}

theorem turns_cons (ss : SeqSearch) (b : Nat) (bytes : List Nat) :
    turns map ss (b :: bytes) =
      ((turn map ss b).2.toList ++ (turns map (turn map ss b).1 bytes).1,
        (turns map (turn map ss b).1 bytes).2) := rfl

theorem turns_append (ss : SeqSearch) (bytes bytes' : List Nat) :
    turns map ss (bytes ++ bytes') =
      ((turns map ss bytes).1 ++ (turns map (turns map ss bytes).2 bytes').1,
        (turns map (turns map ss bytes).2 bytes').2) := by
  induction bytes generalizing ss with
  | nil => rfl
  | cons b bytes ih =>
    rw [cons_append, turns_cons, turns_cons, ih, append_assoc]

/-- A call of `teel_run` takes some turns, and one at least unless there is nothing to read. -/
theorem teelRun_turns (map : List KeySeqAction) (returns : List Nat → Bool) (ss : SeqSearch)
    (bytes : List Nat) :
    ∃ read, read ++ (teelRun map returns ss bytes).rest = bytes ∧ (read = [] → bytes = []) ∧
      turns map ss read =
        ((teelRun map returns ss bytes).segments, (teelRun map returns ss bytes).ss) := by
  induction bytes generalizing ss with
  | nil => exact ⟨[], rfl, fun _ => rfl, rfl⟩
  | cons b bytes ih =>
    obtain ⟨read, hread, -, hturns⟩ := ih (turn map ss b).1
    have hgo : turns map ss (b :: read) =
        ((turn map ss b).2.toList ++ (teelRun map returns (turn map ss b).1 bytes).segments,
          (teelRun map returns (turn map ss b).1 bytes).ss) := by
      rw [turns_cons, hturns]
    have hone : turns map ss [b] = ((turn map ss b).2.toList, (turn map ss b).1) := by
      rw [turns_cons, turns, append_nil]
    have hmore : read ++ (teelRun map returns (turn map ss b).1 bytes).rest = bytes := hread
    rw [teelRun]
    generalize turn map ss b = r at hgo hone hmore
    obtain ⟨ss', segment⟩ := r
    cases segment with
    | none => exact ⟨b :: read, congrArg (b :: ·) hmore, nofun, hgo⟩
    | some x =>
      cases x with
      | text s => exact ⟨b :: read, congrArg (b :: ·) hmore, nofun, hgo⟩
      | word a =>
        show ∃ read, read ++ (ite (returns bytes = true) _ _ : Returned).rest = _ ∧ _
        cases hreturns : returns bytes with
        | true => exact ⟨[b], rfl, nofun, hone⟩
        | false => exact ⟨b :: read, congrArg (b :: ·) hmore, nofun, hgo⟩

theorem calls_turns {n : Nat} {bytes : List Nat} (hn : bytes.length < n) (ss : SeqSearch) :
    turns map ss bytes = ((calls map returns n ss bytes).segments, (calls map returns n ss bytes).ss) := by
  induction n generalizing bytes ss with
  | zero => omega
  | succ n ih =>
    obtain ⟨read, hread, hsome, hturns⟩ := teelRun_turns map returns ss bytes
    rw [calls]
    generalize teelRun map returns ss bytes = r at hread hturns
    have hshort : r.rest.length < n ∨ r.rest = [] := by
      cases read with
      | nil =>
        rw [hsome rfl] at hread
        exact Or.inr hread
      | cons x xs =>
        have hlength := congrArg List.length hread
        rw [length_append, length_cons] at hlength
        exact Or.inl (by omega)
    conv_lhs => rw [← hread]
    rw [turns_append, hturns]
    rcases hshort with hlt | hnil
    · rw [ih hlt]
    · rw [hnil]
      cases n with
      | zero => rfl
      | succ n => rw [@ih [] (Nat.succ_pos n)]

theorem session_turns (ss : SeqSearch) (fragments : List (List Nat)) :
    session map returns ss fragments = turns map ss fragments.flatten := by
  induction fragments generalizing ss with
  | nil => rfl
  | cons fragment fragments ih =>
    rw [flatten_cons, turns_append, calls_turns (Nat.lt_succ_self _), ← ih]
    rfl

end

/-! ## Recognition -/

section

variable {map : List KeySeqAction} (hkeys : Keys map) {p : List Nat} {b : Nat}

theorem turns_head (map : List KeySeqAction) (ss : SeqSearch) (bytes : List Nat) :
    (turns map ss bytes).1 = [] ∨
      (∃ a xs, (turns map ss bytes).1 = .word a :: xs) ∨
      ∃ s xs, (turns map ss bytes).1 = .text s :: xs ∧ ss.temp.length < s.length := by
  induction bytes generalizing ss with
  | nil => exact Or.inl rfl
  | cons b bytes ih =>
    rw [turns_cons, turn]
    simp only
    generalize (if 127 < b then 63 else b) = c
    cases search ss.temp.length c ss.seqs with
    | no =>
      refine Or.inr (Or.inr ⟨ss.temp ++ [c], _, rfl, ?_⟩)
      rw [length_append]
      exact Nat.lt_succ_self _
    | found a => exact Or.inr (Or.inl ⟨a, _, rfl⟩)
    | partly seqs =>
      rcases ih ⟨ss.temp ++ [c], seqs⟩ with hnil | hword | ⟨s, xs, htext, hlength⟩
      · exact Or.inl hnil
      · exact Or.inr (Or.inl hword)
      · refine Or.inr (Or.inr ⟨s, xs, htext, ?_⟩)
        rw [length_append, length_singleton] at hlength
        omega

theorem cons_eq_iff {α β : Type} (x : α) {l l' : List α} {t t' : β} :
    ((x :: l, t) = (x :: l', t')) ↔ (l, t) = (l', t') := by
  rw [Prod.mk.injEq, Prod.mk.injEq, List.cons.injEq, and_iff_right rfl]

include hkeys

/-- The segments are the right ones unless the search takes the last byte of a text for one of a
sequence. -/
theorem turns_eq_cut_iff (hp : Begun map KeySeqAction.seq p) {bytes : List Nat}
    (hbytes : ∀ b ∈ bytes, b < 128) :
    ((turns map (.after map p) bytes).1, (turns map (.after map p) bytes).2.temp) =
        cut map KeySeqAction.seq p bytes ↔
      ∀ s b, Segment.text (s ++ [b]) ∈ (cut map KeySeqAction.seq p bytes).1 →
        search s.length b (startingAt map s) = .no := by
  induction bytes generalizing p with
  | nil => exact iff_of_true rfl nofun
  | cons b bytes ih =>
    have hb := hbytes b mem_cons_self
    have hnext := fun {q} (hq : Begun map KeySeqAction.seq q) =>
      ih hq fun x hx => hbytes x (mem_cons_of_mem _ hx)
    rw [turns_cons]
    rcases cut_cases p b with ⟨w, hw, hseq, hcut⟩ | ⟨hq, hcut⟩ | ⟨hnone, hcut⟩
    · rw [hcut, turn_word hkeys hp hw hseq hb, start_eq_after]
      refine (cons_eq_iff _).trans ((hnext hkeys.code.begun_nil).trans ?_)
      refine forall₂_congr fun s c => imp_congr_left ?_
      exact ⟨mem_cons_of_mem _, fun hmem => (mem_cons.mp hmem).resolve_left nofun⟩
    · rw [hcut, turn_begun hkeys hp hq hb]
      exact hnext hq
    · rw [hcut, turn_after hb]
      cases hsearch : search p.length b (startingAt map p) with
      | no =>
        rw [start_eq_after]
        refine (cons_eq_iff _).trans ((hnext hkeys.code.begun_nil).trans ?_)
        refine forall₂_congr fun s c => ⟨fun h hmem => ?_, fun h hmem => h (mem_cons_of_mem _ hmem)⟩
        rcases mem_cons.mp hmem with heq | hmem'
        · obtain ⟨rfl, hlast⟩ := append_inj' (Segment.text.inj heq) rfl
          obtain rfl := singleton_inj.mp hlast
          exact hsearch
        · exact h hmem'
      | partly seqs =>
        refine iff_of_false (fun heq => ?_) fun h => ?_
        · have hsegments := (Prod.mk.inj heq).1
          rcases turns_head map ⟨p ++ [b], seqs⟩ bytes with hnil | ⟨a, xs, hword⟩ | ⟨s, xs, htext, hlt⟩
          · nomatch hnil.symm.trans hsegments
          · nomatch hword.symm.trans hsegments
          · have hs := Segment.text.inj (List.cons.inj (htext.symm.trans hsegments)).1
            rw [hs] at hlt
            exact Nat.lt_irrefl _ hlt
        · nomatch hsearch.symm.trans (h p b mem_cons_self)
      | found seq =>
        refine iff_of_false (fun heq => ?_) fun h => ?_
        · nomatch (Prod.mk.inj heq).1
        · nomatch hsearch.symm.trans (h p b mem_cons_self)

/-- The bytes are cut into segments as they are to be unless the search takes the last byte of a text for
one of a sequence. -/
theorem turns_exact_iff {bytes : List Nat} (hbytes : ∀ b ∈ bytes, b < 128) :
    Exact map KeySeqAction.seq (turns map (.start map) bytes).1 (turns map (.start map) bytes).2.temp
        bytes ↔
      ∀ s b, Segment.text (s ++ [b]) ∈ (cut map KeySeqAction.seq [] bytes).1 →
        search s.length b (startingAt map s) = .no := by
  have hcut := hkeys.code.cut_exact hkeys.code.begun_nil bytes
  rw [start_eq_after, ← turns_eq_cut_iff hkeys hkeys.code.begun_nil hbytes]
  refine ⟨fun h => Prod.ext_iff.mpr (hkeys.code.exact_unique h hcut), fun h => ?_⟩
  obtain ⟨hsegments, hleft⟩ := Prod.ext_iff.mp h
  rw [← hsegments, ← hleft] at hcut
  exact hcut

end

/-! ## The default table -/

def keys : List KeySeqAction := setkeyseqactMap defaultksa

def parts : List (List Nat) :=
  [[], [13], [27], [27, 13], [27, 27], [27, 27, 91], [27, 27, 91, 51], [27, 79], [27, 91], [27, 91, 49],
    [27, 91, 49, 59], [27, 91, 49, 59, 51], [27, 91, 50], [27, 91, 50, 52], [27, 91, 51],
    [27, 91, 51, 59], [27, 91, 51, 59, 51], [27, 91, 52], [27, 91, 55], [27, 91, 56]]

/-- The texts that the search does not see as such: a part of a sequence and a NUL, and some parts with a
`4` or a `;`. -/
def misread : List (List Nat) :=
  ([[27], [27, 27], [27, 27, 91], [27, 79], [27, 91], [27, 91, 49], [27, 91, 49, 59],
    [27, 91, 49, 59, 51], [27, 91, 50], [27, 91, 50, 52], [27, 91, 51], [27, 91, 51, 59],
    [27, 91, 51, 59, 51], [27, 91, 52], [27, 91, 55], [27, 91, 56]].map (· ++ [0])) ++
  ([[27, 91, 51], [27, 91, 52], [27, 91, 55], [27, 91, 56]].map (· ++ [52])) ++
  ([[27, 91, 52], [27, 91, 55], [27, 91, 56]].map (· ++ [59]))

def compared (posinseq : Nat) (seqs : List KeySeqAction) : List Nat :=
  (seqs.filter fun a => posinseq ≤ a.seqsize).map fun a => a.char posinseq

theorem mem_compared {posinseq b : Nat} {seqs : List KeySeqAction} (h : search posinseq b seqs ≠ .no) :
    b ∈ compared posinseq seqs := by
  induction seqs with
  | nil => exact absurd rfl h
  | cons a seqs ih =>
    rw [search] at h
    by_cases hsize : posinseq ≤ a.seqsize
    · have hcompared : compared posinseq (a :: seqs) = a.char posinseq :: compared posinseq seqs := by
        rw [compared, filter_cons, if_pos (decide_eq_true hsize)]
        rfl
      rw [if_pos hsize] at h
      simp only at h
      rw [hcompared]
      split at h
      · exact absurd rfl h
      · split at h
        · rename_i heq
          exact heq ▸ mem_cons_self
        · exact mem_cons_of_mem _ (ih h)
    · have hcompared : compared posinseq (a :: seqs) = compared posinseq seqs := by
        rw [compared, filter_cons, if_neg fun htrue => hsize (of_decide_eq_true htrue)]
        rfl
      rw [if_neg hsize] at h
      rw [hcompared]
      exact ih h

/-- What is computed from the table, at once. -/
theorem keys_checked :
    (keys.Pairwise fun a b => compareksa a b ≤ 0) ∧ keys ≠ [] ∧ (∀ w ∈ keys, w.seq ≠ []) ∧
      (∀ w ∈ keys, ∀ w' ∈ keys, w.seq <+: w'.seq → w = w') ∧
      (∀ w ∈ keys, ∀ p ∈ w.seq.inits, p ≠ w.seq → p ∈ parts) ∧
      (∀ p ∈ parts, ∀ b ∈ (compared p.length (startingAt keys p)).dedup,
        search p.length b (startingAt keys p) = .no ∨ p ++ [b] ∈ misread ∨
          (keys.any fun w => (p ++ [b]).isPrefixOf w.seq) = true) ∧
      ∀ s ∈ misread, search s.dropLast.length (s.getLastD 0) (startingAt keys s.dropLast) ≠ .no := by
  decide +kernel

theorem keys_sorted : Keys keys :=
  have ⟨hsorted, hinhabited, hnonempty, hfree, _⟩ := keys_checked
  ⟨hsorted, hinhabited, hnonempty, hfree⟩

theorem mem_parts {p : List Nat} (h : Begun keys KeySeqAction.seq p) : p ∈ parts := by
  obtain ⟨w, hw, hpre, hne⟩ := h
  obtain ⟨-, -, -, -, hparts, -⟩ := keys_checked
  exact hparts w hw p ((mem_inits _ _).mpr hpre) hne

theorem search_iff {s : List Nat} {b : Nat} (h : Shortest keys KeySeqAction.seq (s ++ [b])) :
    search s.length b (startingAt keys s) = .no ↔ s ++ [b] ∉ misread := by
  obtain ⟨-, -, -, -, -, hparts, hmisread⟩ := keys_checked
  constructor
  · intro hno hmem
    have hsome := hmisread _ hmem
    rw [dropLast_concat, getLastD_concat] at hsome
    exact hsome hno
  · intro hmem
    by_contra hsome
    have hne : s ≠ s ++ [b] := fun heq => by
      have hlength := congrArg List.length heq
      rw [length_append, length_singleton] at hlength
      omega
    have hs := mem_parts (h.begun s (prefix_append s [b]) hne)
    rcases hparts s hs b (mem_dedup.mpr (mem_compared hsome)) with hno | hmis | hany
    · exact hsome hno
    · exact hmem hmis
    · obtain ⟨w, hw, hpre⟩ := any_eq_true.mp hany
      exact h.none w hw ( isPrefixOf_iff_prefix.mp hpre)

/-- A session executes the actions of exactly the key sequences that it receives, and inserts the rest
as text, if and only if no text is one of those that are misread. -/
theorem keys_recognised (returns : List Nat → Bool) {fragments : List (List Nat)}
    (h : ∀ fragment ∈ fragments, ∀ b ∈ fragment, b < 128) :
    Exact keys KeySeqAction.seq (session keys returns (.start keys) fragments).1
        (session keys returns (.start keys) fragments).2.temp fragments.flatten ↔
      ∀ s, Segment.text s ∈ (cut keys KeySeqAction.seq [] fragments.flatten).1 → s ∉ misread := by
  have hbytes : ∀ b ∈ fragments.flatten, b < 128 := by
    intro b hb
    obtain ⟨fragment, hfragment, hmem⟩ := mem_flatten.mp hb
    exact h fragment hfragment b hmem
  have hfine := (keys_sorted.code.cut_exact keys_sorted.code.begun_nil fragments.flatten).fine
  rw [session_turns, turns_exact_iff keys_sorted hbytes]
  constructor
  · intro hsearch s hs
    rcases eq_nil_or_concat s with rfl | ⟨p, b, rfl⟩
    · decide
    · rw [concat_eq_append] at hs ⊢
      exact (search_iff (hfine _ hs)).mp (hsearch p b hs)
  · intro hmem p b hs
    exact (search_iff (hfine _ hs)).mpr (hmem _ hs)

/-- A key sequence in two fragments, and a letter. -/
theorem keys_recognised_up :
    Exact keys KeySeqAction.seq (session keys (fun _ => true) (.start keys) [[27, 91], [65, 120]]).1
      (session keys (fun _ => true) (.start keys) [[27, 91], [65, 120]]).2.temp [27, 91, 65, 120] := by
  have hcut : (cut keys KeySeqAction.seq [] [27, 91, 65, 120]).1 =
      [.word ⟨[27, 91, 65], .historypreventry⟩, .text [120]] := by decide +kernel
  have hascii : ∀ fragment ∈ [[27, 91], [65, 120]], ∀ b ∈ fragment, b < 128 := by decide
  refine (keys_recognised (fun _ => true) hascii).mpr fun s hs => ?_
  rw [show [[27, 91], [65, 120]].flatten = [27, 91, 65, 120] from rfl, hcut] at hs
  have htext : s = [120] := by simpa using hs
  rw [htext]
  decide

/-- The bytes `ESC [ NUL` break the line, as `ESC CR NUL` does. -/
theorem other_sequence_executed :
    ¬ Exact keys KeySeqAction.seq (session keys (fun _ => false) (.start keys) [[27, 91, 0]]).1
      (session keys (fun _ => false) (.start keys) [[27, 91, 0]]).2.temp [27, 91, 0] := by
  have hsession : session keys (fun _ => false) (.start keys) [[27, 91, 0]] =
      ([.word ⟨[27, 13, 0], .linebreak⟩], .start keys) := by decide +kernel
  intro h
  have hjoined := h.joined
  rw [hsession] at hjoined
  exact absurd hjoined (by decide)

end Mihini.Teel.KeySeq
