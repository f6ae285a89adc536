import Mathlib.Data.List.Nodup
import Mathlib.Data.List.TakeWhile
import Mihini.Bysant.Common

/-!
# Class collections are finite maps

As long as the identifiers are less than 2³¹ apart, only the first class is replaced, and nothing is
asked of a collection that was reset.
-/

namespace Mihini.Bysant.ClassColl

open List

inductive Op where
  | set (classdef : ClassPtr)
  | reset

def step (coll : ClassColl) : Op → Option ClassColl
  | .set d => coll.bsClasscollSet d
  | .reset => some coll.bsClasscollReset

def run : ClassColl → List Op → Option ClassColl
  | coll, [] => some coll
  | coll, op :: ops => (coll.step op).bind (run · ops)

def Op.update (m : UInt32 → Option ClassPtr) : Op → UInt32 → Option ClassPtr
  | .set d, id => if id = d.cls.classid then some d else m id
  | .reset, _ => none

def lastSet (ops : List Op) : UInt32 → Option ClassPtr := ops.foldl Op.update fun _ => none

/-- The difference of the identifiers is an `int`. -/
def Near (id id' : UInt32) : Prop := id.toNat < id'.toNat + 2 ^ 31 ∧ id'.toNat ≤ id.toNat + 2 ^ 31

def Comparable (coll : ClassColl) (id : UInt32) : Prop := ∀ e ∈ coll.classes, Near id e.cls.classid

/-- Whether a call keeps the map.  A block holds one definition, and one that is set was not freed. -/
def Sound (coll : ClassColl) : Op → Prop
  | .set d => coll.Comparable d.cls.classid ∧ d.block ∉ coll.freed ∧
      (∀ e ∈ coll.classes, e.block = d.block → e = d) ∧
      ∀ e ∈ coll.classes, e.cls.classid = d.cls.classid →
        coll.classes[0]? = some e ∧ (e.cls.mode = .managed → e.block ≠ d.block)
  | .reset => coll.nclasses = 0

instance (coll : ClassColl) : (op : Op) → Decidable (coll.Sound op)
  | .set _ => by
    unfold Sound Comparable Near
    infer_instance
  | .reset => inferInstanceAs (Decidable (coll.nclasses = 0))

def SoundRun : ClassColl → List Op → Prop
  | _, [] => True
  | coll, op :: ops => coll.Sound op ∧ ∀ coll', coll.step op = some coll' → SoundRun coll' ops

def Sorted (coll : ClassColl) : Prop :=
  coll.classes.Pairwise fun a b => a.cls.classid < b.cls.classid

/-! ## Searches -/

theorem compare_eq {id : UInt32} {p : ClassPtr} (h : Near id p.cls.classid) :
    compareClassesById id p = (id.toNat : Int) - p.cls.classid.toNat := by
  obtain ⟨hlt, hle⟩ := h
  have hid := id.toNat_lt
  have hp := p.cls.classid.toNat_lt
  rw [compareClassesById, UInt32.toNat_sub, Lib.Bytes.toSigned]
  split <;> omega

structure Holds (coll : ClassColl) (m : UInt32 → Option ClassPtr) : Prop where
  sorted : coll.Sorted
  size : coll.nclasses = coll.classes.length
  finds : ∀ id, coll.classes.find? (fun e => e.cls.classid == id) = m id
  live : ∀ e ∈ coll.classes, e.block ∉ coll.freed
  blocks : ∀ a ∈ coll.classes, ∀ b ∈ coll.classes, a.block = b.block → a = b

variable {coll : ClassColl} {m : UInt32 → Option ClassPtr}

theorem holds_init : bsClasscollInit.Holds fun _ => none :=
  ⟨.nil, rfl, fun _ => rfl, nofun, nofun⟩

theorem Holds.unique (h : coll.Holds m) {a b : ClassPtr} (ha : a ∈ coll.classes) (hb : b ∈ coll.classes)
    (heq : a.cls.classid = b.cls.classid) : a = b := by
  have hnodup : (coll.classes.map fun e => e.cls.classid).Nodup :=
    pairwise_map.mpr (h.sorted.imp fun hlt => UInt32.ne_of_lt hlt)
  exact inj_on_of_nodup_map hnodup ha hb heq

theorem Holds.find_eq (h : coll.Holds m) {e : ClassPtr} (he : e ∈ coll.classes) :
    m e.cls.classid = some e := by
  rw [← h.finds]
  cases hfind : coll.classes.find? (fun x => x.cls.classid == e.cls.classid) with
  | none => exact absurd (beq_self_eq_true _) (List.find?_eq_none.mp hfind e he)
  | some x =>
    have hid : x.cls.classid = e.cls.classid := by simpa using List.find?_some hfind
    rw [h.unique (mem_of_find?_eq_some hfind) he hid]

theorem Holds.get (h : coll.Holds m) {id : UInt32} (hnear : coll.Comparable id) :
    coll.bsClasscollGet id = some (m id) := by
  have hsorted : coll.classes.Pairwise fun a b =>
      compareClassesById id a ≤ 0 → compareClassesById id b < 0 := by
    refine h.sorted.imp_of_mem fun {a b} ha hb hlt => ?_
    rw [compare_eq (hnear a ha), compare_eq (hnear b hb)]
    have := UInt32.lt_iff_toNat_lt.mp hlt
    omega
  obtain ⟨found, hfound, habsent⟩ := Lib.bsearchFrom_absent hsorted
    (show coll.classes.length ≤ 0 + coll.classes.length by omega) (Nat.le_refl _) (fun i _ hi => by omega)
    (fun i hi hle => by omega)
  have hindex : coll.indexOf id = some found := by
    rw [indexOf, h.size]
    exact hfound
  rw [bsClasscollGet, hindex, ← h.finds]
  cases found with
  | none =>
    refine congrArg some (List.find?_eq_none.mpr fun e he heq => ?_).symm
    apply habsent rfl e he
    rw [compare_eq (hnear e he), beq_iff_eq.mp heq]
    omega
  | some i =>
    obtain ⟨e, he, hzero⟩ := Lib.bsearch_found hindex
    have hmem := mem_of_getElem? he
    rw [compare_eq (hnear e hmem)] at hzero
    have hid : id = e.cls.classid := UInt32.toNat_inj.mp (by omega)
    rw [h.finds, hid, h.find_eq hmem]
    exact congrArg some he

/-! ## Operations -/

theorem blocks_cons {l : List ClassPtr} {d : ClassPtr}
    (h : ∀ a ∈ l, ∀ b ∈ l, a.block = b.block → a = b) (hd : ∀ e ∈ l, e.block = d.block → e = d) :
    ∀ a ∈ d :: l, ∀ b ∈ d :: l, a.block = b.block → a = b := by
  intro a ha b hb heq
  rcases mem_cons.mp ha with rfl | ha'
  · rcases mem_cons.mp hb with rfl | hb'
    · rfl
    · exact (hd b hb' heq.symm).symm
  · rcases mem_cons.mp hb with rfl | hb'
    · exact hd a ha' heq
    · exact h a ha' b hb' heq

theorem Holds.insert (h : coll.Holds m) {d : ClassPtr} (hfree : d.block ∉ coll.freed)
    (hblock : ∀ e ∈ coll.classes, e.block = d.block → e = d) (hnew : m d.cls.classid = none) (below : ClassPtr → Bool)
    (hbelow : ∀ e, below e = true ↔ e.cls.classid < d.cls.classid) :
    Holds { coll with
      classes := coll.classes.takeWhile below ++ d :: coll.classes.dropWhile below
      nclasses := coll.nclasses + 1 } (Op.update m (.set d)) := by
  have hsplit := takeWhile_append_dropWhile (p := below) (l := coll.classes)
  have hbefore : ∀ e ∈ coll.classes.takeWhile below, e.cls.classid < d.cls.classid := fun e he =>
    (hbelow e).mp (mem_takeWhile_imp he)
  have hsorted := h.sorted
  rw [Sorted, ← hsplit, pairwise_append] at hsorted
  have hafter : ∀ e ∈ coll.classes.dropWhile below, d.cls.classid < e.cls.classid := by
    have hhead := List.head?_dropWhile_not below coll.classes
    cases hdrop : coll.classes.dropWhile below with
    | nil => exact fun e he => absurd he not_mem_nil
    | cons x rest =>
      rw [hdrop] at hhead hsorted
      have hx : x ∈ coll.classes := by
        rw [← hsplit, hdrop]
        exact mem_append_right _ mem_cons_self
      have hle : ¬ x.cls.classid < d.cls.classid := fun hlt => by
        change below x = false at hhead
        rw [(hbelow x).mpr hlt] at hhead
        nomatch hhead
      have hne : x.cls.classid ≠ d.cls.classid := fun heq => by
        rw [← heq, h.find_eq hx] at hnew
        nomatch hnew
      have hlt : d.cls.classid < x.cls.classid :=
        UInt32.lt_of_le_of_ne (UInt32.not_lt.mp hle) hne.symm
      intro e he
      rcases mem_cons.mp he with rfl | he
      · exact hlt
      · exact UInt32.lt_trans hlt ((pairwise_cons.mp hsorted.2.1).1 e he)
  refine ⟨?_, ?_, fun id => ?_, fun e he => ?_, ?_⟩
  · refine pairwise_append.mpr ⟨hsorted.1, pairwise_cons.mpr ⟨hafter, hsorted.2.1⟩, ?_⟩
    intro a ha b hb
    rcases mem_cons.mp hb with rfl | hb
    · exact hbefore a ha
    · exact hsorted.2.2 a ha b hb
  · have hlength := congrArg List.length hsplit
    simp only [length_append, length_cons] at hlength ⊢
    rw [h.size, ← hlength]
    omega
  · rw [Op.update, ← h.finds]
    show List.find? _ (coll.classes.takeWhile below ++ d :: coll.classes.dropWhile below) = _
    rw [List.find?_append, List.find?_cons]
    by_cases hid : id = d.cls.classid
    · have hnone : (coll.classes.takeWhile below).find? (fun e => e.cls.classid == id) = none := by
        refine List.find?_eq_none.mpr fun e he heq => ?_
        have hlt := hbefore e he
        rw [beq_iff_eq.mp heq, hid] at hlt
        exact UInt32.lt_irrefl _ hlt
      rw [hnone, if_pos hid, hid, beq_self_eq_true]
      rfl
    · rw [if_neg hid, beq_eq_false_iff_ne.mpr (Ne.symm hid), ← List.find?_append, hsplit]
  · rcases mem_append.mp he with he | he
    · exact h.live e ((takeWhile_sublist _).mem he)
    · rcases mem_cons.mp he with rfl | he
      · exact hfree
      · exact h.live e ((dropWhile_sublist _).mem he)
  · have hmem : ∀ e ∈ coll.classes.takeWhile below ++ d :: coll.classes.dropWhile below,
        e ∈ d :: coll.classes := by
      intro e he
      rw [← hsplit]
      exact perm_middle.mem_iff.mp he
    exact fun a ha b hb => blocks_cons h.blocks hblock a (hmem a ha) b (hmem b hb)

theorem Holds.replace (h : coll.Holds m) {d e : ClassPtr} (hfirst : coll.classes[0]? = some e)
    (hid : e.cls.classid = d.cls.classid) (freed : List Nat) (hfree : d.block ∉ freed)
    (hblock : ∀ e ∈ coll.classes, e.block = d.block → e = d)
    (hlive : ∀ x ∈ coll.classes.tail, x.block ∉ freed) :
    Holds { coll with classes := coll.classes.set 0 d, freed := freed } (Op.update m (.set d)) := by
  obtain ⟨classes, nclasses, old⟩ := coll
  cases classes with
  | nil => nomatch hfirst
  | cons x rest =>
    obtain rfl := Option.some.inj hfirst
    have hsorted := pairwise_cons.mp h.sorted
    refine ⟨pairwise_cons.mpr ⟨?_, hsorted.2⟩, h.size, fun id => ?_, fun a ha => ?_, ?_⟩
    · rw [← hid]
      exact hsorted.1
    · rw [Op.update, ← h.finds]
      show List.find? _ (d :: rest) = _
      rw [List.find?_cons, List.find?_cons, hid]
      by_cases heq : id = d.cls.classid
      · rw [if_pos heq, heq, beq_self_eq_true]
      · rw [if_neg heq, beq_eq_false_iff_ne.mpr (Ne.symm heq)]
    · rcases mem_cons.mp ha with rfl | ha
      · exact hfree
      · exact hlive a ha
    · exact blocks_cons (fun a ha b hb => h.blocks a (.tail _ ha) b (.tail _ hb)) fun a ha =>
        hblock a (.tail _ ha)

theorem Holds.step (h : coll.Holds m) {op : Op} (hsound : coll.Sound op) :
    ∃ coll', coll.step op = some coll' ∧ coll'.Holds (op.update m) := by
  cases op with
  | reset =>
    have hnil : coll.classes = [] := length_eq_zero_iff.mp (h.size.symm.trans hsound)
    exact ⟨_, rfl, .nil, hsound, fun _ => rfl, nofun, nofun⟩
  | set d =>
    obtain ⟨hnear, hfree, hblock, hfirst⟩ := hsound
    have hget := h.get hnear
    cases hm : m d.cls.classid with
    | none =>
      rw [hm] at hget
      refine ⟨_, ?_, h.insert hfree hblock hm (fun p => decide (p.cls.classid < d.cls.classid))
        fun e => decide_eq_true_iff⟩
      simp only [ClassColl.step, bsClasscollSet, hget, h.size]
      rfl
    | some e =>
      rw [hm] at hget
      have hfind := (h.finds _).trans hm
      have hmem := mem_of_find?_eq_some hfind
      have hid : e.cls.classid = d.cls.classid := by simpa using List.find?_some hfind
      obtain ⟨hzero, hmanaged⟩ := hfirst e hmem hid
      refine ⟨_, ?_, h.replace hzero hid (if e.cls.mode = .managed then e.block :: coll.freed
        else coll.freed) ?_ hblock ?_⟩
      · simp only [ClassColl.step, bsClasscollSet, hget, hzero, Option.bind_eq_bind, Option.bind_some,
          if_true]
      · split_ifs with hmode
        · exact fun hmem' => (mem_cons.mp hmem').elim (fun heq => hmanaged hmode heq.symm) hfree
        · exact hfree
      · intro x hx
        have hx' := mem_of_mem_tail hx
        split_ifs
        · intro hmem'
          rcases mem_cons.mp hmem' with heq | hmem'
          · -- the first one would come again
            obtain rfl := h.blocks x hx' e hmem heq
            have hsorted := h.sorted
            rw [Sorted] at hsorted
            cases hclasses : coll.classes with
            | nil => rw [hclasses] at hx; nomatch hx
            | cons y rest =>
              rw [hclasses] at hzero hsorted hx
              obtain rfl := Option.some.inj hzero
              exact UInt32.lt_irrefl _ ((pairwise_cons.mp hsorted).1 y hx)
          · exact h.live x hx' hmem'
        · exact h.live x hx'

theorem Holds.run (h : coll.Holds m) {ops : List Op} (hsound : coll.SoundRun ops) :
    ∃ coll', coll.run ops = some coll' ∧ coll'.Holds (ops.foldl Op.update m) := by
  induction ops generalizing coll m with
  | nil => exact ⟨coll, rfl, h⟩
  | cons op ops ih =>
    obtain ⟨coll', hstep, hholds⟩ := h.step hsound.1
    obtain ⟨coll'', hrun, hholds'⟩ := ih hholds (hsound.2 coll' hstep)
    exact ⟨coll'', by rw [ClassColl.run, hstep]; exact hrun, hholds'⟩

def FiniteMap (ops : List Op) : Prop :=
  ∃ coll, bsClasscollInit.run ops = some coll ∧ coll.Sorted ∧ ∀ id, coll.Comparable id →
    coll.bsClasscollGet id = some (lastSet ops id) ∧
      ∀ p, lastSet ops id = some p → coll.deref p = some p.cls

theorem classcoll_finite_map (ops : List Op) (h : bsClasscollInit.SoundRun ops) : FiniteMap ops := by
  obtain ⟨coll, hrun, hholds⟩ := holds_init.run h
  refine ⟨coll, hrun, hholds.sorted, fun id hnear => ⟨hholds.get hnear, fun p hp => ?_⟩⟩
  have hfind := (hholds.finds id).trans hp
  rw [deref, if_neg (hholds.live p (mem_of_find?_eq_some hfind))]

def classOf (block : Nat) (id : UInt32) : ClassPtr := ⟨block, id, none, .managed, []⟩

theorem classcoll_finite_map_three :
    FiniteMap [.set (classOf 1 5), .set (classOf 2 3), .set (classOf 3 3)] := by
  refine classcoll_finite_map _ ⟨by decide, fun _ h => ?_⟩
  obtain rfl := Option.some.inj h
  refine ⟨by decide, fun _ h => ?_⟩
  obtain rfl := Option.some.inj h
  exact ⟨by decide, fun _ _ => trivial⟩

theorem reset_keeps_size : ¬ ∀ ops, FiniteMap ops := by
  intro h
  obtain ⟨coll, hrun, -, hget⟩ := h [.set (classOf 1 5), .reset]
  obtain rfl := Option.some.inj hrun
  nomatch (hget 5 nofun).1

end Mihini.Bysant.ClassColl
