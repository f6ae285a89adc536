import Mihini.Update.PkgCheck

/-!
# Version constraints

What a string of constraints asks of a version, and how far `cmp_version` reads it.
-/

namespace Mihini.Update

open Mihini.Lib Checks List

/-! ## Constraints -/

inductive Comparison where
  | eq
  | ne
  | lt
  | gt
  | le
  | ge

namespace Comparison

def symbol : Comparison → List Char
  | eq => ['=']
  | ne => ['!', '=']
  | lt => ['<']
  | gt => ['>']
  | le => ['<', '=']
  | ge => ['>', '=']

def Holds (version v : String) : Comparison → Prop
  | eq => version = v
  | ne => version ≠ v
  | lt => version < v
  | gt => v < version
  | le => version ≤ v
  | ge => v ≤ version

end Comparison

inductive Constraint where
  | compare (op : Comparison) (v : List Char)
  | list (items : List (List Char))

def IsVersion (v : List Char) : Prop := v ≠ [] ∧ v.all versionChar = true

namespace Constraint

def Valid : Constraint → Prop
  | compare _ v => IsVersion v
  | list items => items ≠ [] ∧ ∀ v ∈ items, IsVersion v

def Spelled (w : List Char) : Constraint → Prop
  | compare op v => w = op.symbol ++ v
  | list items => ∃ l, w = '#' :: l ∧ (l.splitOn ',' = items ∨ l.splitOn ',' = items ++ [[]])

def Holds (version : String) : Constraint → Prop
  | compare op v => op.Holds version (String.ofList v)
  | list items => version.toList ∈ items

end Constraint

def Formed (w : List Char) : Prop := ∃ c : Constraint, c.Valid ∧ c.Spelled w

def Accepts (version : String) (w : List Char) : Prop :=
  ∃ c : Constraint, c.Valid ∧ c.Spelled w ∧ c.Holds version

def constraints (deps : String) : List (List Char) := (deps.toList.splitOn ' ').filter fun w => w ≠ []

/-- Those before a space that begins the string or follows another one. -/
def early (deps : String) : List (List Char) := (deps.toList.splitOn ' ').takeWhile fun w => w ≠ []

def late (deps : String) : List (List Char) :=
  ((deps.toList.splitOn ' ').dropWhile fun w => w ≠ []).filter fun w => w ≠ []

/-- A constraint that the version satisfies; of a list nothing is asked after the item that is the
version. -/
def Begins (version : String) (w : List Char) : Prop :=
  (∃ (op : Comparison) (v : List Char), IsVersion v ∧ w = op.symbol ++ v ∧
    op.Holds version (String.ofList v)) ∨
  ∃ l before rest, w = '#' :: l ∧ l.splitOn ',' = before ++ version.toList :: rest ∧
    ∀ v ∈ before ++ [version.toList], IsVersion v

variable {version : String} {w : List Char}

theorem accepts_iff : Accepts version w ↔ Begins version w ∧ Formed w := by
  constructor
  · intro h
    obtain ⟨c, hvalid, hspelled, hholds⟩ := h
    refine ⟨?_, c, hvalid, hspelled⟩
    cases c with
    | compare op v => exact Or.inl ⟨op, v, hvalid, hspelled, hholds⟩
    | list items =>
      obtain ⟨l, rfl, hl⟩ := hspelled
      obtain ⟨before, rest, rfl⟩ := append_of_mem (show version.toList ∈ items from hholds)
      have hall : ∀ v ∈ before ++ [version.toList], IsVersion v := by
        intro v hv
        refine hvalid.2 v ?_
        rw [append_cons]
        exact mem_append_left rest hv
      rcases hl with hl | hl
      · exact Or.inr ⟨l, before, rest, rfl, hl, hall⟩
      · refine Or.inr ⟨l, before, rest ++ [[]], rfl, ?_, hall⟩
        rw [hl, append_assoc, cons_append]
  · intro h
    obtain ⟨hbegins, c, hvalid, hspelled⟩ := h
    rcases hbegins with ⟨op, v, hv, heq, hholds⟩ | ⟨l, before, rest, rfl, hl, hall⟩
    · exact ⟨.compare op v, hv, heq, hholds⟩
    cases c with
    | compare op v =>
      cases op <;> nomatch (List.cons.inj hspelled).1
    | list items =>
      refine ⟨.list items, hvalid, hspelled, ?_⟩
      obtain ⟨l', heq, hl'⟩ := hspelled
      obtain rfl := (List.cons.inj heq).2
      have hne : version.toList ≠ [] := (hall version.toList (mem_append_right before mem_cons_self)).1
      have hmem : version.toList ∈ l.splitOn ',' := by
        rw [hl]
        exact mem_append_right before mem_cons_self
      rcases hl' with hl' | hl'
      · exact hl' ▸ hmem
      · rw [hl', mem_append] at hmem
        exact hmem.resolve_right fun h => hne (mem_singleton.mp h)

/-! ## What is read -/

theorem pieces_eq_takeWhile (sep : Char) (acc cs : List Char) :
    pieces sep acc cs =
      (((cs.splitOn sep).modifyHead (acc.reverse ++ ·)).takeWhile fun s => s ≠ []).map String.ofList := by
  induction cs generalizing acc with
  | nil =>
    rw [pieces, splitOn_nil, modifyHead_cons, append_nil]
    by_cases hacc : acc = []
    · simp [hacc]
    · simp [hacc]
  | cons c cs ih =>
    rw [pieces, splitOn_cons_eq_if_modifyHead]
    by_cases hc : c = sep
    · have hbeq : (c == sep) = true := beq_iff_eq.mpr hc
      rw [if_pos hc, if_pos hbeq, modifyHead_cons, append_nil]
      by_cases hacc : acc = []
      · simp [hacc]
      · rw [if_neg hacc, ih, takeWhile_cons_of_pos (by simpa using hacc), map_cons]
        congr 3
        cases cs.splitOn sep <;> rfl
    · rw [if_neg hc, if_neg (by simpa using hc), ih]
      congr 2
      cases cs.splitOn sep with
      | nil => rfl
      | cons s rest => simp

theorem pieces_eq (sep : Char) (cs : List Char) :
    pieces sep [] cs = ((cs.splitOn sep).takeWhile fun s => s ≠ []).map String.ofList := by
  rw [pieces_eq_takeWhile]
  congr 2
  cases cs.splitOn sep <;> rfl

/-! ## One constraint -/

def operators : List Char := ['>', '<', '=', '#', '!']

theorem operator_some {op vdep : String} (h : operator (String.ofList w) = some (op, vdep)) :
    w = op.toList ++ vdep.toList ∧ vdep.toList ≠ [] := by
  rw [operator, String.toList_ofList] at h
  split at h
  · split at h
    · obtain ⟨rfl, rfl⟩ := Prod.mk.inj (Option.some.inj h)
      rw [String.toList_ofList, String.toList_ofList]
      exact ⟨rfl, nofun⟩
    · nomatch h
  · split at h
    · obtain ⟨rfl, rfl⟩ := Prod.mk.inj (Option.some.inj h)
      rw [String.toList_ofList, String.toList_ofList]
      exact ⟨rfl, nofun⟩
    · nomatch h
  · nomatch h

variable {v : List Char}

theorem operator_two {c : Char} (hc : c ∈ operators) (hv : v ≠ []) :
    operator (String.ofList (c :: '=' :: v)) = some (String.ofList [c, '='], String.ofList v) := by
  cases v with
  | nil => exact absurd rfl hv
  | cons d v =>
    rw [operator, String.toList_ofList]
    exact if_pos hc

theorem operator_one {c : Char} (hc : c ∈ operators) (hv : v ≠ []) (heq : v.head? ≠ some '=') :
    operator (String.ofList (c :: v)) = some (String.ofList [c], String.ofList v) := by
  cases v with
  | nil => exact absurd rfl hv
  | cons d v =>
    rw [operator, String.toList_ofList]
    split
    · next h =>
      obtain ⟨-, hd, -⟩ := h
      exact absurd rfl heq
    · next h =>
      obtain ⟨rfl, rfl, rfl⟩ := h
      exact if_pos hc
    · next h => exact absurd rfl (h c d v)

theorem IsVersion.head (h : IsVersion v) : v.head? ≠ some '=' := by
  intro heq
  obtain ⟨v', rfl⟩ := List.head?_eq_some_iff.mp heq
  have hchar := all_eq_true.mp h.2 '=' mem_cons_self
  exact absurd hchar (by decide)

theorem checkversion_ofList (v : List Char) : checkversion (String.ofList v) = v.all versionChar := by
  rw [checkversion, String.toList_ofList]

theorem ordered_some {v dep : String} {p : String → Bool} : ordered (some v) dep p = .ok () ↔ p v = true :=
  require_ok

/-- What comes of a constraint with one of the six operators. -/
theorem cmpDep_compare (op : Comparison) (hv : IsVersion v) :
    cmpDep (some version) (String.ofList (op.symbol ++ v)) = .ok () ↔ op.Holds version (String.ofList v) := by
  have hcheck : (!checkversion (String.ofList v)) = false := by
    rw [checkversion_ofList, hv.2]
    rfl
  cases op with
  | eq =>
    rw [cmpDep, show Comparison.eq.symbol ++ v = '=' :: v from rfl, operator_one (by decide) hv.1 hv.head]
    simp [hcheck, Comparison.Holds]
  | ne =>
    rw [cmpDep, show Comparison.ne.symbol ++ v = '!' :: '=' :: v from rfl, operator_two (by decide) hv.1]
    simp [hcheck, Comparison.Holds]
  | lt =>
    rw [cmpDep, show Comparison.lt.symbol ++ v = '<' :: v from rfl, operator_one (by decide) hv.1 hv.head]
    simp [hcheck, Comparison.Holds, ordered_some]
  | gt =>
    rw [cmpDep, show Comparison.gt.symbol ++ v = '>' :: v from rfl, operator_one (by decide) hv.1 hv.head]
    simp [hcheck, Comparison.Holds, ordered_some]
  | le =>
    rw [cmpDep, show Comparison.le.symbol ++ v = '<' :: '=' :: v from rfl, operator_two (by decide) hv.1]
    simp [hcheck, Comparison.Holds, ordered_some]
  | ge =>
    rw [cmpDep, show Comparison.ge.symbol ++ v = '>' :: '=' :: v from rfl, operator_two (by decide) hv.1]
    simp [hcheck, Comparison.Holds, ordered_some]

/-- The loop over the values of a list. -/
theorem listed_ok {dep : String} {items : List (List Char)} :
    listed (some version) dep ((items.takeWhile fun s => s ≠ []).map String.ofList) = .ok () ↔
      ∃ before rest, items = before ++ version.toList :: rest ∧
        ∀ v ∈ before ++ [version.toList], IsVersion v := by
  induction items with
  | nil =>
    refine iff_of_false nofun ?_
    intro h
    obtain ⟨before, rest, heq, -⟩ := h
    exact absurd heq.symm (by simp)
  | cons s items ih =>
    by_cases hs : s = []
    · subst hs
      refine iff_of_false nofun ?_
      intro h
      obtain ⟨before, rest, heq, hall⟩ := h
      cases before with
      | nil => exact (hall _ mem_cons_self).1 (List.cons.inj heq).1.symm
      | cons v before => exact (hall v mem_cons_self).1 (List.cons.inj heq).1.symm
    · rw [takeWhile_cons_of_pos (by simpa using hs), map_cons, listed, checkversion_ofList]
      by_cases hvalid : s.all versionChar = true
      · rw [if_neg (by rw [hvalid]; nofun)]
        by_cases heq : version = String.ofList s
        · rw [if_pos (congrArg some heq)]
          refine iff_of_true rfl ⟨[], items, by rw [heq, String.toList_ofList]; rfl, ?_⟩
          intro v hv
          obtain rfl := mem_singleton.mp hv
          rw [heq, String.toList_ofList]
          exact ⟨hs, hvalid⟩
        · rw [if_neg fun h => heq (Option.some.inj h), ih]
          constructor
          · intro h
            obtain ⟨before, rest, rfl, hall⟩ := h
            exact ⟨s :: before, rest, rfl, forall_mem_cons.mpr ⟨⟨hs, hvalid⟩, hall⟩⟩
          · intro h
            obtain ⟨before, rest, hitems, hall⟩ := h
            cases before with
            | nil =>
              refine absurd ?_ heq
              rw [(List.cons.inj hitems).1, String.ofList_toList]
            | cons v before =>
              exact ⟨before, rest, (List.cons.inj hitems).2, (forall_mem_cons.mp hall).2⟩
      · rw [if_pos (by simpa using hvalid)]
        refine iff_of_false nofun ?_
        intro h
        obtain ⟨before, rest, heq, hall⟩ := h
        cases before with
        | nil =>
          obtain rfl := (List.cons.inj heq).1
          exact hvalid (hall _ mem_cons_self).2
        | cons v before =>
          obtain rfl := (List.cons.inj heq).1
          exact hvalid (hall s mem_cons_self).2

theorem cmpDep_list {l : List Char} (hl : l ≠ []) (heq : l.head? ≠ some '=') :
    cmpDep (some version) (String.ofList ('#' :: l)) = .ok () ↔
      ∃ before rest, l.splitOn ',' = before ++ version.toList :: rest ∧
        ∀ v ∈ before ++ [version.toList], IsVersion v := by
  rw [cmpDep, operator_one (by decide) hl heq]
  show (if String.ofList ['#'] = "#" then _ else _) = _ ↔ _
  rw [if_pos rfl, String.toList_ofList, pieces_eq, listed_ok]

/-- A constraint is accepted when the version satisfies it as far as it is read. -/
theorem cmpDep_ok :
    cmpDep (some version) (String.ofList w) = .ok () ↔ Begins version w := by
  constructor
  · intro h
    cases hop : operator (String.ofList w) with
    | none =>
      rw [cmpDep, hop] at h
      nomatch h
    | some x =>
      obtain ⟨op, vdep⟩ := x
      obtain ⟨rfl, hne⟩ := operator_some hop
      rw [cmpDep, hop] at h
      dsimp only at h
      split at h
      · next hop =>
        rw [pieces_eq, listed_ok] at h
        obtain ⟨before, rest, hl, hall⟩ := h
        exact Or.inr ⟨_, before, rest, by rw [hop]; rfl, hl, hall⟩
      split at h
      · nomatch h
      next hcheck =>
      have hv : IsVersion vdep.toList := ⟨hne, by simpa [checkversion] using hcheck⟩
      have hbegins : ∀ c : Comparison, op = String.ofList c.symbol → c.Holds version vdep →
          Begins version (op.toList ++ vdep.toList) := by
        intro c hc hholds
        refine Or.inl ⟨c, vdep.toList, hv, by rw [hc, String.toList_ofList], ?_⟩
        rw [String.ofList_toList]
        exact hholds
      split at h
      · next heq => exact hbegins .eq heq (Option.some.inj (of_decide_eq_true (require_ok.mp h)))
      split at h
      · next heq =>
        refine hbegins .ne heq fun hsame => ?_
        exact of_decide_eq_true (require_ok.mp h) (congrArg some hsame)
      split at h
      · next heq => exact hbegins .gt heq (of_decide_eq_true (p := vdep < version) (ordered_some.mp h))
      split at h
      · next heq => exact hbegins .lt heq (of_decide_eq_true (p := version < vdep) (ordered_some.mp h))
      split at h
      · next heq => exact hbegins .ge heq (of_decide_eq_true (p := vdep ≤ version) (ordered_some.mp h))
      split at h
      · next heq => exact hbegins .le heq (of_decide_eq_true (p := version ≤ vdep) (ordered_some.mp h))
      · nomatch h
  · intro h
    rcases h with ⟨op, v, hv, rfl, hholds⟩ | ⟨l, before, rest, rfl, hl, hall⟩
    · exact (cmpDep_compare op hv).mpr hholds
    have hfirst : ∀ s ∈ (l.splitOn ',').head?, IsVersion s := by
      rw [hl]
      intro s hs
      cases before with
      | nil =>
        obtain rfl := Option.some.inj hs
        exact hall _ mem_cons_self
      | cons v before =>
        obtain rfl := Option.some.inj hs
        exact hall _ mem_cons_self
    refine (cmpDep_list ?_ ?_).mpr ⟨before, rest, hl, hall⟩
    · rintro rfl
      exact (hfirst [] rfl).1 rfl
    · intro hhead
      obtain ⟨l', rfl⟩ := List.head?_eq_some_iff.mp hhead
      rw [splitOn_cons_eq_if_modifyHead, if_neg (by decide)] at hfirst
      cases hsplit : l'.splitOn ',' with
      | nil => exact splitOn_ne_nil ',' l' hsplit
      | cons s rest =>
        rw [hsplit] at hfirst
        exact (hfirst _ rfl).head rfl

/-! ## All constraints -/

theorem cmpVersion_ok {version deps : String} :
    (cmpVersion (some version) deps).isOk = true ↔ ∀ w ∈ early deps, Begins version w := by
  have hok : (cmpVersion (some version) deps).isOk = true ↔ cmpVersion (some version) deps = .ok () := by
    cases cmpVersion (some version) deps with
    | ok u => exact iff_of_true rfl rfl
    | error e => exact iff_of_false nofun nofun
  rw [hok, cmpVersion, pieces_eq, forM_ok, forall_mem_map]
  exact forall₂_congr fun w _ => cmpDep_ok

theorem mem_constraints {deps : String} :
    w ∈ constraints deps ↔ w ∈ early deps ∨ w ∈ late deps := by
  have hearly : (early deps).filter (fun w => w ≠ []) = early deps :=
    filter_eq_self.mpr (all_eq_true.mp all_takeWhile)
  rw [constraints, ← takeWhile_append_dropWhile (p := fun w => w ≠ []) (l := deps.toList.splitOn ' '),
    filter_append, mem_append]
  show w ∈ (early deps).filter _ ∨ w ∈ late deps ↔ _
  rw [hearly]

/-- Success means that all constraints are well formed and satisfied if and only if this holds of what is
not read, once the rest is satisfied: the items of a list after the one that is the version, and the
constraints after a space that begins the string or follows another one. -/
theorem cmp_version_conjunction (version deps : String) :
    ((cmpVersion (some version) deps).isOk = true ↔ ∀ w ∈ constraints deps, Accepts version w) ↔
      ((∀ w ∈ early deps, Begins version w) →
        (∀ w ∈ early deps, Formed w) ∧ ∀ w ∈ late deps, Accepts version w) := by
  rw [cmpVersion_ok]
  constructor
  · intro h hbegins
    have hmeets := h.mp hbegins
    constructor
    · exact fun w hw => (accepts_iff.mp (hmeets w (mem_constraints.mpr (Or.inl hw)))).2
    · exact fun w hw => hmeets w (mem_constraints.mpr (Or.inr hw))
  · intro h
    constructor
    · intro hbegins w hw
      obtain ⟨hformed, hlate⟩ := h hbegins
      rcases mem_constraints.mp hw with hw | hw
      · exact accepts_iff.mpr ⟨hbegins w hw, hformed w hw⟩
      · exact hlate w hw
    · intro hmeets w hw
      exact (accepts_iff.mp (hmeets w (mem_constraints.mpr (Or.inl hw)))).1

/-- Two spaces end the string. -/
theorem spaces_hide_constraint :
    (cmpVersion (some "1.0") "=1.0  =2.0").isOk = true ∧
      ¬ ∀ w ∈ constraints "=1.0  =2.0", Accepts "1.0" w := by
  refine ⟨by decide +kernel, fun h => ?_⟩
  have hmeets := h ['=', '2', '.', '0'] (by decide +kernel)
  exact absurd (cmpDep_ok.mpr (accepts_iff.mp hmeets).1) (by decide +kernel)

end Mihini.Update
