import Mihini.Bysant.Serializer

/-!
# Cells written into a staging table

The writers of `sdb_write.c`: the check of the limit, the statistics of the columns and the
count of the cells. What the serializer answers is given with each write, and a signed overflow
has no meaning. No function of the sources sets a limit.
-/

namespace Mihini.Bysant.Staging

open List

/-! ## The writers -/

inductive TableState
  | unconfigured
  | reading
  | serializing
  | broken
  deriving DecidableEq

inductive Container
  | fastest
  | smallest
  | list
  | deltasVector
  | quasiperiodicVector
  deriving DecidableEq

structure Column where
  container : Container
  fixedPrecision : Bool
  gcd : Int
  prevValue : Int
  deltaSum : Int
  allInteger : Bool
  allNumeric : Bool

structure Table where
  state : TableState
  columns : List Column
  nwrittenobjects : Nat
  maxwrittenobjects : Nat

def Table.ncolumns (t : Table) : Nat := t.columns.length

inductive Answer
  | eok
  | ebadstate
  | efull
  | einternal
  | bss (status : Status)
  deriving DecidableEq

def gcd (a b : Int) : Option Int :=
  if b = 0 then some a
  else if a = -2 ^ 31 ∧ b = -1 then none
  else gcd b (a.tmod b)
termination_by b.natAbs
decreasing_by
  rw [Int.natAbs_tmod]
  exact Nat.mod_lt _ (by omega)

inductive Value
  | integer (i : Int)
  | noninteger (numeric : Bool)

def Column.analyzeNoninteger (c : Column) (numeric : Bool) : Column :=
  if c.container = .smallest then
    { c with allInteger := false, allNumeric := c.allNumeric && numeric }
  else c

/-- `first` is whether the cell is in the first row. -/
def Column.analyzeInteger (c : Column) (first : Bool) (i : Int) : Option Column :=
  if c.container = .smallest ∧ c.allInteger then do
    let deltaSum ← if first then some c.deltaSum
      else (cint (i - c.prevValue)).bind fun delta => cint (c.deltaSum + delta)
    let g := if first then i else c.gcd
    let g ← if c.fixedPrecision then some g else Staging.gcd i g
    some { c with gcd := g, deltaSum := deltaSum, prevValue := i }
  else some c

def Column.analyze (c : Column) (first : Bool) : Value → Option Column
  | .integer i => c.analyzeInteger first i
  | .noninteger numeric => some (c.analyzeNoninteger numeric)

namespace Table

def analyze (t : Table) (v : Value) : Option Table := do
  let c ← t.columns[t.nwrittenobjects % t.ncolumns]?
  let c' ← c.analyze (t.nwrittenobjects < t.ncolumns) v
  some { t with columns := t.columns.set (t.nwrittenobjects % t.ncolumns) c' }

def counted (t : Table) : Table := { t with nwrittenobjects := t.nwrittenobjects + 1 }

def guarded (t : Table) (body : Option (Answer × Table)) : Option (Answer × Table) :=
  if t.state ≠ .reading then some (.ebadstate, t)
  else if t.maxwrittenobjects ≠ 0 ∧ t.maxwrittenobjects ≥ t.nwrittenobjects then some (.efull, t)
  else body

/-- The body of `sdb_raw`, whose writer takes `r` bytes of `length` or fails. -/
def raw (t : Table) (r : Int) (length : Nat) : Option (Answer × Table) := do
  let t ← t.analyze (.noninteger false)
  if r < 0 then some (.eok, t)
  else if r ≠ length then some (.einternal, t)
  else some (.eok, t.counted)

def cell (t : Table) (v : Value) (r : Status) : Option (Answer × Table) := do
  let t ← t.analyze v
  if r ≠ .eok then some (.bss r, t) else some (.eok, t.counted)

end Table

/-- A call of a writer. `sdb_number` is one of `sdb_int` or of `sdb_double`. -/
inductive Write
  | raw (r : Int) (length : Nat)
  | double (r : Status)
  | lstring (r : Status)
  | string (r : Status)
  | int (i : Int) (r : Status)
  | bool (r : Status)
  | null (r : Status)

def Write.body (t : Table) : Write → Option (Answer × Table)
  | .raw r length => t.raw r length
  | .double r => t.cell (.noninteger true) r
  | .lstring r => t.cell (.noninteger false) r
  | .string r => t.cell (.noninteger false) r
  | .int i r => t.cell (.integer i) r
  | .bool r => t.cell (.noninteger false) r
  | .null r => t.cell (.noninteger false) r

def Table.write (t : Table) (w : Write) : Option (Answer × Table) := t.guarded (w.body t)

/-! ## The limit -/

def Table.Full (t : Table) : Prop :=
  t.maxwrittenobjects ≠ 0 ∧ t.maxwrittenobjects ≤ t.nwrittenobjects

instance (t : Table) : Decidable t.Full := inferInstanceAs (Decidable (_ ∧ _))

def Table.Limited : Table → List Write → Prop
  | _, [] => True
  | t, w :: ws => t.write w = (if t.Full then some (.efull, t) else w.body t) ∧
      ∀ r, t.write w = some r → r.2.Limited ws

variable {t t' : Table} {w : Write} {a : Answer}

theorem Table.analyze_keeps {v : Value} (h : t.analyze v = some t') :
    t'.state = t.state ∧ t'.nwrittenobjects = t.nwrittenobjects ∧
      t'.maxwrittenobjects = t.maxwrittenobjects := by
  obtain ⟨c, -, h⟩ := Option.bind_eq_some_iff.mp h
  obtain ⟨c', -, h⟩ := Option.bind_eq_some_iff.mp h
  cases h
  exact ⟨rfl, rfl, rfl⟩

theorem Write.body_keeps (h : w.body t = some (a, t')) :
    a ≠ .efull ∧ t'.state = t.state ∧ t'.maxwrittenobjects = t.maxwrittenobjects := by
  have hcell : ∀ v r, t.cell v r = some (a, t') →
      a ≠ .efull ∧ t'.state = t.state ∧ t'.maxwrittenobjects = t.maxwrittenobjects := by
    intro v r h
    obtain ⟨s, hs, h⟩ := Option.bind_eq_some_iff.mp h
    obtain ⟨hstate, -, hmax⟩ := Table.analyze_keeps hs
    split_ifs at h <;> cases h <;> exact ⟨nofun, hstate, hmax⟩
  cases w with
  | raw r length =>
    obtain ⟨s, hs, h⟩ := Option.bind_eq_some_iff.mp h
    obtain ⟨hstate, -, hmax⟩ := Table.analyze_keeps hs
    split_ifs at h <;> cases h <;> exact ⟨nofun, hstate, hmax⟩
  | double r | lstring r | string r | int i r | bool r | null r => exact hcell _ r h

/-- The writes are limited only when there is none, no limit or a table that is full and has no
cell beyond its limit. -/
theorem limited_iff {m : Nat} (hreading : t.state = .reading)
    (hlimit : t.maxwrittenobjects = m * t.ncolumns) (ws : List Write) :
    t.Limited ws ↔
      ws = [] ∨ m * t.ncolumns = 0 ∨ t.nwrittenobjects = m * t.ncolumns := by
  rw [← hlimit]
  have hguard : ∀ s : Table, s.state = .reading → ∀ w : Write, s.write w =
      if s.maxwrittenobjects ≠ 0 ∧ s.maxwrittenobjects ≥ s.nwrittenobjects then some (.efull, s)
      else w.body s := fun s hs w => if_neg (not_not.mpr hs)
  constructor
  · intro h
    cases ws with
    | nil => exact .inl rfl
    | cons w ws =>
      refine .inr (or_iff_not_imp_left.mpr fun hne => ?_)
      obtain ⟨h, -⟩ := h
      rw [hguard t hreading] at h
      by_cases hfull : t.Full
      · rw [if_pos hfull] at h
        refine Nat.le_antisymm ?_ hfull.2
        by_contra hmore
        rw [if_neg fun hle => hmore hle.2] at h
        exact (Write.body_keeps h).1 rfl
      · rw [if_neg hfull, if_pos ⟨hne, Nat.le_of_not_le fun hle => hfull ⟨hne, hle⟩⟩] at h
        exact absurd rfl (Write.body_keeps h.symm).1
  · intro h
    by_cases hzero : t.maxwrittenobjects = 0
    · clear hlimit h
      induction ws generalizing t with
      | nil => exact True.intro
      | cons w ws ih =>
        have hw : t.write w = w.body t :=
          (hguard t hreading w).trans (if_neg fun hle => hle.1 hzero)
        refine ⟨hw.trans (if_neg fun hfull => hfull.1 hzero).symm, fun r hr => ?_⟩
        obtain ⟨-, hstate, hmax⟩ := Write.body_keeps (hw.symm.trans hr)
        exact ih (hstate.trans hreading) (hmax.trans hzero)
    · rcases h with rfl | h | heq
      · exact True.intro
      · exact absurd h hzero
      have hfull : t.Full := ⟨hzero, Nat.le_of_eq heq.symm⟩
      have hw : ∀ w, t.write w = some (.efull, t) := fun w =>
        (hguard t hreading w).trans (if_pos ⟨hzero, Nat.le_of_eq heq⟩)
      induction ws with
      | nil => exact True.intro
      | cons w ws ih =>
        refine ⟨(hw w).trans (if_pos hfull).symm, fun r hr => ?_⟩
        cases (hw w).symm.trans hr
        exact ih

def plain : Column := ⟨.list, false, 0, 0, 0, true, true⟩

theorem limited_two : (⟨.reading, [plain, plain], 2, 2⟩ : Table).Limited [.null .eok, .bool .eok] :=
  (limited_iff (m := 1) rfl rfl _).mpr (.inr (.inr rfl))

/-- An empty table that may have a row refuses its first cell. -/
theorem empty_table_full : ¬ ∀ (t : Table) (m : Nat) (ws : List Write), t.state = .reading →
    t.maxwrittenobjects = m * t.ncolumns → t.Limited ws := by
  intro h
  obtain ⟨h, -⟩ := h ⟨.reading, [plain], 0, 1⟩ 1 [.null .eok] rfl rfl
  rw [if_neg (by decide)] at h
  exact (Write.body_keeps (h.symm.trans rfl)).1 rfl

end Mihini.Bysant.Staging
