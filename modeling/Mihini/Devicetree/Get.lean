import Mathlib.Data.List.TakeWhile
import Mihini.Airvantage.Messages

/-!
# Reading variables

`swi_dt_Get` and `swi_dt_MultipleGet` of `src/cfwk/devicetree/swi_devicetree.c`, with the data sets of
`src/cfwk/racon/swi_dset.c`, over the answers of the agent's `EMPGetVariable`.
-/

namespace Mihini.Devicetree.Get

open Mihini.Airvantage

/-! ## Values -/

def cString (s : Str) : Str := s.takeWhile (· ≠ '\x00')

/-- `swi_dset_PushInteger` and the functions for the other types. -/
def push (set : DSet) (name : Str) (x : Datum) : Rc × DSet :=
  if name = [] then (.badParameter, set) else (.ok, set ++ [(name, x)])

/-- `u.number.flags`, as `(YAJL_NUMBER_INT_VALID, YAJL_NUMBER_DOUBLE_VALID)`: `value_alloc` clears the
union, and of the nodes only a number sets this field, which lies behind those of the others. -/
def numberFlags : Json → Bool × Bool
  | .number n => (n.isInteger, n.isDouble)
  | _ => (false, false)

inductive Answer where
  | failed (rc : Rc)
  /-- The payload is no JSON. -/
  | unparsed
  | notArray
  /-- The value or `niltoken`, and the children of a node or a message. -/
  | array (value : Json) (rest : List Json)

/-- What the switch on the type of the value pushes; `none` is a type that is not supported.  The flags
are those of the array. -/
def pushValue (set : DSet) (path : Str) (value : Json) (rest : List Json) : Option (Rc × DSet) :=
  match value with
  | .number n =>
    let flags := numberFlags (.array (value :: rest))
    if flags.1 then some (push set path (.integer n.i))
    else if flags.2 then some (push set path (.float n.d))
    else some (.ok, set)
  | .string s => some (push set path (.string (cString s)))
  | .null => some (.ok, set)
  | .bool b => some (push set path (.bool b))
  | .array _ | .object _ => none

def lastName (s : Str) : Str := (s.reverse.takeWhile (· ≠ '.')).reverse

def childEntry : Json → Option (Str × Datum)
  | .string s =>
    if '.' ∈ cString s then some (cString s, .string (lastName (cString s))) else none
  | _ => none

def childEntries : List Json → DSet
  | .array children :: _ => children.filterMap childEntry
  | _ => []

/-! ## `swi_dt_Get` -/

def isNull : Json → Bool
  | .null => true
  | _ => false

def unspecifiedError : Rc := .other 5

structure Result where
  rc : Rc
  data : DSet
  /-- `*isLeaf`, when it is set. -/
  isLeaf : Option Bool

variable (agent : Str → Answer)

def swiDtGet : Option Str → Result
  | none => ⟨.notFound, [], none⟩
  | some path =>
    match agent path with
    | .failed rc => ⟨rc, [], none⟩
    | .unparsed => ⟨.badFormat, [], none⟩
    | .notArray => ⟨.badFormat, [], some true⟩
    | .array value rest =>
      match pushValue [] path value rest with
      | none => ⟨.badFormat, [], some true⟩
      | some (rc, set) =>
        if rc ≠ .ok then ⟨unspecifiedError, set, some true⟩
        else if rest = [] then ⟨.ok, set, some true⟩
        else
          let isLeaf := (childEntries rest).isEmpty
          ⟨if isNull value && isLeaf then .notFound else .ok, set ++ childEntries rest, some isLeaf⟩

/-! ## `swi_dt_MultipleGet` -/

def copyEntry (set : DSet) (x : Str × Datum) : DSet :=
  match x.2 with
  | .integer i => (push set x.1 (.integer i)).2
  | .float d => (push set x.1 (.float d)).2
  | .string s => (push set x.1 (.string (cString s))).2
  | .nil | .bool _ | .unsupported => set

/-- The loop over the paths.  `isLeaf` is true unless the single get sets it. -/
def collect (set : DSet) : List (Option Str) → Except Rc DSet
  | [] => .ok set
  | path :: paths =>
    let r := swiDtGet agent path
    if r.isLeaf = some false then collect set paths
    else if r.rc = .notFound then .error .notFound
    else collect (r.data.foldl copyEntry set) paths

def swiDtMultipleGet (paths : List (Option Str)) : Except Rc DSet :=
  if paths = [] then .error .notFound else collect agent [] paths

/-! ## Agreement -/

def valueEntry (path : Str) : Json → DSet
  | .null => []
  | value => [(path, value.datum)]

def ReturnsValue (path : Str) (value : Json) (rest : List Json) : Prop :=
  (swiDtGet agent (some path)).data = valueEntry path value ++ childEntries rest

/-- The values that come through: no numbers, and no strings that a C string cuts. -/
def Carried (path : Str) : Json → Prop
  | .null => True
  | .bool _ => path ≠ []
  | .string s => path ≠ [] ∧ '\x00' ∉ s
  | .number _ | .array _ | .object _ => False

/-- A multiple get fails as soon as a single one does not find a leaf, and else returns the entries of
the leaves in their order. -/
def AgreesWithGets (paths : List (Option Str)) : Prop :=
  ((∃ p ∈ paths, (swiDtGet agent p).isLeaf ≠ some false ∧ (swiDtGet agent p).rc = .notFound) →
    swiDtMultipleGet agent paths = .error .notFound) ∧
  ((¬ ∃ p ∈ paths, (swiDtGet agent p).isLeaf ≠ some false ∧ (swiDtGet agent p).rc = .notFound) →
    swiDtMultipleGet agent paths = .ok (paths.flatMap fun p =>
      if (swiDtGet agent p).isLeaf = some false then [] else (swiDtGet agent p).data))

/-- The agent does not find the path, or has no answer to it that names a child. -/
def Missing : Option Str → Prop
  | none => True
  | some path =>
    match agent path with
    | .failed rc => rc = .notFound
    | .array .null rest => rest ≠ [] ∧ childEntries rest = []
    | _ => False

def IsBoolean : Option Str → Prop
  | none => False
  | some path =>
    match agent path with
    | .array (.bool _) rest => path ≠ [] ∧ childEntries rest = []
    | _ => False

theorem cString_of_notMem {s : Str} (h : '\x00' ∉ s) : cString s = s := by
  refine List.takeWhile_eq_self_iff.mpr fun c hc => ?_
  exact decide_eq_true fun heq => h (heq ▸ hc)

theorem notMem_cString (s : Str) : '\x00' ∉ cString s := by
  intro h
  have hne := List.mem_takeWhile_imp (p := fun c : Char => c ≠ '\x00') h
  exact absurd rfl (of_decide_eq_true hne)

theorem cString_cString (s : Str) : cString (cString s) = cString s :=
  cString_of_notMem (notMem_cString s)

theorem cString_eq_self_iff {s : Str} : cString s = s ↔ '\x00' ∉ s :=
  ⟨fun h => h ▸ notMem_cString s, cString_of_notMem⟩

/-- An entry as `dset_PushData` makes it, of a type that has a value. -/
def Stored (x : Str × Datum) : Prop :=
  x.1 ≠ [] ∧
    match x.2 with
    | .integer _ | .float _ | .bool _ => True
    | .string s => cString s = s
    | .nil | .unsupported => False

def isBool (x : Str × Datum) : Bool :=
  match x.2 with
  | .bool _ => true
  | _ => false

theorem push_of_ne {name : Str} (h : name ≠ []) (set : DSet) (x : Datum) :
    push set name x = (.ok, set ++ [(name, x)]) := if_neg h

variable {x : Str × Datum}

theorem copyEntry_of_stored (h : Stored x) (set : DSet) :
    copyEntry set x = set ++ [x].filter fun x => !isBool x := by
  obtain ⟨name, d⟩ := x
  obtain ⟨hname, hd⟩ := h
  cases d with
  | bool b => exact (List.append_nil set).symm
  | integer i => exact congrArg Prod.snd (push_of_ne hname set (.integer i))
  | float d => exact congrArg Prod.snd (push_of_ne hname set (.float d))
  | string s =>
    have hs : cString s = s := hd
    show (push set name (.string (cString s))).2 = _
    rw [hs]
    exact congrArg Prod.snd (push_of_ne hname set (.string s))
  | nil | unsupported => exact hd.elim

theorem foldl_copyEntry {data : DSet} (h : ∀ x ∈ data, Stored x) (set : DSet) :
    data.foldl copyEntry set = set ++ data.filter fun x => !isBool x := by
  induction data generalizing set with
  | nil => exact (List.append_nil set).symm
  | cons x data ih =>
    rw [List.foldl_cons, copyEntry_of_stored (h x List.mem_cons_self),
      ih fun y hy => h y (List.mem_cons_of_mem _ hy), List.append_assoc, ← List.filter_append]
    rfl

theorem childEntries_stored {rest : List Json} (h : x ∈ childEntries rest) :
    Stored x ∧ isBool x = false := by
  unfold childEntries at h
  split at h
  · obtain ⟨child, -, hchild⟩ := List.mem_filterMap.mp h
    cases child with
    | string s =>
      have hchild : (if '.' ∈ cString s then _ else none) = some x := hchild
      split_ifs at hchild with hdot
      obtain rfl := Option.some.inj hchild
      refine ⟨⟨List.ne_nil_of_mem hdot, cString_of_notMem fun hmem => ?_⟩, rfl⟩
      refine notMem_cString s (List.mem_reverse.mp ?_)
      exact (List.takeWhile_prefix _).subset (List.mem_reverse.mp hmem)
    | null | bool _ | number _ | array _ | object _ => exact nomatch hchild
  · cases h

theorem push_nil_cases (path : Str) (x : Datum) :
    path = [] ∧ push [] path x = (.badParameter, []) ∨
      path ≠ [] ∧ push [] path x = (.ok, [(path, x)]) := by
  by_cases h : path = []
  · exact .inl ⟨h, if_pos h⟩
  · exact .inr ⟨h, if_neg h⟩

section

variable {agent} {path : Str} {value : Json} {rest : List Json}

theorem get_pushed (h : agent path = .array value rest) {set : DSet}
    (hpush : pushValue [] path value rest = some (.ok, set)) :
    swiDtGet agent (some path) =
      ⟨if isNull value && !rest.isEmpty && (childEntries rest).isEmpty then .notFound else .ok,
        set ++ childEntries rest, some (childEntries rest).isEmpty⟩ := by
  simp only [swiDtGet, h, hpush, ne_eq, not_true_eq_false, if_false]
  cases rest with
  | nil =>
    simp only [if_true, List.isEmpty_nil, Bool.not_true, Bool.and_false, Bool.false_and]
    rw [if_neg Bool.false_ne_true, show childEntries [] = [] from rfl, List.append_nil]
    rfl
  | cons c rest =>
    simp only [reduceCtorEq, if_false, List.isEmpty_cons, Bool.not_false, Bool.and_true]

/-- A value that cannot be pushed, since the path is empty. -/
theorem get_refused (h : agent path = .array value rest)
    (hpush : pushValue [] path value rest = some (.badParameter, [])) :
    swiDtGet agent (some path) = ⟨unspecifiedError, [], some true⟩ := by
  simp only [swiDtGet, h, hpush]
  rfl

theorem get_composite (h : agent path = .array value rest)
    (hpush : pushValue [] path value rest = none) :
    swiDtGet agent (some path) = ⟨.badFormat, [], some true⟩ := by
  simp only [swiDtGet, h, hpush]

def gotEntry (path : Str) : Json → DSet
  | .string s => if path = [] then [] else [(path, .string (cString s))]
  | .bool b => if path = [] then [] else [(path, .bool b)]
  | .null | .number _ | .array _ | .object _ => []

/-- What a single get makes of an answer. -/
theorem get_array (h : agent path = .array value rest) :
    (∃ rc, rc ≠ .notFound ∧ gotEntry path value = [] ∧ isNull value = false ∧
      swiDtGet agent (some path) = ⟨rc, [], some true⟩) ∨
    swiDtGet agent (some path) =
      ⟨if isNull value && !rest.isEmpty && (childEntries rest).isEmpty then .notFound else .ok,
        gotEntry path value ++ childEntries rest, some (childEntries rest).isEmpty⟩ := by
  have hpushed : ∀ x : Datum, pushValue [] path value rest = some (push [] path x) →
      gotEntry path value = (if path = [] then [] else [(path, x)]) → isNull value = false →
      (∃ rc, rc ≠ .notFound ∧ gotEntry path value = [] ∧ isNull value = false ∧
        swiDtGet agent (some path) = ⟨rc, [], some true⟩) ∨
      swiDtGet agent (some path) =
        ⟨if isNull value && !rest.isEmpty && (childEntries rest).isEmpty then .notFound else .ok,
          gotEntry path value ++ childEntries rest, some (childEntries rest).isEmpty⟩ := by
    intro x hpush hgot hnull
    rcases push_nil_cases path x with ⟨hpath, hrefused⟩ | ⟨hpath, hok⟩
    · refine .inl ⟨unspecifiedError, nofun, by rw [hgot, if_pos hpath], hnull, ?_⟩
      exact get_refused h (hpush.trans (congrArg some hrefused))
    · refine .inr ?_
      rw [hgot, if_neg hpath]
      exact get_pushed h (hpush.trans (congrArg some hok))
  cases value with
  | null => exact .inr (get_pushed h rfl)
  | number n => exact .inr (get_pushed h rfl)
  | string s => exact hpushed (.string (cString s)) rfl rfl rfl
  | bool b => exact hpushed (.bool b) rfl rfl rfl
  | array values => exact .inl ⟨.badFormat, nofun, rfl, rfl, get_composite h rfl⟩
  | object members => exact .inl ⟨.badFormat, nofun, rfl, rfl, get_composite h rfl⟩

theorem gotEntry_stored {x : Str × Datum} (h : x ∈ gotEntry path value) :
    Stored x ∧ (isBool x = true ↔ ∃ b, value = .bool b) := by
  cases value with
  | null | number _ | array _ | object _ => cases h
  | string s =>
    unfold gotEntry at h
    split_ifs at h with hpath
    · cases h
    · rw [List.mem_singleton.mp h]
      exact ⟨⟨hpath, cString_cString s⟩, nofun, fun ⟨b, hb⟩ => nomatch hb⟩
  | bool b =>
    unfold gotEntry at h
    split_ifs at h with hpath
    · cases h
    · rw [List.mem_singleton.mp h]
      exact ⟨⟨hpath, trivial⟩, fun _ => ⟨b, rfl⟩, fun _ => rfl⟩

end

variable {p : Option Str}

theorem get_stored {agent : Str → Answer}
    (h : x ∈ (swiDtGet agent p).data) : Stored x := by
  cases p with
  | none => cases h
  | some path =>
    cases hanswer : agent path with
    | failed rc | unparsed | notArray =>
      simp only [swiDtGet, hanswer] at h
      cases h
    | array value rest =>
      rcases get_array hanswer with ⟨rc, -, -, -, heq⟩ | heq
      · rw [heq] at h
        cases h
      · rw [heq] at h
        rcases List.mem_append.mp h with h | h
        · exact (gotEntry_stored h).1
        · exact (childEntries_stored h).1

/-- A single get does not find a leaf. -/
theorem missing_iff {agent : Str → Answer} :
    (swiDtGet agent p).isLeaf ≠ some false ∧ (swiDtGet agent p).rc = .notFound ↔
      Missing agent p := by
  cases p with
  | none => exact ⟨fun _ => trivial, fun _ => ⟨nofun, rfl⟩⟩
  | some path =>
    cases hanswer : agent path with
    | failed rc =>
      simp only [swiDtGet, Missing, hanswer]
      exact ⟨And.right, fun h => ⟨nofun, h⟩⟩
    | unparsed | notArray =>
      simp only [swiDtGet, Missing, hanswer]
      exact ⟨fun h => (nomatch h.2), False.elim⟩
    | array value rest =>
      have hmissing : Missing agent (some path) ↔
          isNull value = true ∧ rest ≠ [] ∧ childEntries rest = [] := by
        simp only [Missing, hanswer]
        cases value with
        | null => exact ⟨fun h => ⟨rfl, h⟩, And.right⟩
        | _ => exact ⟨False.elim, fun h => (nomatch h.1)⟩
      rw [hmissing]
      rcases get_array hanswer with ⟨rc, hrc, -, hnull, heq⟩ | heq
      · rw [heq]
        exact ⟨fun h => absurd h.2 hrc, fun h => absurd (hnull.symm.trans h.1) Bool.false_ne_true⟩
      rw [heq]
      constructor
      · intro ⟨_, hrc⟩
        by_contra hnot
        have hfalse : (isNull value && !rest.isEmpty && (childEntries rest).isEmpty) = false := by
          rw [Bool.eq_false_iff]
          intro htrue
          simp only [Bool.and_eq_true, Bool.not_eq_true', List.isEmpty_iff,
            List.isEmpty_eq_false_iff, and_assoc] at htrue
          exact hnot htrue
        rw [hfalse] at hrc
        cases hrc
      · intro ⟨hnull, hrest, hnone⟩
        have htrue : (isNull value && !rest.isEmpty && (childEntries rest).isEmpty) = true := by
          simp only [Bool.and_eq_true, Bool.not_eq_true', List.isEmpty_iff,
            List.isEmpty_eq_false_iff, and_assoc]
          exact ⟨hnull, hrest, hnone⟩
        refine ⟨?_, if_pos htrue⟩
        rw [hnone]
        exact nofun

/-- A leaf has an entry that a multiple get leaves out. -/
theorem isBoolean_iff {agent : Str → Answer} :
    ((swiDtGet agent p).isLeaf ≠ some false ∧ ∃ x ∈ (swiDtGet agent p).data, isBool x = true) ↔
      IsBoolean agent p := by
  cases p with
  | none => exact ⟨fun ⟨_, _, hx, _⟩ => (nomatch hx), False.elim⟩
  | some path =>
    cases hanswer : agent path with
    | failed rc | unparsed | notArray =>
      simp only [swiDtGet, IsBoolean, hanswer]
      exact ⟨fun ⟨_, _, hx, _⟩ => (nomatch hx), False.elim⟩
    | array value rest =>
      have hboolean : IsBoolean agent (some path) ↔
          (∃ b, value = .bool b) ∧ path ≠ [] ∧ childEntries rest = [] := by
        simp only [IsBoolean, hanswer]
        cases value with
        | bool b => exact ⟨fun h => ⟨⟨b, rfl⟩, h⟩, And.right⟩
        | _ => exact ⟨False.elim, fun ⟨⟨_, h⟩, _⟩ => (nomatch h)⟩
      rw [hboolean]
      rcases get_array hanswer with ⟨rc, -, hgot, -, heq⟩ | heq
      · rw [heq]
        refine ⟨fun ⟨_, _, hx, _⟩ => (nomatch hx), fun ⟨⟨b, hb⟩, hpath, _⟩ => ?_⟩
        rw [hb, gotEntry, if_neg hpath] at hgot
        cases hgot
      · rw [heq]
        constructor
        · intro ⟨hleaf, x, hx, hxbool⟩
          have hnone : childEntries rest = [] := by
            cases hentries : childEntries rest with
            | nil => rfl
            | cons y ys =>
              rw [hentries] at hleaf
              exact absurd rfl hleaf
          rw [hnone, List.append_nil] at hx
          obtain ⟨b, rfl⟩ := (gotEntry_stored hx).2.mp hxbool
          refine ⟨⟨b, rfl⟩, fun hpath => ?_, hnone⟩
          rw [gotEntry, if_pos hpath] at hx
          cases hx
        · intro ⟨⟨b, hb⟩, hpath, hnone⟩
          rw [hnone, hb, gotEntry, if_neg hpath]
          exact ⟨nofun, (path, .bool b), List.mem_cons_self, rfl⟩

def leafEntries (p : Option Str) : DSet :=
  if (swiDtGet agent p).isLeaf = some false then [] else (swiDtGet agent p).data

variable {paths : List (Option Str)}

theorem collect_of_missing {agent : Str → Answer}
    (h : ∃ p ∈ paths, Missing agent p) (set : DSet) :
    collect agent set paths = .error .notFound := by
  induction paths generalizing set with
  | nil =>
    obtain ⟨p, hp, -⟩ := h
    cases hp
  | cons p paths ih =>
    rw [collect]
    by_cases hp : Missing agent p
    · obtain ⟨hleaf, hrc⟩ := missing_iff.mpr hp
      rw [if_neg hleaf, if_pos hrc]
    obtain ⟨q, hq, hmissing⟩ := h
    have hrest : ∃ q ∈ paths, Missing agent q := by
      rcases List.mem_cons.mp hq with rfl | hq
      · exact absurd hmissing hp
      · exact ⟨q, hq, hmissing⟩
    by_cases hleaf : (swiDtGet agent p).isLeaf = some false
    · rw [if_pos hleaf]
      exact ih hrest set
    · rw [if_neg hleaf, if_neg fun hrc => hp (missing_iff.mp ⟨hleaf, hrc⟩)]
      exact ih hrest _

theorem collect_of_not_missing {agent : Str → Answer}
    (h : ¬ ∃ p ∈ paths, Missing agent p) (set : DSet) :
    collect agent set paths =
      .ok (set ++ (paths.flatMap (leafEntries agent)).filter fun x => !isBool x) := by
  induction paths generalizing set with
  | nil => exact congrArg Except.ok (List.append_nil set).symm
  | cons p paths ih =>
    have hp : ¬ Missing agent p := fun hp => h ⟨p, List.mem_cons_self, hp⟩
    have hrest : ¬ ∃ q ∈ paths, Missing agent q :=
      fun ⟨q, hq, hmissing⟩ => h ⟨q, List.mem_cons_of_mem _ hq, hmissing⟩
    rw [collect, List.flatMap_cons, List.filter_append, leafEntries]
    by_cases hleaf : (swiDtGet agent p).isLeaf = some false
    · rw [if_pos hleaf, if_pos hleaf]
      exact ih hrest set
    · rw [if_neg hleaf, if_neg hleaf, if_neg fun hrc => hp (missing_iff.mp ⟨hleaf, hrc⟩),
        ih hrest, foldl_copyEntry fun x hx => get_stored hx, List.append_assoc]

theorem copied_all_iff :
    ((paths.flatMap (leafEntries agent)).filter fun x => !isBool x) =
        paths.flatMap (leafEntries agent) ↔
      ∀ p ∈ paths, ¬ IsBoolean agent p := by
  rw [List.filter_eq_self]
  constructor
  · intro h p hp hboolean
    obtain ⟨hleaf, x, hx, hxbool⟩ := isBoolean_iff.mpr hboolean
    have hmem : x ∈ paths.flatMap (leafEntries agent) := by
      refine List.mem_flatMap.mpr ⟨p, hp, ?_⟩
      rw [leafEntries, if_neg hleaf]
      exact hx
    have hnot := h x hmem
    rw [hxbool] at hnot
    cases hnot
  · intro h x hx
    obtain ⟨p, hp, hx⟩ := List.mem_flatMap.mp hx
    rw [leafEntries] at hx
    split_ifs at hx with hleaf
    · cases hx
    · refine Bool.not_eq_true' _ |>.mpr (Bool.eq_false_iff.mpr fun hxbool => ?_)
      exact h p hp (isBoolean_iff.mp ⟨hleaf, x, hx, hxbool⟩)

theorem agrees_iff (hne : paths ≠ []) :
    AgreesWithGets agent paths ↔
      (∃ p ∈ paths, Missing agent p) ∨ ∀ p ∈ paths, ¬ IsBoolean agent p := by
  unfold AgreesWithGets swiDtMultipleGet
  simp only [missing_iff, if_neg hne]
  by_cases hmissing : ∃ p ∈ paths, Missing agent p
  · exact iff_of_true ⟨fun _ => collect_of_missing hmissing [], fun h => absurd hmissing h⟩
      (.inl hmissing)
  rw [collect_of_not_missing hmissing, List.nil_append, ← copied_all_iff]
  constructor
  · intro h
    exact .inr (Except.ok.inj (h.2 hmissing))
  · intro h
    exact ⟨fun hm => absurd hm hmissing,
      fun _ => congrArg Except.ok (h.resolve_left hmissing)⟩

/-- A single get returns the value of the answer exactly when it is carried. -/
theorem returnsValue_iff {path : Str} {value : Json} {rest : List Json}
    (h : agent path = .array value rest) :
    ReturnsValue agent path value rest ↔ Carried path value := by
  have hentry : ReturnsValue agent path value rest ↔ gotEntry path value = valueEntry path value := by
    unfold ReturnsValue
    rcases get_array h with ⟨rc, -, hgot, hnull, heq⟩ | heq
    · rw [heq, hgot]
      cases value with
      | null => cases hnull
      | _ => exact ⟨nofun, nofun⟩
    · rw [heq]
      exact List.append_left_inj _
  rw [hentry]
  cases value with
  | null => exact iff_of_true rfl trivial
  | number _ | array _ | object _ => exact ⟨nofun, False.elim⟩
  | string s =>
    by_cases hpath : path = []
    · rw [gotEntry, if_pos hpath]
      exact ⟨nofun, fun h => absurd hpath h.1⟩
    rw [gotEntry, if_neg hpath, Carried, ← cString_eq_self_iff]
    constructor
    · intro heq
      have hdatum := congrArg Prod.snd (List.cons.inj heq).1
      exact ⟨hpath, Datum.string.inj hdatum⟩
    · intro ⟨_, heq⟩
      rw [heq]
      rfl
  | bool b =>
    by_cases hpath : path = []
    · rw [gotEntry, if_pos hpath]
      exact ⟨nofun, fun h => absurd hpath h⟩
    · rw [gotEntry, if_neg hpath]
      exact iff_of_true rfl hpath

/-- For each answer a single get returns the value exactly when it is carried, and a multiple get of at
least one path agrees with the single ones exactly when a path is missing or none leads to a boolean. -/
theorem gets_agree (agent : Str → Answer) :
    (∀ path value rest, agent path = .array value rest →
      (ReturnsValue agent path value rest ↔ Carried path value)) ∧
    ∀ paths, AgreesWithGets agent paths ↔
      paths ≠ [] ∧ ((∃ p ∈ paths, Missing agent p) ∨ ∀ p ∈ paths, ¬ IsBoolean agent p) := by
  refine ⟨fun path value rest h => returnsValue_iff agent h, fun paths => ?_⟩
  by_cases hne : paths = []
  · subst hne
    refine iff_of_false (fun h => ?_) fun h => h.1 rfl
    have hnone : ¬ ∃ p ∈ ([] : List (Option Str)),
        (swiDtGet agent p).isLeaf ≠ some false ∧ (swiDtGet agent p).rc = .notFound :=
      fun ⟨p, hp, _⟩ => nomatch hp
    exact nomatch h.2 hnone
  · exact (agrees_iff agent hne).trans ⟨fun h => ⟨hne, h⟩, And.right⟩

def smallTree (path : Str) : Answer :=
  if path = ['a'] then .array (.string ['x']) []
  else .array .null [.array [.string "n.c".toList]]

theorem gets_agree_small :
    ReturnsValue smallTree ['a'] (.string ['x']) [] ∧
      AgreesWithGets smallTree [some ['n'], some ['a']] := by
  refine ⟨((gets_agree smallTree).1 ['a'] (.string ['x']) [] rfl).mpr ⟨by decide, by decide⟩, ?_⟩
  refine ((gets_agree smallTree).2 _).mpr ⟨by decide, .inr fun p hp => ?_⟩
  rcases List.mem_cons.mp hp with rfl | hp
  · exact id
  · rw [List.mem_singleton.mp hp]
    exact id

/-- An integer gives no entry and no error, and a boolean is left out of a multiple get. -/
theorem values_lost :
    swiDtGet (fun _ => .array (.number ⟨5, true, 0, true⟩) []) (some ['a']) =
        ⟨.ok, [], some true⟩ ∧
      swiDtGet (fun _ => .array (.bool true) []) (some ['b']) =
        ⟨.ok, [(['b'], .bool true)], some true⟩ ∧
      swiDtMultipleGet (fun _ => .array (.bool true) []) [some ['b']] = .ok [] :=
  ⟨rfl, rfl, rfl⟩

end Mihini.Devicetree.Get
