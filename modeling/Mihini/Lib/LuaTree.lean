import Mathlib.Data.List.Infix
import Mathlib.Data.List.Perm.Basic

/-!
# Trees of Lua tables

Tables of tables, whose fields are visited in a fixed order, and the leaves they have, each at its
path.  A value that is put at a path where there is room for it adds its leaves to those of the tree
and takes none away.
-/

namespace Mihini.Lib

open List

mutual

inductive LuaTree (κ α : Type) where
  | leaf (a : α)
  | table (fields : LuaFields κ α)

inductive LuaFields (κ α : Type) where
  | nil
  | cons (key : κ) (t : LuaTree κ α) (rest : LuaFields κ α)

end

variable {κ α : Type}

def below (path : List κ) (leaves : List (List κ × α)) : List (List κ × α) :=
  leaves.map fun x => (path ++ x.1, x.2)

@[simp] theorem below_nil (leaves : List (List κ × α)) : below [] leaves = leaves :=
  map_id _

@[simp] theorem below_append (path : List κ) (a b : List (List κ × α)) :
    below path (a ++ b) = below path a ++ below path b :=
  map_append

theorem below_below (path path' : List κ) (leaves : List (List κ × α)) :
    below path (below path' leaves) = below (path ++ path') leaves := by
  show List.map _ (List.map _ leaves) = List.map _ leaves
  rw [map_map]
  apply map_congr_left
  intro x _
  show (path ++ (path' ++ x.1), x.2) = ((path ++ path') ++ x.1, x.2)
  rw [append_assoc]

theorem below_perm (path : List κ) {a b : List (List κ × α)} (h : a.Perm b) :
    (below path a).Perm (below path b) :=
  h.map _

def Apart (p q : List κ) : Prop := ¬ p <+: q ∧ ¬ q <+: p

instance [DecidableEq κ] (p q : List κ) : Decidable (Apart p q) :=
  inferInstanceAs (Decidable (_ ∧ _))

theorem Apart.tail {k : κ} {p q : List κ} (h : Apart (k :: p) (k :: q)) : Apart p q :=
  ⟨fun hp => h.1 (cons_prefix_cons.mpr ⟨rfl, hp⟩),
    fun hq => h.2 (cons_prefix_cons.mpr ⟨rfl, hq⟩)⟩

mutual

def LuaTree.leaves : LuaTree κ α → List (List κ × α)
  | .leaf a => [([], a)]
  | .table fields => fields.leaves

def LuaFields.leaves : LuaFields κ α → List (List κ × α)
  | .nil => []
  | .cons key t rest => below [key] t.leaves ++ rest.leaves

end

namespace LuaFields

@[elab_as_elim, induction_eliminator]
theorem fieldwise {motive : LuaFields κ α → Prop} (nil : motive .nil)
    (cons : ∀ key t rest, motive rest → motive (.cons key t rest)) : ∀ f, motive f
  | .nil => nil
  | .cons key t rest => cons key t rest (fieldwise nil cons rest)

def keys : LuaFields κ α → List κ
  | .nil => []
  | .cons key _ rest => key :: rest.keys

def toList : LuaFields κ α → List (κ × LuaTree κ α)
  | .nil => []
  | .cons key t rest => (key, t) :: rest.toList

def isEmpty : LuaFields κ α → Bool
  | .nil => true
  | .cons .. => false

theorem leaves_of_isEmpty {f : LuaFields κ α} (h : f.isEmpty = true) : f.leaves = [] := by
  cases f with
  | nil => rfl
  | cons => nomatch h

def snoc : LuaFields κ α → κ → LuaTree κ α → LuaFields κ α
  | .nil, k, t => .cons k t .nil
  | .cons k' t' rest, k, t => .cons k' t' (rest.snoc k t)

theorem leaves_snoc (f : LuaFields κ α) (k : κ) (t : LuaTree κ α) :
    (f.snoc k t).leaves = f.leaves ++ below [k] t.leaves := by
  induction f with
  | nil => exact append_nil _
  | cons k' t' rest ih =>
    show below [k'] t'.leaves ++ (rest.snoc k t).leaves = _
    rw [ih]
    exact (append_assoc _ _ _).symm

section

variable [DecidableEq κ]

def lookup : LuaFields κ α → κ → Option (LuaTree κ α)
  | .nil, _ => none
  | .cons k' t' rest, k => if k' = k then some t' else rest.lookup k

def sub (f : LuaFields κ α) (k : κ) : LuaFields κ α :=
  match f.lookup k with
  | some (.table fields) => fields
  | _ => .nil

def replace : LuaFields κ α → κ → LuaTree κ α → LuaFields κ α
  | .nil, _, _ => .nil
  | .cons k' t' rest, k, t => if k' = k then .cons k t rest else .cons k' t' (rest.replace k t)

def Free : LuaFields κ α → List κ → Prop
  | _, [] => False
  | f, k :: ks =>
    match f.lookup k with
    | none => True
    | some (.leaf _) => False
    | some (.table fields) => fields.Free ks

end

section

variable [DecidableEq κ] (before : κ → κ → Bool)

def place : LuaFields κ α → κ → LuaTree κ α → LuaFields κ α
  | .nil, k, t => .cons k t .nil
  | .cons k' t' rest, k, t =>
    if before k k' then .cons k t (.cons k' t' rest) else .cons k' t' (rest.place k t)

def insert (f : LuaFields κ α) (k : κ) (t : LuaTree κ α) : LuaFields κ α :=
  if (f.lookup k).isSome then f.replace k t else f.place before k t

/-- The assignment at a path, which makes tables of what is not one on its way. -/
def set : LuaFields κ α → List κ → LuaTree κ α → LuaFields κ α
  | f, [], _ => f
  | f, [k], t => f.insert before k t
  | f, k :: k' :: ks, t => f.insert before k (.table ((f.sub k).set (k' :: ks) t))

end

/-! ## Fields -/

section

variable [DecidableEq κ] {f : LuaFields κ α} {k j : κ} {t : LuaTree κ α}

theorem lookup_cons_self (t : LuaTree κ α) (rest : LuaFields κ α) :
    (cons k t rest).lookup k = some t :=
  if_pos rfl

theorem lookup_cons_ne (h : k ≠ j) (t : LuaTree κ α) (rest : LuaFields κ α) :
    (cons k t rest).lookup j = rest.lookup j :=
  if_neg h

theorem lookup_replace_ne (h : k ≠ j) : (f.replace k t).lookup j = f.lookup j := by
  induction f with
  | nil => rfl
  | cons k' t' rest ih =>
    by_cases hk : k' = k
    · show (if k' = k then cons k t rest else cons k' t' (rest.replace k t)).lookup j = _
      rw [if_pos hk, lookup_cons_ne h, lookup_cons_ne (hk ▸ h)]
    show (if k' = k then cons k t rest else cons k' t' (rest.replace k t)).lookup j = _
    rw [if_neg hk]
    show (if k' = j then some t' else (rest.replace k t).lookup j) = _
    rw [ih]
    rfl

theorem lookup_replace_self (h : (f.lookup k).isSome) : (f.replace k t).lookup k = some t := by
  induction f with
  | nil => exact absurd h Bool.false_ne_true
  | cons k' t' rest ih =>
    show (if k' = k then cons k t rest else cons k' t' (rest.replace k t)).lookup k = _
    by_cases hk : k' = k
    · rw [if_pos hk, lookup_cons_self]
    · rw [if_neg hk, lookup_cons_ne hk]
      rw [lookup_cons_ne hk] at h
      exact ih h

theorem leaves_replace {t₀ : LuaTree κ α} (h : f.lookup k = some t₀) :
    ((f.replace k t).leaves ++ below [k] t₀.leaves).Perm (f.leaves ++ below [k] t.leaves) := by
  induction f with
  | nil => nomatch h
  | cons k' t' rest ih =>
    show ((if k' = k then cons k t rest else cons k' t' (rest.replace k t)).leaves ++ _).Perm
      ((below [k'] t'.leaves ++ rest.leaves) ++ _)
    by_cases hk : k' = k
    · subst hk
      rw [lookup_cons_self] at h
      rw [if_pos rfl, ← Option.some.inj h]
      show ((below [k'] t.leaves ++ rest.leaves) ++ _).Perm _
      rw [append_assoc]
      exact perm_append_comm.trans ((perm_append_comm).append_right _)
    · rw [lookup_cons_ne hk] at h
      rw [if_neg hk]
      show ((below [k'] t'.leaves ++ (rest.replace k t).leaves) ++ _).Perm _
      rw [append_assoc, append_assoc]
      exact (ih h).append_left _

variable (before : κ → κ → Bool)

theorem lookup_place_ne (h : k ≠ j) : (f.place before k t).lookup j = f.lookup j := by
  induction f with
  | nil => exact lookup_cons_ne h t nil
  | cons k' t' rest ih =>
    show (if before k k' then cons k t (cons k' t' rest)
      else cons k' t' (rest.place before k t)).lookup j = _
    cases before k k' with
    | true => exact lookup_cons_ne h t _
    | false =>
      show (if k' = j then some t' else (rest.place before k t).lookup j) = _
      rw [ih]
      rfl

theorem lookup_place_self (h : f.lookup k = none) : (f.place before k t).lookup k = some t := by
  induction f with
  | nil => exact lookup_cons_self t nil
  | cons k' t' rest ih =>
    show (if before k k' then cons k t (cons k' t' rest)
      else cons k' t' (rest.place before k t)).lookup k = _
    have hne : k' ≠ k := by
      intro heq
      subst heq
      rw [lookup_cons_self] at h
      nomatch h
    cases before k k' with
    | true => exact lookup_cons_self t _
    | false =>
      rw [lookup_cons_ne hne] at h
      show (cons k' t' (rest.place before k t)).lookup k = _
      rw [lookup_cons_ne hne, ih h]

omit [DecidableEq κ] in
theorem leaves_place : (f.place before k t).leaves.Perm (f.leaves ++ below [k] t.leaves) := by
  induction f with
  | nil => exact perm_append_comm
  | cons k' t' rest ih =>
    show (if before k k' then cons k t (cons k' t' rest)
      else cons k' t' (rest.place before k t)).leaves.Perm _
    cases before k k' with
    | true => exact perm_append_comm
    | false =>
      show (below [k'] t'.leaves ++ (rest.place before k t).leaves).Perm
        ((below [k'] t'.leaves ++ rest.leaves) ++ _)
      rw [append_assoc]
      exact ih.append_left _

theorem lookup_insert_self : (f.insert before k t).lookup k = some t := by
  rw [insert]
  cases h : f.lookup k with
  | none => exact lookup_place_self before h
  | some t₀ => exact lookup_replace_self (by rw [h]; rfl)

theorem lookup_insert_ne (h : k ≠ j) : (f.insert before k t).lookup j = f.lookup j := by
  rw [insert]
  split
  · exact lookup_replace_ne h
  · exact lookup_place_ne before h

theorem leaves_insert (h : f.lookup k = none) :
    (f.insert before k t).leaves.Perm (f.leaves ++ below [k] t.leaves) := by
  rw [insert, h]
  exact leaves_place before

/-! ## Paths -/

@[simp] theorem not_free_nil : ¬ f.Free [] := fun h => h

theorem free_of_lookup_none (h : f.lookup k = none) (ks : List κ) : f.Free (k :: ks) := by
  rw [Free, h]
  trivial

theorem nil_free (k : κ) (ks : List κ) : (nil : LuaFields κ α).Free (k :: ks) :=
  free_of_lookup_none rfl ks

theorem sub_of_none (h : f.lookup k = none) : f.sub k = nil := by
  rw [sub, h]

theorem sub_of_table {fields : LuaFields κ α} (h : f.lookup k = some (.table fields)) :
    f.sub k = fields := by
  rw [sub, h]

theorem leaves_insert_sub {fields : LuaFields κ α} {more : List (List κ × α)}
    (h : f.lookup k = some (.table (f.sub k)))
    (hfields : fields.leaves.Perm ((f.sub k).leaves ++ more)) :
    (f.insert before k (.table fields)).leaves.Perm (f.leaves ++ below [k] more) := by
  have hreplace := leaves_replace (t := .table fields) h
  rw [insert, h]
  show (f.replace k (.table fields)).leaves.Perm _
  have hwhole := hreplace.trans ((below_perm [k] hfields).append_left f.leaves)
  rw [below_append, ← append_assoc] at hwhole
  have hswap : (f.leaves ++ below [k] (f.sub k).leaves ++ below [k] more).Perm
      (f.leaves ++ below [k] more ++ below [k] (f.sub k).leaves) := by
    rw [append_assoc, append_assoc]
    exact perm_append_comm.append_left _
  exact (perm_append_right_iff _).mp (hwhole.trans hswap)

/-- A value at a path that is free adds its leaves. -/
theorem leaves_set {p : List κ} (h : f.Free p) :
    (f.set before p t).leaves.Perm (f.leaves ++ below p t.leaves) := by
  induction p generalizing f with
  | nil => exact absurd h not_free_nil
  | cons k ks ih =>
    rw [Free] at h
    cases ks with
    | nil =>
      cases hk : f.lookup k with
      | none => exact leaves_insert before hk
      | some t₀ =>
        rw [hk] at h
        cases t₀ with
        | leaf => exact h.elim
        | table => exact absurd h not_free_nil
    | cons k' ks =>
      have hpath : below (k :: k' :: ks) t.leaves = below [k] (below (k' :: ks) t.leaves) :=
        (below_below [k] (k' :: ks) t.leaves).symm
      rw [hpath]
      cases hk : f.lookup k with
      | none =>
        show (f.insert before k (.table ((f.sub k).set before (k' :: ks) t))).leaves.Perm _
        rw [sub_of_none hk]
        exact (leaves_insert before hk).trans
          ((below_perm [k] (ih (nil_free k' ks))).append_left _)
      | some t₀ =>
        rw [hk] at h
        cases t₀ with
        | leaf => exact h.elim
        | table fields =>
          have hsub := sub_of_table hk
          rw [← hsub] at hk h
          exact leaves_insert_sub before hk (ih h)

theorem Free.congr {f' : LuaFields κ α} {ks : List κ} (h : f.Free (k :: ks))
    (hk : f'.lookup k = f.lookup k) : f'.Free (k :: ks) := by
  rw [Free] at h ⊢
  rw [hk]
  exact h

/-- A path that is free stays free when a value is put at another one. -/
theorem Free.set {p q : List κ} (h : f.Free q) (hpq : Apart p q) :
    (f.set before p t).Free q := by
  induction p generalizing f q with
  | nil => exact absurd nil_prefix hpq.1
  | cons k ks ih =>
    cases q with
    | nil => exact absurd h not_free_nil
    | cons j js =>
      by_cases hkj : k = j
      · subst hkj
        cases ks with
        | nil => exact absurd (cons_prefix_cons.mpr ⟨rfl, nil_prefix⟩) hpq.1
        | cons k' ks =>
          cases js with
          | nil => exact absurd (cons_prefix_cons.mpr ⟨rfl, nil_prefix⟩) hpq.2
          | cons j' js =>
            show (f.insert before k (.table ((f.sub k).set before (k' :: ks) t))).Free _
            rw [Free, lookup_insert_self]
            rw [Free] at h
            cases hk : f.lookup k with
            | none =>
              rw [sub_of_none hk]
              exact ih (nil_free j' js) hpq.tail
            | some t₀ =>
              rw [hk] at h
              cases t₀ with
              | leaf => exact h.elim
              | table fields =>
                rw [sub_of_table hk]
                exact ih h hpq.tail
      · cases ks with
        | nil => exact h.congr (lookup_insert_ne before hkj)
        | cons k' ks => exact h.congr (lookup_insert_ne before hkj)

/-- Values put at paths that are apart from each other leave their leaves and nothing else. -/
theorem leaves_sets {entries : List (List κ × LuaTree κ α)}
    (hfree : ∀ x ∈ entries, f.Free x.1) (hapart : entries.Pairwise fun x y => Apart x.1 y.1) :
    (entries.foldl (fun f x => f.set before x.1 x.2) f).leaves.Perm
      (f.leaves ++ entries.flatMap fun x => below x.1 x.2.leaves) := by
  induction entries generalizing f with
  | nil =>
    rw [flatMap_nil, append_nil]
    exact List.Perm.refl _
  | cons x entries ih =>
    rw [pairwise_cons] at hapart
    have hx := leaves_set before (t := x.2) (hfree x mem_cons_self)
    have hrest : ∀ y ∈ entries, (f.set before x.1 x.2).Free y.1 := by
      intro y hy
      exact (hfree y (mem_cons_of_mem x hy)).set before (hapart.1 y hy)
    rw [foldl_cons, flatMap_cons, ← append_assoc]
    exact (ih hrest hapart.2).trans (hx.append_right _)

end

end LuaFields

end Mihini.Lib
