import Mihini.Lib.Run
import Mihini.Update.Consistency
import Mihini.Update.Dependencies

/-!
# The software list

What `updateswlist` and `checkplatformcmp` of `src/agent/agent/update/common.lua` make of the list of
components, and the check of `checkswlist` in `pkgcheck.lua`.
-/

namespace Mihini.Update

open Mihini.Lib Software World List

namespace SwList

def init : SwList := ⟨∅, none, none⟩

/-- The component that `checkplatformcmp` puts in the list. -/
def platformCmp (provides : Attributes) : Cmp := ⟨"platform", some "N/A", provides, ∅⟩

/-- `updateswlist`, for a component that may have a `uid`. -/
def update (l : SwList) (uid : Option Nat) (c : Cmp) : SwList :=
  match uid with
  | some uid => putSwlist l uid c
  | none => updateswlist l c

/-- The components that `ipairs` gives. -/
def seen (components : LuaTable Nat Cmp) : List Cmp :=
  (((List.range components.keys.length).map (· + 1)).takeWhile fun uid =>
    (components.lookup uid).isSome).filterMap components.lookup

/-- Failures of `updateswstate` are ignored. -/
def checkswlist (o : Order) (l : SwList) : Except String Unit :=
  checkswstate o ((seen l.components).foldl (fun swstate c => (updateswstate o swstate c true).1) .empty)

inductive Change where
  | update (uid : Option Nat) (c : Cmp)
  | platform (provides : Attributes)

def step (l : SwList) : Change → SwList
  | .update uid c => l.update uid c
  | .platform provides => l.update (some 0) (platformCmp provides)

/-! ## The claim -/

def Met (s : Software) (c : Cmp) : Prop := ∀ dep deps, c.depends.lookup dep = some deps → s.Satisfies dep deps

def listed (l : SwList) : Software := ofList (installed l.components)

def checked (l : SwList) : Software := ofList (seen l.components)

/-- What the check does not see makes no difference, or there are components that fail with and without
it. -/
def Harmless (l : SwList) : Prop :=
  ((∀ c ∈ installed l.components, c ∉ seen l.components → Met l.listed c) ∧
    ∀ c ∈ seen l.components, Met l.listed c → Met l.checked c) ∨
  (∃ c ∈ seen l.components, ¬ Met l.checked c) ∧ ∃ c ∈ installed l.components, ¬ Met l.listed c

/-- No manifest gives its component a `uid`, and the name of the platform's component is its own. -/
def Regular (l : SwList) : Change → Prop
  | .update uid _ => uid = none
  | .platform _ => ∀ uid c, l.components.lookup uid = some c → c.name = "platform" → uid = 0

/-- The names are unique, a change keeps the unique id of each component that stays, and the check is
exact when no component is hidden from it that matters. -/
structure Exact (l : SwList) : Prop where
  names : ∀ uid uid' c c', l.components.lookup uid = some c → l.components.lookup uid' = some c' →
    c.name = c'.name → uid = uid'
  kept : ∀ e, Regular l e → ∀ uid uid' c c', l.components.lookup uid = some c →
    (step l e).components.lookup uid' = some c' → c.name = c'.name → uid = uid'
  check : l.checked.NoClash → ∀ o, ((checkswlist o l).isOk = true ↔
    ∀ c ∈ installed l.components, Met l.listed c) ↔ Harmless l

/-! ## What a change does -/

def ceiling (l : SwList) : Nat := l.appuid.getD 0

structure Inv (l : SwList) : Prop where
  names : ∀ uid uid' c c', l.components.lookup uid = some c → l.components.lookup uid' = some c' →
    c.name = c'.name → uid = uid'
  bounded : ∀ uid c, l.components.lookup uid = some c → uid ≤ l.ceiling
  platform : ∀ c, l.components.lookup 0 = some c → c.name = "platform"

structure Puts (l l' : SwList) (uid : Nat) (name : String) : Prop where
  others : ∀ v, v ≠ uid → l'.components.lookup v = l.components.lookup v
  named : ∀ c, l'.components.lookup uid = some c → c.name = name
  fits : ∀ v d, l.components.lookup v = some d → (d.name = name ↔ v = uid)
  ceiling : l.ceiling ≤ l'.ceiling
  bounded : uid ≤ l'.ceiling
  origin : l.components.lookup uid ≠ none ∨ l.ceiling < uid ∨ uid = 0 ∧ name = "platform"

theorem newUid_eq (l : SwList) : newUid l = l.ceiling + 1 := by
  rw [newUid, ceiling]
  cases l.appuid <;> rfl

theorem uidOf_some {l : SwList} {name : String} {uid : Nat} (h : uidOf l name = some uid) :
    ∃ c, l.components.lookup uid = some c ∧ c.name = name := by
  obtain ⟨e, he, rfl⟩ := Option.map_eq_some_iff.mp h
  refine ⟨e.2, LuaTable.mem_entries_iff.mp (mem_of_find?_eq_some he), ?_⟩
  exact of_decide_eq_true (List.find?_some (p := fun e : Sigma fun _ : Nat => Cmp => e.2.name = name) he)

theorem uidOf_none {l : SwList} {name : String} (h : uidOf l name = none) {uid : Nat} {c : Cmp}
    (hc : l.components.lookup uid = some c) : c.name ≠ name := by
  have hfind := List.find?_eq_none.mp (Option.map_eq_none_iff.mp h) ⟨uid, c⟩ (LuaTable.mem_entries_iff.mpr hc)
  simpa using hfind

section

variable {l : SwList}

theorem lookup_putSwlist_ne {uid v : Nat} (h : v ≠ uid) (c : Cmp) :
    (putSwlist l uid c).components.lookup v = l.components.lookup v := by
  rw [putSwlist]
  split
  · exact AList.lookup_insert_ne h
  · exact AList.lookup_erase_ne h

theorem named_putSwlist {uid : Nat} {c d : Cmp} (h : (putSwlist l uid c).components.lookup uid = some d) :
    d.name = c.name := by
  rw [putSwlist] at h
  split at h
  · rw [show ({ l with components := l.components.insert uid c } : SwList).components.lookup uid = some c from
      AList.lookup_insert _] at h
    rw [Option.some.inj h]
  · rw [show ({ l with components := l.components.erase uid } : SwList).components.lookup uid = none from
      AList.lookup_erase _ _] at h
    cases h

theorem ceiling_putSwlist (uid : Nat) (c : Cmp) : (putSwlist l uid c).ceiling = l.ceiling := by
  rw [putSwlist]
  split <;> rfl

theorem Inv.puts (h : Inv l) {e : Change} (he : Regular l e) : ∃ uid name, Puts l (step l e) uid name := by
  cases e with
  | update uid c =>
    obtain rfl : uid = none := he
    show ∃ uid name, Puts l (updateswlist l c) uid name
    rw [updateswlist]
    cases huid : uidOf l c.name with
    | some uid =>
      obtain ⟨d, hd, hname⟩ := uidOf_some huid
      refine ⟨uid, c.name, fun v hv => lookup_putSwlist_ne hv c, fun _ => named_putSwlist, ?_, ?_, ?_, ?_⟩
      · intro v d' hd'
        constructor
        · exact fun hname' => h.names v uid d' d hd' hd (hname'.trans hname.symm)
        · rintro rfl
          rw [← hname, Option.some.inj (hd'.symm.trans hd)]
      · exact Nat.le_of_eq (ceiling_putSwlist uid c).symm
      · rw [ceiling_putSwlist]
        exact h.bounded uid d hd
      · exact Or.inl (by rw [hd]; rintro ⟨⟩)
    | none =>
      refine ⟨newUid l, c.name, fun v hv => lookup_putSwlist_ne hv c, fun _ => named_putSwlist, ?_, ?_, ?_, ?_⟩
      · intro v d hd
        refine iff_of_false (uidOf_none huid hd) ?_
        have hle := h.bounded v d hd
        rw [newUid_eq]
        omega
      · rw [ceiling_putSwlist]
        show l.ceiling ≤ newUid l
        rw [newUid_eq]
        omega
      · rw [ceiling_putSwlist]
        exact Nat.le_refl _
      · refine Or.inr (Or.inl ?_)
        rw [newUid_eq]
        omega
  | platform provides =>
    refine ⟨0, "platform", fun v hv => lookup_putSwlist_ne hv _, fun _ => named_putSwlist, ?_, ?_, ?_, ?_⟩
    · intro v d hd
      constructor
      · exact fun hname => he v d hd hname
      · rintro rfl
        exact h.platform d hd
    · exact Nat.le_of_eq (ceiling_putSwlist 0 _).symm
    · exact Nat.zero_le _
    · exact Or.inr (Or.inr ⟨rfl, rfl⟩)

variable {l' : SwList} {uid : Nat} {name : String}

theorem Puts.kept (hp : Puts l l' uid name) (h : Inv l) {v v' : Nat} {c c' : Cmp}
    (hc : l.components.lookup v = some c) (hc' : l'.components.lookup v' = some c') (heq : c.name = c'.name) :
    v = v' := by
  by_cases hv' : v' = uid
  · subst hv'
    exact (hp.fits v c hc).mp (heq.trans (hp.named c' hc'))
  · rw [hp.others v' hv'] at hc'
    exact h.names v v' c c' hc hc' heq

theorem Puts.inv (hp : Puts l l' uid name) (h : Inv l) : Inv l' where
  names v v' c c' hc hc' heq := by
    by_cases hv : v = uid
    · by_cases hv' : v' = uid
      · exact hv.trans hv'.symm
      · rw [hp.others v' hv'] at hc'
        have hname : c'.name = name := heq.symm.trans (hp.named c (hv ▸ hc))
        exact absurd ((hp.fits v' c' hc').mp hname) hv'
    · rw [hp.others v hv] at hc
      exact hp.kept h hc hc' heq
  bounded v c hc := by
    by_cases hv : v = uid
    · exact hv ▸ hp.bounded
    · rw [hp.others v hv] at hc
      exact Nat.le_trans (h.bounded v c hc) hp.ceiling
  platform c hc := by
    by_cases hv : 0 = uid
    · subst hv
      rw [hp.named c hc]
      rcases hp.origin with hne | hlt | ⟨-, hname⟩
      · obtain ⟨d, hd⟩ := Option.ne_none_iff_exists'.mp hne
        rw [← (hp.fits 0 d hd).mpr rfl, h.platform d hd]
      · exact absurd hlt (Nat.not_lt_zero _)
      · exact hname
    · rw [hp.others 0 hv] at hc
      exact h.platform c hc

theorem Inv.step (h : Inv l) {e : Change} (he : Regular l e) : Inv (step l e) := by
  obtain ⟨uid, name, hp⟩ := h.puts he
  exact hp.inv h

theorem Inv.init : Inv init where
  names := nofun
  bounded := nofun
  platform := nofun

variable {c : Cmp}

theorem mem_seen (h : c ∈ seen l.components) : ∃ uid, l.components.lookup uid = some c := by
  obtain ⟨uid, -, hc⟩ := mem_filterMap.mp h
  exact ⟨uid, hc⟩

theorem mem_installed : c ∈ installed l.components ↔ ∃ uid, l.components.lookup uid = some c := by
  rw [installed, mem_map]
  constructor
  · intro h
    obtain ⟨e, he, rfl⟩ := h
    exact ⟨e.1, LuaTable.mem_entries_iff.mp he⟩
  · intro h
    obtain ⟨uid, hc⟩ := h
    exact ⟨⟨uid, c⟩, LuaTable.mem_entries_iff.mpr hc, rfl⟩

theorem Inv.nodup_seen (h : Inv l) : ((seen l.components).map Cmp.name).Nodup := by
  rw [seen, map_filterMap]
  have hrange : ((List.range l.components.keys.length).map (· + 1)).Nodup :=
    nodup_range.map fun a b heq => Nat.succ.inj heq
  refine List.Nodup.filterMap ?_ (hrange.sublist (takeWhile_sublist _))
  intro v v' name hv hv'
  obtain ⟨c, hc, rfl⟩ := Option.map_eq_some_iff.mp hv
  obtain ⟨c', hc', heq⟩ := Option.map_eq_some_iff.mp hv'
  exact h.names v v' c c' hc hc' heq.symm

theorem Inv.nodup_installed (h : Inv l) : ((installed l.components).map Cmp.name).Nodup := by
  rw [installed, map_map]
  refine List.Nodup.map_on ?_ l.components.nodupKeys.nodup
  intro e he e' he' heq
  obtain ⟨v, c⟩ := e
  obtain ⟨v', c'⟩ := e'
  rw [LuaTable.mem_entries_iff] at he he'
  obtain rfl := h.names v v' c c' he he' heq
  rw [Option.some.inj (he.symm.trans he')]

theorem Inv.checked_sub (h : Inv l) {n : String} (hc : l.checked n = some c) :
    l.listed n = some c := by
  obtain ⟨hmem, hname⟩ := (ofList_eq_some h.nodup_seen).mp hc
  exact (ofList_eq_some h.nodup_installed).mpr ⟨mem_installed.mpr (mem_seen hmem), hname⟩

theorem Inv.met_of_checked (h : Inv l) (hc : Met l.checked c) : Met l.listed c := by
  intro dep deps hdep
  rcases hc dep deps hdep with ⟨d, hd, hok⟩ | ⟨n, d, v, hd, hv, hok⟩
  · exact Or.inl ⟨d, h.checked_sub hd, hok⟩
  · exact Or.inr ⟨n, d, v, h.checked_sub hd, hv, hok⟩

theorem Inv.checkswlist_ok (h : Inv l) (hclash : l.checked.NoClash) (o : Order) :
    (checkswlist o l).isOk = true ↔ ∀ c ∈ seen l.components, Met l.checked c := by
  have hrep := rep_foldl h.nodup_seen hclash o (nil_append _).symm rep_empty
  have hcheck := checkswstate_ok hrep hclash o
  have hok : (checkswlist o l).isOk = true ↔ checkswlist o l = .ok () := by
    cases checkswlist o l with
    | ok u => exact iff_of_true rfl rfl
    | error e => exact iff_of_false nofun nofun
  rw [hok, checkswlist, hcheck]
  constructor
  · intro hs c hc
    exact hs.satisfied c.name c ((ofList_eq_some h.nodup_seen).mpr ⟨hc, rfl⟩)
  · intro hall
    exact ⟨hclash, fun n c hc => hall c ((ofList_eq_some h.nodup_seen).mp hc).1⟩

theorem Inv.exact (h : Inv l) : Exact l where
  names := h.names
  kept e he v v' c c' hc hc' heq := by
    obtain ⟨uid, name, hp⟩ := h.puts he
    exact hp.kept h hc hc' heq
  check hclash o := by
    rw [h.checkswlist_ok hclash o]
    constructor
    · intro hiff
      by_cases hall : ∀ c ∈ seen l.components, Met l.checked c
      · exact Or.inl ⟨fun c hc _ => hiff.mp hall c hc, fun c hc _ => hall c hc⟩
      · have hnot : ¬ ∀ c ∈ installed l.components, Met l.listed c := fun hlisted => hall (hiff.mpr hlisted)
        push Not at hall hnot
        exact Or.inr ⟨hall, hnot⟩
    · intro hharmless
      rcases hharmless with ⟨hunseen, hseen⟩ | ⟨⟨c, hc, hnot⟩, ⟨c', hc', hnot'⟩⟩
      · constructor
        · intro hall c hc
          by_cases hmem : c ∈ seen l.components
          · exact h.met_of_checked (hall c hmem)
          · exact hunseen c hc hmem
        · exact fun hall c hc => hseen c hc (hall c (mem_installed.mpr (mem_seen hc)))
      · exact iff_of_false (fun hall => hnot (hall c hc)) fun hall => hnot' (hall c' hc')

end

end SwList

end Mihini.Update
