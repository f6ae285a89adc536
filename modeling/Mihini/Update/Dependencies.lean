import Mihini.Update.PkgCheck

/-!
# The software state through a manifest

What it means for installed components to be consistent, and that the simulation of the package
checks keeps exactly the manifests that leave them so after each of their components.
-/

namespace Mihini.Update

open Mihini.Lib Checks AList LuaTable List

/-! ## Consistent software -/

abbrev Software := String → Option Cmp

namespace Software

def ofList (l : List Cmp) : Software := fun name => l.find? fun c => c.name = name

def set (s : Software) (c : Cmp) (install : Bool) : Software :=
  Function.update s c.name (if install then some c else none)

def apply (s : Software) (c : Cmp) : Software := s.set c c.version.isSome

def NoClash (s : Software) : Prop :=
  ∀ n c, s n = some c → ∀ f v, c.provides.lookup f = some v → s f = none

def Satisfies (s : Software) (dep deps : String) : Prop :=
  (∃ c, s dep = some c ∧ accepts c.version deps = true) ∨
    ∃ n c v, s n = some c ∧ c.provides.lookup dep = some v ∧ accepts (some v) deps = true

structure Consistent (s : Software) : Prop where
  noClash : s.NoClash
  satisfied : ∀ n c, s n = some c → ∀ dep deps, c.depends.lookup dep = some deps →
    s.Satisfies dep deps

/-- After each prefix of the components the software is consistent, and what is removed was
installed. -/
structure Sound (s : Software) (l : List Cmp) : Prop where
  consistent : ∀ done, done <+: l → (done.foldl apply s).Consistent
  removed : ∀ done c, done ++ [c] <+: l → c.version = none → (done.foldl apply s c.name).isSome

theorem set_of_ne {s : Software} {c : Cmp} {n : String} (h : n ≠ c.name) (install : Bool) :
    s.set c install n = s n := Function.update_of_ne h _ _

@[simp] theorem set_true (s : Software) (c : Cmp) : s.set c true c.name = some c :=
  Function.update_self ..

@[simp] theorem set_false (s : Software) (c : Cmp) : s.set c false c.name = none :=
  Function.update_self ..

end Software

/-! ## The features -/

def versions (feats : LuaTable String (LuaTable String String)) (f n : String) : Option String :=
  (feats.lookup f).bind fun t => t.lookup n

theorem versions_addFeature (feats : LuaTable String (LuaTable String String))
    (f n v f' n' : String) :
    versions (addFeature feats f n v) f' n' =
      if f' = f ∧ n' = n then some v else versions feats f' n' := by
  by_cases hf : f' = f
  · subst hf
    rw [versions, addFeature, lookup_insert, Option.bind_some]
    by_cases hn : n' = n
    · subst hn
      rw [lookup_insert, if_pos ⟨rfl, rfl⟩]
    · rw [lookup_insert_ne hn, if_neg fun h => hn h.2, versions]
      cases feats.lookup f' <;> rfl
  · rw [versions, addFeature, lookup_insert_ne hf, if_neg fun h => hf h.1]
    rfl

theorem isSome_addFeature (feats : LuaTable String (LuaTable String String))
    (f n v f' : String) :
    ((addFeature feats f n v).lookup f').isSome = true ↔
      f' = f ∨ (feats.lookup f').isSome = true := by
  by_cases hf : f' = f
  · rw [addFeature, hf, lookup_insert]
    simp
  · rw [addFeature, lookup_insert_ne hf, or_iff_right hf]

variable {cmps : LuaTable String Cmp} {feats : LuaTable String (LuaTable String String)} {l : List (String × String × String)} {name : String}

theorem recompute_ok
    :
    (recompute name cmps feats l).2 = .ok () ↔ ∀ x ∈ l, cmps.lookup x.1 = none := by
  induction l generalizing feats with
  | nil => exact ⟨fun _ _ hx => absurd hx not_mem_nil, fun _ => rfl⟩
  | cons x l ih =>
    obtain ⟨f, n, v⟩ := x
    rw [forall_mem_cons, recompute]
    split
    · next hsome =>
      constructor
      · exact fun h => absurd h nofun
      · intro h
        rw [h.1] at hsome
        exact absurd hsome nofun
    · next hnone => rw [ih, and_iff_right (Option.not_isSome_iff_eq_none.mp hnone)]

theorem recompute_cons {f : String}
    (hf : cmps.lookup f = none) (n v : String) (l : List (String × String × String))
    (feats : LuaTable String (LuaTable String String)) :
    recompute name cmps feats ((f, n, v) :: l) = recompute name cmps (addFeature feats f n v) l := by
  rw [recompute, hf]
  rfl

def Functional (l : List (String × String × String)) : Prop :=
  ∀ f n v v', (f, n, v) ∈ l → (f, n, v') ∈ l → v = v'

theorem versions_recompute
    (hok : ∀ x ∈ l, cmps.lookup x.1 = none) (hl : Functional l) (f n v : String) :
    versions (recompute name cmps feats l).1 f n = some v ↔
      (f, n, v) ∈ l ∨ (∀ v', (f, n, v') ∉ l) ∧ versions feats f n = some v := by
  induction l generalizing feats with
  | nil => simp [recompute]
  | cons x l ih =>
    obtain ⟨f₀, n₀, v₀⟩ := x
    obtain ⟨hx, hrest⟩ := forall_mem_cons.mp hok
    have hl' : Functional l := fun f n v v' h h' =>
      hl f n v v' (mem_cons_of_mem _ h) (mem_cons_of_mem _ h')
    rw [recompute_cons hx, ih hrest hl', versions_addFeature]
    by_cases heq : f = f₀ ∧ n = n₀
    · obtain ⟨rfl, rfl⟩ := heq
      rw [if_pos ⟨rfl, rfl⟩]
      constructor
      · intro h
        rcases h with h | ⟨-, h⟩
        · exact Or.inl (mem_cons_of_mem _ h)
        · obtain rfl := Option.some.inj h
          exact Or.inl mem_cons_self
      · intro h
        rcases h with h | ⟨h, -⟩
        · have hv : v₀ = v := hl f n v₀ v mem_cons_self h
          by_cases hmem : ∃ v', (f, n, v') ∈ l
          · obtain ⟨v', hv'⟩ := hmem
            have : v₀ = v' := hl f n v₀ v' mem_cons_self (mem_cons_of_mem _ hv')
            rw [← hv, this]
            exact Or.inl hv'
          · exact Or.inr ⟨fun v' hv' => hmem ⟨v', hv'⟩, congrArg some hv⟩
        · exact absurd mem_cons_self (h v₀)
    · have hne : ∀ v', (f, n, v') ≠ (f₀, n₀, v₀) := fun v' h =>
        heq ⟨(Prod.mk.inj h).1, (Prod.mk.inj (Prod.mk.inj h).2).1⟩
      rw [if_neg heq]
      simp only [mem_cons, hne, false_or]

theorem isSome_recompute
    (hok : ∀ x ∈ l, cmps.lookup x.1 = none) (f : String) :
    ((recompute name cmps feats l).1.lookup f).isSome = true ↔
      (∃ n v, (f, n, v) ∈ l) ∨ (feats.lookup f).isSome = true := by
  induction l generalizing feats with
  | nil => simp [recompute]
  | cons x l ih =>
    obtain ⟨f₀, n₀, v₀⟩ := x
    obtain ⟨hx, hrest⟩ := forall_mem_cons.mp hok
    rw [recompute_cons hx, ih hrest, isSome_addFeature]
    constructor
    · intro h
      rcases h with ⟨n, v, h⟩ | rfl | h
      · exact Or.inl ⟨n, v, mem_cons_of_mem _ h⟩
      · exact Or.inl ⟨n₀, v₀, mem_cons_self⟩
      · exact Or.inr h
    · intro h
      rcases h with ⟨n, v, h⟩ | h
      · rcases mem_cons.mp h with heq | h
        · exact Or.inr (Or.inl (Prod.mk.inj heq).1)
        · exact Or.inl ⟨n, v, h⟩
      · exact Or.inr (Or.inr h)

/-! ## The simulated state -/

structure Holds (cmps : LuaTable String Cmp) (s : Software) : Prop where
  cmps : ∀ n, cmps.lookup n = s n
  names : ∀ n c, s n = some c → c.name = n

structure SwState.Rep (swstate : SwState) (s : Software) : Prop extends Holds swstate.cmps s where
  versions : ∀ f n v, versions swstate.feats f n = some v ↔
    ∃ c, s n = some c ∧ c.provides.lookup f = some v
  feats : ∀ f, (swstate.feats.lookup f).isSome = true ↔
    ∃ n c v, s n = some c ∧ c.provides.lookup f = some v

variable {s : Software}

theorem mem_provided (h : Holds cmps s) (o : Order)
    {f n v : String} :
    (f, n, v) ∈ provided o cmps ↔ ∃ c, s n = some c ∧ c.provides.lookup f = some v := by
  rw [provided, mem_flatMap]
  constructor
  · intro hmem
    obtain ⟨⟨k, c⟩, hc, hp⟩ := hmem
    obtain ⟨⟨f', v'⟩, hf, heq⟩ := mem_map.mp hp
    rw [o.mem, mem_entries_iff] at hc hf
    rw [h.cmps] at hc
    obtain ⟨rfl, hnv⟩ := Prod.mk.inj heq
    obtain ⟨rfl, rfl⟩ := Prod.mk.inj hnv
    exact ⟨c, (h.names k c hc).symm ▸ hc, hf⟩
  · intro hmem
    obtain ⟨c, hc, hf⟩ := hmem
    refine ⟨⟨n, c⟩, ?_, mem_map.mpr ⟨⟨f, v⟩, ?_, ?_⟩⟩
    · rw [o.mem, mem_entries_iff, h.cmps]
      exact hc
    · rw [o.mem, mem_entries_iff]
      exact hf
    · rw [h.names n c hc]

theorem functional_provided (h : Holds cmps s)
    (o : Order) : Functional (provided o cmps) := by
  intro f n v v' hv hv'
  obtain ⟨c, hc, hf⟩ := (mem_provided h o).mp hv
  obtain ⟨c', hc', hf'⟩ := (mem_provided h o).mp hv'
  obtain rfl : c = c' := Option.some.inj (hc.symm.trans hc')
  exact Option.some.inj (hf.symm.trans hf')

theorem recompute_noClash (h : Holds cmps s)
    (o : Order) (name : String) :
    (recompute name cmps ∅ (provided o cmps)).2 = .ok () ↔ s.NoClash := by
  rw [recompute_ok]
  constructor
  · intro hall n c hc f v hf
    rw [← h.cmps]
    exact hall (f, n, v) ((mem_provided h o).mpr ⟨c, hc, hf⟩)
  · intro hclash x hx
    obtain ⟨c, hc, hf⟩ := (mem_provided h o).mp hx
    rw [h.cmps]
    exact hclash _ c hc _ _ hf

theorem rep_recompute (h : Holds cmps s)
    (o : Order) (name : String) (hclash : s.NoClash) :
    SwState.Rep ⟨cmps, (recompute name cmps ∅ (provided o cmps)).1⟩ s := by
  have hok := recompute_ok.mp ((recompute_noClash h o name).mpr hclash)
  refine ⟨h, ?_, ?_⟩
  · intro f n v
    rw [← mem_provided h o, versions_recompute hok (functional_provided h o)]
    simp [Update.versions]
  · intro f
    show ((recompute name cmps ∅ (provided o cmps)).1.lookup f).isSome = true ↔ _
    rw [isSome_recompute hok, or_iff_left (by simp)]
    simp only [mem_provided h o]
    constructor
    · intro hmem
      obtain ⟨n, v, c, hc, hv⟩ := hmem
      exact ⟨n, c, v, hc, hv⟩
    · intro hmem
      obtain ⟨n, c, v, hc, hv⟩ := hmem
      exact ⟨n, v, c, hc, hv⟩

theorem holds_insert (h : Holds cmps s) (c : Cmp) :
    Holds (cmps.insert c.name c) (s.set c true) := by
  constructor
  · intro n
    by_cases hn : n = c.name
    · rw [hn, lookup_insert, Software.set_true]
    · rw [lookup_insert_ne hn, Software.set_of_ne hn, h.cmps]
  · intro n d hd
    by_cases hn : n = c.name
    · rw [hn, Software.set_true] at hd
      rw [hn, Option.some.inj hd]
    · rw [Software.set_of_ne hn] at hd
      exact h.names n d hd

theorem holds_erase (h : Holds cmps s) (c : Cmp) :
    Holds (cmps.erase c.name) (s.set c false) := by
  constructor
  · intro n
    by_cases hn : n = c.name
    · rw [hn, lookup_erase, Software.set_false]
    · rw [lookup_erase_ne hn, Software.set_of_ne hn, h.cmps]
  · intro n d hd
    by_cases hn : n = c.name
    · rw [hn, Software.set_false] at hd
      exact absurd hd nofun
    · rw [Software.set_of_ne hn] at hd
      exact h.names n d hd

variable {swstate : SwState}

theorem clash_of_feature (h : swstate.Rep s)
    (hclash : s.NoClash) {c : Cmp} (hfeat : (swstate.feats.lookup c.name).isSome = true) :
    ¬ (s.set c true).NoClash := by
  intro hnew
  obtain ⟨n, d, v, hd, hv⟩ := (h.feats c.name).mp hfeat
  have hne : n ≠ c.name := by
    intro heq
    have := hclash n d hd c.name v hv
    rw [← heq, hd] at this
    exact absurd this nofun
  have := hnew n d (by rw [Software.set_of_ne hne, hd]) c.name v hv
  rw [Software.set_true] at this
  exact absurd this nofun

theorem updateswstate_spec (h : swstate.Rep s)
    (hclash : s.NoClash) (o : Order) (c : Cmp) (install : Bool) :
    ((updateswstate o swstate c install).2 = .ok () ↔ (s.set c install).NoClash) ∧
      ((s.set c install).NoClash → (updateswstate o swstate c install).1.Rep (s.set c install)) := by
  cases install with
  | true =>
    have hholds := holds_insert h.toHolds c
    by_cases hfeat : (swstate.feats.lookup c.name).isSome = true
    · have hbad := clash_of_feature h hclash hfeat
      rw [updateswstate, if_pos (by rw [hfeat]; rfl)]
      exact ⟨⟨fun hok => absurd hok nofun, fun hnew => absurd hnew hbad⟩,
        fun hnew => absurd hnew hbad⟩
    · rw [updateswstate, if_neg (by simpa using hfeat)]
      exact ⟨recompute_noClash hholds o c.name, rep_recompute hholds o c.name⟩
  | false =>
    have hholds := holds_erase h.toHolds c
    exact ⟨recompute_noClash hholds o c.name, rep_recompute hholds o c.name⟩

theorem checkdep_ok (h : swstate.Rep s)
    (hclash : s.NoClash) (o : Order) (cmpname dep deps : String) :
    checkdep o swstate cmpname dep deps = .ok () ↔ s.Satisfies dep deps := by
  rw [checkdep, h.cmps]
  cases hdep : s dep with
  | some c =>
    show require _ _ = _ ↔ _
    rw [require_ok]
    constructor
    · exact fun hok => Or.inl ⟨c, hdep, hok⟩
    · intro hsat
      rcases hsat with ⟨c', hc', hok⟩ | ⟨n, c', v, hc', hv, -⟩
      · obtain rfl := Option.some.inj (hdep.symm.trans hc')
        exact hok
      · rw [hclash n c' hc' dep v hv] at hdep
        exact absurd hdep nofun
  | none =>
    have hfeat : s.Satisfies dep deps ↔
        ∃ n c v, s n = some c ∧ c.provides.lookup dep = some v ∧ accepts (some v) deps = true := by
      constructor
      · intro hsat
        rcases hsat with ⟨c', hc', -⟩ | hsat
        · rw [hdep] at hc'
          exact absurd hc' nofun
        · exact hsat
      · exact Or.inr
    rw [hfeat]
    cases hlookup : swstate.feats.lookup dep with
    | none =>
      constructor
      · exact fun hok => absurd hok nofun
      · intro hsat
        obtain ⟨n, c, v, hc, hv, -⟩ := hsat
        have := (h.feats dep).mpr ⟨n, c, v, hc, hv⟩
        rw [hlookup] at this
        exact absurd this nofun
    | some t =>
      have hversions : ∀ n v, t.lookup n = some v ↔
          ∃ c, s n = some c ∧ c.provides.lookup dep = some v := by
        intro n v
        rw [← h.versions dep n v, Update.versions, hlookup, Option.bind_some]
      show require _ _ = _ ↔ _
      rw [require_ok, any_eq_true]
      constructor
      · intro hany
        obtain ⟨⟨n, v⟩, hmem, hok⟩ := hany
        rw [o.mem, mem_entries_iff] at hmem
        obtain ⟨c, hc, hv⟩ := (hversions n v).mp hmem
        exact ⟨n, c, v, hc, hv, hok⟩
      · intro hsat
        obtain ⟨n, c, v, hc, hv, hok⟩ := hsat
        refine ⟨⟨n, v⟩, ?_, hok⟩
        rw [o.mem, mem_entries_iff]
        exact (hversions n v).mpr ⟨c, hc, hv⟩

theorem checkswstate_ok (h : swstate.Rep s)
    (hclash : s.NoClash) (o : Order) :
    checkswstate o swstate = .ok () ↔ s.Consistent := by
  rw [checkswstate, forM_ok]
  simp only [forM_ok, o.mem, checkdep_ok h hclash]
  constructor
  · intro hall
    refine ⟨hclash, fun n c hc dep deps hdep => ?_⟩
    exact hall ⟨n, c⟩ (mem_entries_iff.mpr (by rw [h.cmps, hc])) ⟨dep, deps⟩
      (mem_entries_iff.mpr hdep)
  · intro hs cmp hcmp dep hdep
    rw [mem_entries_iff] at hcmp hdep
    rw [h.cmps] at hcmp
    exact hs.satisfied cmp.1 cmp.2 hcmp dep.1 dep.2 hdep

theorem rep_empty : SwState.empty.Rep (Software.ofList []) where
  cmps _ := rfl
  names := nofun
  versions f n v := by
    constructor
    · exact fun h => absurd h nofun
    · intro h
      obtain ⟨c, hc, -⟩ := h
      exact absurd hc nofun
  feats f := by
    constructor
    · exact fun h => absurd h nofun
    · intro h
      obtain ⟨n, c, v, hc, -⟩ := h
      exact absurd hc nofun

namespace Software

theorem ofList_eq_some {l : List Cmp} (hl : (l.map Cmp.name).Nodup) {n : String} {c : Cmp} :
    ofList l n = some c ↔ c ∈ l ∧ c.name = n := by
  constructor
  · intro h
    exact ⟨mem_of_find?_eq_some h, by simpa using List.find?_some h⟩
  · intro h
    obtain ⟨hmem, rfl⟩ := h
    induction l with
    | nil => exact absurd hmem not_mem_nil
    | cons d l ih =>
      obtain ⟨hd, hl'⟩ := nodup_cons.mp hl
      rcases mem_cons.mp hmem with rfl | hmem
      · simp [ofList]
      · have hne : d.name ≠ c.name := by
          intro heq
          exact hd (heq ▸ mem_map_of_mem hmem)
        rw [← ih hl' hmem]
        simp [ofList, hne]

theorem noClash_of_subset {l done : List Cmp} (hl : (l.map Cmp.name).Nodup)
    (hdone : (done.map Cmp.name).Nodup) (hsub : ∀ c ∈ done, c ∈ l) (h : (ofList l).NoClash) :
    (ofList done).NoClash := by
  intro n c hc f v hf
  obtain ⟨hmem, hname⟩ := (ofList_eq_some hdone).mp hc
  have hnone := h n c ((ofList_eq_some hl).mpr ⟨hsub c hmem, hname⟩) f v hf
  cases hd : ofList done f with
  | none => rfl
  | some d =>
    obtain ⟨hdmem, hdname⟩ := (ofList_eq_some hdone).mp hd
    rw [(ofList_eq_some hl).mpr ⟨hsub d hdmem, hdname⟩] at hnone
    exact absurd hnone nofun

theorem set_ofList {done : List Cmp} {c : Cmp} (hnew : ((done ++ [c]).map Cmp.name).Nodup) :
    (ofList done).set c true = ofList (done ++ [c]) := by
  funext n
  by_cases hn : n = c.name
  · rw [hn, set_true]
    exact ((ofList_eq_some hnew).mpr ⟨by simp, rfl⟩).symm
  · rw [set_of_ne hn, ofList, ofList, List.find?_append]
    simp [Ne.symm hn]

end Software

open Software

/-- The loop over the software list, after the components `done`. -/
theorem rep_foldl {l : List Cmp} (hl : (l.map Cmp.name).Nodup) (hclash : (ofList l).NoClash)
    (o : Order) {done rest : List Cmp}
    (heq : l = done ++ rest) (h : swstate.Rep (ofList done)) :
    (rest.foldl (fun swstate c => (updateswstate o swstate c true).1) swstate).Rep
      (ofList l) := by
  induction rest generalizing done swstate with
  | nil =>
    rw [heq, append_nil]
    exact h
  | cons c rest ih =>
    have hsub : ∀ done' rest', l = done' ++ rest' → (ofList done').NoClash := by
      intro done' rest' heq'
      have hnodup : (done'.map Cmp.name).Nodup := by
        rw [heq', map_append] at hl
        exact hl.of_append_left
      apply noClash_of_subset hl hnodup _ hclash
      intro d hd
      rw [heq']
      exact mem_append_left _ hd
    have heq' : l = (done ++ [c]) ++ rest := by rw [heq, append_assoc]; rfl
    have hnew : ((done ++ [c]).map Cmp.name).Nodup := by
      rw [heq', map_append] at hl
      exact hl.of_append_left
    have hupdate := (updateswstate_spec h (hsub done (c :: rest) heq) o c true).2
    rw [set_ofList hnew] at hupdate
    exact ih heq' (hupdate (hsub _ _ heq'))

def installed (components : LuaTable Nat Cmp) : List Cmp := components.entries.map fun e => e.2

/-- `path` is where the update package has been extracted to. -/
structure Component.WellFormed (accessible : String → Bool) (directory : String)
    (cmp : Component) : Prop where
  name : ∃ n, cmp.name = .given n ∧ n ≠ ""
  location : cmp.location = .absent ∨
    ∃ l, cmp.location = .given l ∧ l ≠ "" ∧ accessible (directory ++ "/" ++ l) = true
  version : cmp.version = .absent ∨
    ∃ v, cmp.version = .given v ∧ v ≠ "" ∧ checkversion v = true ∧ cmp.location ≠ .absent
  removal : cmp.version = .absent → cmp.provides = .absent ∧ cmp.depends = .absent
  depends : cmp.depends = .absent ∨
    ∃ t, cmp.depends = .given t ∧ ∀ d v, t.lookup d = some v → d ≠ "" ∧ v ≠ ""
  provides : cmp.provides = .absent ∨
    ∃ t, cmp.provides = .given t ∧
      ∀ f v, t.lookup f = some v → f ≠ "" ∧ v ≠ "" ∧ checkversion v = true ∧ cmp.name ≠ .given f

structure Manifest.WellFormed (accessible : String → Bool) (directory : String)
    (m : Manifest) (cmps : List Component) : Prop where
  version : m.version = .absent ∨ ∃ v, m.version = .given v ∧ v ≠ "" ∧ checkversion v = true
  force : m.force ≠ .mistyped
  components : m.components = .given cmps
  each : ∀ cmp ∈ cmps, cmp.WellFormed accessible directory

end Mihini.Update
