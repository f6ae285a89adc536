import Mihini.Update.Cache
import Mihini.Update.Quiet

/-!
# Commands and retries

How often a component has been sent its command is what its table counts, as long as the cache
drops nothing that is unsaved.
-/

namespace Mihini.Update

open Mihini.Lib Option

/-! ## Counts -/

def World.sentTo (w : World) (table index : Nat) : Nat :=
  (w.commands.filter fun c => c.table = table ∧ c.index = index).length

def CurrentUpdate.tally (u : CurrentUpdate) (index : Nat) : Nat :=
  match u.manifest.bind fun comps => World.component comps index with
  | none => 0
  | some comp => comp.retries

structure Steady (w w' : World) : Prop where
  update : ∀ u', w'.update = some u' →
    ∃ u, w.update = some u ∧ u'.table = u.table ∧ u'.tally = u.tally
  commands : w'.commands = w.commands
  made : w.made ≤ w'.made

namespace Steady

variable {w w' w'' : World}

theorem of_eq (hupdate : w'.update = w.update) (hcommands : w'.commands = w.commands)
    (hmade : w'.made = w.made) : Steady w w' where
  update u hu := ⟨u, hupdate ▸ hu, rfl, rfl⟩
  commands := hcommands
  made := Nat.le_of_eq hmade.symm

theorem refl (w : World) : Steady w w := of_eq rfl rfl rfl

theorem after (h' : Steady w' w'') (h : Steady w w') : Steady w w'' where
  update := by
    intro u'' hu''
    obtain ⟨u', hu', htable', htally'⟩ := h'.update u'' hu''
    obtain ⟨u, hu, htable, htally⟩ := h.update u' hu'
    exact ⟨u, hu, htable'.trans htable, htally'.trans htally⟩
  commands := h'.commands.trans h.commands
  made := le_trans h.made h'.made

theorem modify (w : World) {f : CurrentUpdate → CurrentUpdate}
    (hf : ∀ u, (f u).table = u.table ∧ (f u).tally = u.tally) : Steady w (w.modify f) where
  update := by
    intro u' hu'
    obtain ⟨u, hu, rfl⟩ := map_eq_some_iff.mp hu'
    exact ⟨u, hu, hf u⟩
  commands := rfl
  made := le_refl _

theorem change (w : World) {f : CurrentUpdate → CurrentUpdate}
    (hf : ∀ u, (f u).table = u.table ∧ (f u).tally = u.tally) :
    Steady w (w.modify f).savecurrentupdate :=
  ⟨(modify w hf).update, rfl, le_refl _⟩

theorem run (w : World) (t : Task) : Steady w (w.run t) := of_eq rfl rfl rfl

theorem of_quiet (h : Quiet w w') : Steady w w' where
  update := by
    intro u' hu'
    have hupdate := h.update
    rw [hu'] at hupdate
    obtain ⟨u, hu, heq⟩ := map_eq_some_iff.mp hupdate.symm
    obtain ⟨htable, hmanifest⟩ := Prod.mk.inj heq
    refine ⟨u, hu, htable.symm, ?_⟩
    funext index
    rw [CurrentUpdate.tally, CurrentUpdate.tally, hmanifest]
  commands := h.commands
  made := h.made

theorem tally_setResult (u : CurrentUpdate) (code : Int) :
    (World.setResult u code).tally = u.tally := by
  funext i
  cases hman : u.manifest with
  | none => simp [CurrentUpdate.tally, World.setResult, hman]
  | some comps =>
    by_cases hi : i = 0
    · simp [CurrentUpdate.tally, World.setResult, World.component, hi]
    by_cases hsame : u.index - 1 = i - 1
    · cases hget : comps[i - 1]? with
      | none => simp [CurrentUpdate.tally, World.setResult, World.component, hman, hi, hsame, hget]
      | some comp => simp [CurrentUpdate.tally, World.setResult, World.component, hman, hi, hsame, hget]
    · simp [CurrentUpdate.tally, World.setResult, World.component, hman, hi, hsame]

theorem updateResult (w : World) (cmpname : String) (code : Int) :
    Steady w (w.updateResult cmpname code) := by
  rw [World.updateResult]
  split
  · have hset := change w (f := fun u => World.setResult u code) fun u =>
      ⟨rfl, tally_setResult u code⟩
    exact ⟨hset.update, rfl, le_refl _⟩
  · exact refl w

theorem applied (w : World) (uid : Nat) : Steady w (w.applied uid) := by
  rw [World.applied]
  split
  · exact refl w
  · exact of_eq rfl rfl rfl

theorem recorded (w : World) (code : Int) : Steady w (w.recorded code) := by
  have hstop : Steady w w.stophooks := of_eq rfl rfl rfl
  simp only [World.recorded]
  split
  · split
    · exact hstop
    · split
      · exact (applied _ _).after hstop
      · exact of_eq rfl rfl rfl
  · exact of_eq rfl rfl rfl

theorem cleaned (w : World) : Steady w w.cleaned := by
  rw [World.cleaned]
  split
  · exact refl w
  · exact of_eq rfl rfl rfl

theorem closed (w : World) : Steady w w.closed := by
  rw [World.closed]
  split
  · exact refl w
  · exact ⟨by rintro _ ⟨⟩, rfl, le_refl _⟩

theorem finishUpdate (w : World) : Steady w w.finishUpdate := by
  have hfin := change w (f := fun u => { u with result := some (u.result.getD 200) })
    fun _ => ⟨rfl, rfl⟩
  simp only [World.finishUpdate]
  split
  · exact hfin
  · split
    · exact (run _ _).after hfin
    · exact (of_quiet (Quiet.savestate _)).after hfin

theorem start (w : World) (step : Nat) (o : World.Outcome) : Steady w (w.start step o) := by
  match step with
  | 1 => exact of_quiet (Quiet.stepfinished w _)
  | 2 => exact of_quiet (Quiet.download_package w o)
  | 3 => exact of_quiet (Quiet.check_package w o)
  | 4 => exact of_quiet (Quiet.dispatch_update w o)
  | 0 | _ + 5 => exact finishUpdate w


theorem load (hsaved : Saved w)
    (hupdate : w'.update.map CurrentUpdate.resident = w.savedUpdate.map CurrentUpdate.resident)
    (hcommands : w'.commands = w.commands) (hmade : w'.made = w.made) : Steady w w' where
  update := by
    intro u' hu'
    have hresident : w.update.map CurrentUpdate.resident = some u'.resident := by
      rw [← hsaved, ← hupdate, hu', map_some]
    obtain ⟨u, hu, heq⟩ := map_eq_some_iff.mp hresident
    have htable : u.table = u'.table := (congrArg CurrentUpdate.table heq :)
    have htally : u.tally = u'.tally := (congrArg CurrentUpdate.tally heq :)
    exact ⟨u, hu, htable.symm, htally.symm⟩
  commands := hcommands
  made := Nat.le_of_eq hmade.symm

end Steady

/-! ## The invariant -/

structure Tallied (retries : Nat) (w : World) : Prop where
  le : ∀ table index, w.sentTo table index ≤ retries
  sent : ∀ c ∈ w.commands, c.table < w.made
  table : ∀ u, w.update = some u → u.table < w.made
  count : ∀ u, w.update = some u → ∀ index, w.sentTo u.table index = u.tally index

theorem tallied_init (retries : Nat) (swlist : SwList) : Tallied retries (init swlist) :=
  ⟨fun _ _ => Nat.zero_le _, by simp [init], by simp [init], by simp [init]⟩

theorem sentTo_of_commands {w w' : World} (h : w'.commands = w.commands) (table index : Nat) :
    w'.sentTo table index = w.sentTo table index := by
  rw [World.sentTo, World.sentTo, h]

/-- The retry is counted for the component, and for no other. -/
theorem tally_countRetry {c : Ref} {u : CurrentUpdate} {comps : List Dispatched}
    {comp : Dispatched} (htable : u.table = c.table) (hcopy : u.copy = c.copy)
    (hman : u.manifest = some comps) (hcomp : World.component comps c.index = some comp)
    (index : Nat) : (World.countRetry c u).tally index =
      if index = c.index then u.tally index + 1 else u.tally index := by
  have hc : c.index ≠ 0 := by
    intro hzero
    simp [World.component, hzero] at hcomp
  have hget : comps[c.index - 1]? = some comp := by simpa [World.component, hc] using hcomp
  by_cases hi : index = c.index
  · simp [CurrentUpdate.tally, World.countRetry, World.component, World.addRetry, htable, hcopy,
      hman, hi, hc, hget]
  by_cases hzero : index = 0
  · simp [CurrentUpdate.tally, World.countRetry, World.component, htable, hcopy, hman, hzero,
      hc.symm]
  · have hne : ¬c.index - 1 = index - 1 := by omega
    simp [CurrentUpdate.tally, World.countRetry, World.component, htable, hcopy, hman, hzero, hi,
      hne]

namespace Tallied

variable {retries : Nat} {w w' : World}

theorem steady (h : Tallied retries w) (hs : Steady w w') : Tallied retries w' where
  le := by
    intro table index
    rw [sentTo_of_commands hs.commands]
    exact h.le table index
  sent := by
    intro c hc
    rw [hs.commands] at hc
    exact lt_of_lt_of_le (h.sent c hc) hs.made
  table := by
    intro u' hu'
    obtain ⟨u, hu, htable, _⟩ := hs.update u' hu'
    rw [htable]
    exact lt_of_lt_of_le (h.table u hu) hs.made
  count := by
    intro u' hu' index
    obtain ⟨u, hu, htable, htally⟩ := hs.update u' hu'
    rw [sentTo_of_commands hs.commands, htable, htally]
    exact h.count u hu index

theorem sendmsgasset {c : Ref} (h : Tallied retries w)
    (hc : w.update.isSome → Counts retries w c) : Tallied retries (w.sendmsgasset c) := by
  match hu : w.update with
  | none =>
    have heq : w.sendmsgasset c = w.modify (World.countRetry c) := by
      simp [World.sendmsgasset, World.modify, hu]
    rw [heq]
    exact ⟨h.le, h.sent, by simp [World.modify, hu], by simp [World.modify, hu]⟩
  | some u =>
    obtain ⟨v, hv, htable, hcopy, comps, hman, comp, hcomp, hleft⟩ := hc (by simp [hu])
    have hsame : v = u := Option.some.inj (hv.symm.trans hu)
    subst hsame
    have hup : (w.sendmsgasset c).update = some (World.countRetry c v) := by
      simp [World.sendmsgasset, World.modify, hu]
    have hcommands : (w.sendmsgasset c).commands = c :: w.commands := by
      simp [World.sendmsgasset, World.modify, hu]
    have hmade : (w.sendmsgasset c).made = w.made := by
      simp [World.sendmsgasset, World.modify, hu]
    have htable' : (World.countRetry c v).table = v.table := by
      rw [World.countRetry]
      split <;> rfl
    have hcount : v.tally c.index = comp.retries := by
      rw [mem_def] at hman hcomp
      simp [CurrentUpdate.tally, hman, hcomp]
    have hsent : ∀ table index, (w.sendmsgasset c).sentTo table index =
        if c.table = table ∧ c.index = index then w.sentTo table index + 1
        else w.sentTo table index := by
      intro table index
      rw [World.sentTo, World.sentTo, hcommands, List.filter_cons]
      split <;> simp_all
    constructor
    · intro table index
      rw [hsent]
      split
      · next heq =>
        rw [← heq.1, ← heq.2, ← htable, h.count v hu, hcount]
        exact hleft
      · exact h.le table index
    · intro d hd
      rw [hcommands, List.mem_cons] at hd
      rw [hmade]
      rcases hd with rfl | hd
      · exact htable ▸ h.table v hu
      · exact h.sent d hd
    · intro u' hu'
      rw [hup] at hu'
      rw [← Option.some.inj hu', htable', hmade]
      exact h.table v hu
    · intro u' hu' index
      rw [hup] at hu'
      rw [← Option.some.inj hu', htable', hsent, tally_countRetry htable hcopy hman hcomp,
        h.count v hu]
      simp [htable, eq_comm]

theorem alertcomponent (h : Tallied retries w) : Tallied retries (w.alertcomponent retries) := by
  rw [World.alertcomponent]
  split
  · exact h
  · next u hu =>
    split
    · exact h
    · next comp hcomp =>
      split
      · exact h.steady (.of_quiet (Quiet.stepfinished w _))
      · next hleft =>
        split
        · exact h
        · exact h.steady (.of_quiet (Quiet.run w _))
        · obtain ⟨comps, hman, hget⟩ := bind_eq_some_iff.mp hcomp
          exact h.sendmsgasset fun _ =>
            ⟨u, hu, rfl, rfl, comps, hman, comp, hget, Nat.lt_of_not_le hleft⟩

theorem alert {c : Ref} (h : Tallied retries w)
    (hc : (∃ u ∈ w.update, u.request ≠ some .abort ∧ u.request ≠ some .pause) →
      Counts retries w c) : Tallied retries (w.alert c) := by
  have hprogress := h.steady (.of_quiet (Quiet.stepprogress w))
  simp only [World.alert]
  split
  · next hgoes =>
    obtain ⟨hsame, hfree⟩ := Same.stepprogress_goes hgoes
    rw [hsame]
    exact h.sendmsgasset fun _ => hc hfree
  · exact hprogress

theorem nextdispatchstep (h : Tallied retries w) :
    Tallied retries (w.nextdispatchstep retries) := by
  rw [World.nextdispatchstep]
  split
  · exact h
  split
  · exact h
  · simp only
    split
    · exact h.steady (.of_quiet (Quiet.nextindex w))
    split
    · exact h
    · split
      · exact h.alertcomponent
      · split
        · exact h.steady (.of_quiet (Quiet.nextindex w))
        · exact h.steady (.of_quiet (Quiet.stepfinished w _))

theorem indexed (h : Tallied retries w) : Tallied retries (w.indexed retries) := by
  rw [World.indexed]
  split
  · exact h
  split
  · exact h
  · split
    · exact h.alertcomponent
    · exact h.steady (.of_quiet (Quiet.stepfinished w _))

theorem assetresponsetimeout (h : Tallied retries w) :
    Tallied retries (w.assetresponsetimeout retries) := by
  have hstop : Steady w w.stophooks := Steady.of_eq rfl rfl rfl
  rw [World.assetresponsetimeout]
  split
  · exact (h.steady hstop).alertcomponent
  · exact h

theorem check (h : Tallied retries w) (hnew : ∀ u ∈ w.update, u.manifest = none)
    (o : World.Outcome) : Tallied retries (w.check o) := by
  cases o with
  | failure code => exact h.steady (.of_quiet (Quiet.stepfinished w _))
  | success cmps =>
    have hchecked : Steady w (w.modify fun u =>
        { u with manifest := some (cmps.map fun c => ⟨c, none, 0⟩) }) := by
      refine ⟨?_, rfl, le_refl _⟩
      intro u' hu'
      obtain ⟨u, hu, rfl⟩ := map_eq_some_iff.mp hu'
      refine ⟨u, hu, rfl, ?_⟩
      funext index
      have hzero : ∀ comp, World.component (cmps.map fun c => ⟨c, none, 0⟩) index = some comp →
          comp.retries = 0 := by
        intro comp hcomp
        rw [World.component] at hcomp
        split at hcomp
        · cases hcomp
        · rw [List.getElem?_map, map_eq_some_iff] at hcomp
          obtain ⟨c, _, rfl⟩ := hcomp
          rfl
      have hold : u.tally index = 0 := by simp [CurrentUpdate.tally, hnew u hu]
      rw [hold, CurrentUpdate.tally]
      split
      · rfl
      · next comp hcomp => exact hzero comp (by simpa using hcomp)
    exact h.steady ((Steady.of_quiet (Quiet.stepfinished _ _)).after hchecked)

theorem newupdate (h : Tallied retries w) (p : Package) : Tallied retries (w.newupdate p) := by
  rw [World.newupdate]
  split
  · exact h
  have hnone : ∀ index, w.sentTo w.made index = 0 := by
    intro index
    rw [World.sentTo, List.length_eq_zero_iff, List.filter_eq_nil_iff]
    intro c hc
    have hlt := h.sent c hc
    simp
    omega
  let w₀ : World := { w with
    update := some ⟨w.made, 0, p, 1, false, none, none, false, false, none, 0⟩
    made := w.made + 1
    reports := 0
    before := w.swlist }.savecurrentupdate
  have hnew : Tallied retries w₀ :=
    { le := h.le
      sent := fun c hc => Nat.lt_succ_of_lt (h.sent c hc)
      table := by
        intro u hu
        rw [← Option.some.inj hu]
        exact Nat.lt_succ_self _
      count := by
        intro u hu index
        rw [← Option.some.inj hu]
        exact hnone index }
  exact hnew.steady (.of_quiet (Quiet.stepstart w₀))

theorem runTask {t : Task} {o : World.Outcome} (h : Tallied retries w)
    (hlast : Lasting retries w (.event (.run t o))) : Tallied retries (runTask retries w t o) := by
  have hturn : Tallied retries { w with tasks := w.tasks.erase t } :=
    h.steady (Steady.of_eq rfl rfl rfl)
  cases t with
  | stepstart => exact hturn.steady (.of_quiet (Quiet.stepstart _))
  | starting => exact hturn.steady (.of_quiet (Quiet.starting _))
  | start step => exact hturn.steady (Steady.start _ step o)
  | download n => exact hturn.steady (.of_quiet (Quiet.download _ o))
  | check => exact hturn.check hlast o
  | nextdispatchstep => exact hturn.nextdispatchstep
  | alert c => exact hturn.alert hlast
  | sendmsgasset c => exact hturn.sendmsgasset hlast
  | failed code => exact hturn.steady (.of_quiet (Quiet.stepfinished _ _))
  | acknowledge =>
    cases o with
    | failure code => exact hturn
    | success cmps => exact hturn.steady (Steady.of_eq rfl rfl rfl)
  | acknowledged => exact hturn.steady (.of_quiet (Quiet.savestate _))
  | cleaned => exact hturn.steady (Steady.cleaned _)
  | resumeupdate => exact hturn.steady (.of_quiet (Quiet.resumeupdate _))

theorem goOn (h : Tallied retries w) : Tallied retries (goOn retries w) := by
  have hfree : Tallied retries { w with busy := none } := h.steady (Steady.of_eq rfl rfl rfl)
  simp only [Update.goOn]
  split
  · exact h
  · exact hfree.steady (Steady.recorded _ _)
  · exact hfree.steady (Steady.applied _ _)
  · exact hfree.indexed
  · exact hfree.steady (Steady.closed _)

theorem step {e : CacheEvent} (h : Tallied retries w) (hlast : Lasting retries w e) :
    Tallied retries (cacheStep retries w e) := by
  cases e with
  | unload name =>
    cases name with
    | swlist => exact h.steady (Steady.of_eq rfl rfl rfl)
    | currentupdate =>
      have hloaded : (w.unloadsubtable .currentupdate).update.map CurrentUpdate.resident =
          w.savedUpdate.map CurrentUpdate.resident := by
        rw [World.unloadsubtable, map_map]
        rfl
      exact h.steady (Steady.load hlast hloaded rfl rfl)
  | event e =>
    cases e with
    | run t o => exact h.runTask hlast
    | goOn => exact h.goOn
    | answer c indextmp r =>
      have haside : Steady w { w with sent := w.sent.erase (c, indextmp) } :=
        Steady.of_eq rfl rfl rfl
      exact h.steady ((Steady.of_quiet (Quiet.answered _ c indextmp r)).after haside)
    | notifier n =>
      simp only [cacheStep, Update.step]
      split
      · exact h.steady (Steady.of_eq rfl rfl rfl)
      · exact h
    | notified n =>
      have haside : Steady w { w with notifiers := w.notifiers.erase n } :=
        Steady.of_eq rfl rfl rfl
      exact h.steady ((Steady.of_quiet (Quiet.notified _ n)).after haside)
    | assetresponsetimeout => exact h.assetresponsetimeout
    | registered => exact h.steady (.of_quiet (Quiet.registered w))
    | result cmpname code => exact h.steady (Steady.updateResult w cmpname code)
    | request r => exact h.steady (.of_quiet (Quiet.request w r))
    | drop id => exact h.steady (Steady.of_eq rfl rfl rfl)
    | localupdate =>
      simp only [cacheStep, Update.step, World.localupdate]
      split
      · exact h
      · exact h.newupdate _
    | newupdate p => exact h.newupdate p
    | restart => exact h.steady (Steady.load hlast rfl rfl rfl)

end Tallied

/-! ## Transparency -/

/-- What a run with unloads has in common with the run of the same events without them. -/
structure Transparent (retries : Nat) (l : SwList) (es : List CacheEvent) (w : World) :
    Prop where
  enabled : Along (step retries) Enabled (init l) (es.filterMap CacheEvent.resident)
  update : w.update.map CurrentUpdate.resident =
    ((es.filterMap CacheEvent.resident).foldl (step retries) (init l)).update
  swlist : w.swlist =
    ((es.filterMap CacheEvent.resident).foldl (step retries) (init l)).swlist
  commands : w.commands.map Ref.resident =
    ((es.filterMap CacheEvent.resident).foldl (step retries) (init l)).commands
  retries : ∀ table index, w.sentTo table index ≤ retries

theorem same_init (swlist : SwList) : Same (init swlist) (init swlist) :=
  ⟨rfl, rfl, .nil, .nil, rfl, rfl, rfl, rfl⟩

/-- The two runs stay together. -/
theorem Same.runs {retries : Nat} {es : List CacheEvent} {w w' : World} (h : Same w w')
    (halong : Along (cacheStep retries) (fun w e => CacheEnabled w e ∧ Lasting retries w e) w es) :
    Along (Update.step retries) Enabled w' (es.filterMap CacheEvent.resident) ∧
      Same (es.foldl (cacheStep retries) w)
        ((es.filterMap CacheEvent.resident).foldl (Update.step retries) w') := by
  induction es generalizing w w' with
  | nil => exact ⟨trivial, h⟩
  | cons e es ih =>
    obtain ⟨⟨he, hlast⟩, hrest⟩ := halong
    cases e with
    | event e =>
      obtain ⟨hes, hsame⟩ := ih (h.step he hlast) hrest
      exact ⟨⟨h.enabled he, hes⟩, hsame⟩
    | unload name =>
      apply ih (h.unloadsubtable ?_) hrest
      intro hname
      subst hname
      exact hlast

theorem cache_transparent (retries : Nat) (swlist : SwList) (es : List CacheEvent)
    (h : Along (cacheStep retries) (fun w e => CacheEnabled w e ∧ Lasting retries w e)
      (init swlist) es) :
    Transparent retries swlist es (es.foldl (cacheStep retries) (init swlist)) := by
  have hstep : ∀ w e, CacheEnabled w e ∧ Lasting retries w e → Tallied retries w →
      Tallied retries (cacheStep retries w e) :=
    fun _ _ he htallied => htallied.step he.2
  obtain ⟨henabled, hsame⟩ := (same_init swlist).runs h
  exact
    { enabled := henabled
      update := hsame.update.symm
      swlist := hsame.swlist.symm
      commands := hsame.commands.symm
      retries := (h.runs.invariant hstep (tallied_init retries swlist)).le }

def unloaded : List CacheEvent :=
  (arrival false).map .event ++
    [.event (.answer ⟨0, 0, 1⟩ 1 .ok), .unload .currentupdate, .event .assetresponsetimeout,
      .event (.run (.alert ⟨0, 1, 1⟩) (.success []))]

theorem cache_transparent_unloaded :
    Transparent 2 emptyList unloaded (unloaded.foldl (cacheStep 2) (init emptyList)) :=
  cache_transparent 2 emptyList unloaded (by decide +kernel)

def lostRetries : List CacheEvent :=
  (arrival false).map .event ++
    [.unload .currentupdate, .event .assetresponsetimeout,
      .event (.run (.alert ⟨0, 1, 1⟩) (.success [])), .unload .currentupdate,
      .event .assetresponsetimeout, .event (.run (.alert ⟨0, 2, 1⟩) (.success []))]

theorem unload_loses_retries : ¬∀ (swlist : SwList) (es : List CacheEvent),
    Along (cacheStep 2) CacheEnabled (init swlist) es →
      Transparent 2 swlist es (es.foldl (cacheStep 2) (init swlist)) := by
  intro h
  have halong : Along (cacheStep 2) CacheEnabled (init emptyList) lostRetries := by
    decide +kernel
  have hle := (h emptyList lostRetries halong).retries 0 1
  have hthree : (lostRetries.foldl (cacheStep 2) (init emptyList)).sentTo 0 1 = 3 := by
    decide +kernel
  rw [hthree] at hle
  exact absurd hle (by decide)

end Mihini.Update
