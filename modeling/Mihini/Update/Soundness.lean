import Mihini.Update.Invariant

/-!
# Runs of the update machine

What the machine promises of every run in which nothing moves the update while a task already
does.
-/

namespace Mihini.Update

open Mihini.Lib Option

/-! ## The condition -/

def World.current (w : World) : Option Dispatched :=
  w.update.bind fun u => u.manifest.bind fun comps => World.component comps u.index

theorem alertcomponent_of_current {w : World} (h : w.current = none) (retries : Nat) :
    w.alertcomponent retries = w := by
  match hu : w.update with
  | none => simp [World.alertcomponent, hu]
  | some u =>
    have hnone : (u.manifest.bind fun comps => World.component comps u.index) = none := by
      simpa [World.current, hu] using h
    simp [World.alertcomponent, hu, hnone]

def Dispatching (w : World) : Prop := w.tasks = [] ∧ ∃ u ∈ w.update, u.step = 4

def Refused (w : World) (indextmp : Nat) (r : World.Response) : Prop :=
  r ≠ .ok ∧ (r = .unknownAsset → w.assetcxhook ≠ none) ∧
    ∃ u ∈ w.update, ∃ comps ∈ u.manifest, ∃ comp ∈ World.component comps indextmp,
      comp.result = none

theorem refused_of_answered {w : World} {u : CurrentUpdate} {comp : Dispatched} {indextmp : Nat}
    {r : World.Response} (hu : w.update = some u)
    (hcomp : (u.manifest.bind fun comps => World.component comps indextmp) = some comp)
    (hres : ¬comp.result.isSome = true) (hhook : ¬(r = .unknownAsset ∧ w.assetcxhook = none))
    (hok : r ≠ .ok) : Refused w indextmp r := by
  obtain ⟨comps, hman, hget⟩ := bind_eq_some_iff.mp hcomp
  exact ⟨hok, fun hr hnone => hhook ⟨hr, hnone⟩, u, hu, comps, hman, comp, hget, by simpa using hres⟩

/-- A package that is in the drop folder is aborted once its file is recorded only. -/
def Recorded (w : World) : Prop := ∀ u ∈ w.update, u.infos.dropped → u.updatefile

/-- An event that moves the update finds no task that does, and the update at the step the event
belongs to. -/
def Alone (w : World) : Event → Prop
  | .answer _ indextmp r => Refused w indextmp r → Dispatching w
  | .notified n =>
    (∃ u ∈ w.update, u.request = some .abort ∨ u.request = some .pause) → .download n ∈ w.tasks
  | .assetresponsetimeout => w.timercell → w.current.isSome → Dispatching w
  | .registered => w.assetcxhook.isSome → Dispatching w
  | .result cmpname _ => w.accepts cmpname → Dispatching w
  | .request r => (∃ u ∈ w.update, u.paused) → r ≠ .pause → w.tasks = []
  | _ => True

/-- An abort finds the file of the package recorded; the agent does not stop between the
acknowledgement and the end of the update. -/
def Settled (w : World) : Event → Prop
  | .run .starting _ => (∃ u ∈ w.update, u.request = some .abort) → Recorded w
  | .request .abort => (∃ u ∈ w.update, u.paused) → Recorded w
  | .restart => ∀ u ∈ w.update, ¬Acknowledged w u
  | _ => True

def Safe (w : World) (e : Event) : Prop := Alone w e ∧ Settled w e

instance (w : World) : Decidable (Dispatching w) := inferInstanceAs (Decidable (_ ∧ _))

instance (w : World) (indextmp : Nat) (r : World.Response) : Decidable (Refused w indextmp r) :=
  inferInstanceAs (Decidable (_ ∧ _ ∧ _))

instance (w : World) : Decidable (Recorded w) := inferInstanceAs (Decidable (∀ u ∈ _, _))

instance (w : World) (u : CurrentUpdate) : Decidable (Acknowledged w u) :=
  inferInstanceAs (Decidable (_ ∧ _))

instance (w : World) : (e : Event) → Decidable (Alone w e)
  | .answer _ _ _ | .notified _ | .assetresponsetimeout | .registered | .result _ _
  | .request _ => inferInstanceAs (Decidable (_ → _))
  | .run _ _ | .goOn | .notifier _ | .drop _ | .localupdate | .newupdate _ | .restart =>
    isTrue trivial

instance (w : World) : (e : Event) → Decidable (Settled w e)
  | .run .starting _ | .request .abort => inferInstanceAs (Decidable (_ → _))
  | .restart => inferInstanceAs (Decidable (∀ u ∈ _, _))
  | .run .stepstart _ | .run (.start _) _ | .run (.download _) _ | .run .check _
  | .run .nextdispatchstep _
  | .run (.alert _) _ | .run (.sendmsgasset _) _ | .run (.failed _) _ | .run .acknowledge _
  | .run .acknowledged _ | .run .cleaned _ | .run .resumeupdate _ | .goOn | .answer _ _ _ | .notifier _
  | .notified _ | .assetresponsetimeout | .registered | .result _ _ | .request .pause
  | .request .resume | .drop _ | .localupdate | .newupdate _ => isTrue trivial

instance (w : World) (e : Event) : Decidable (Safe w e) := inferInstanceAs (Decidable (_ ∧ _))

variable {full : Prop}

/-! ## Events -/

namespace Inv

variable {w : World} {u : CurrentUpdate}

theorem aside (h : Inv full w) (sent : List (Ref × Nat)) (notifiers : List Nat) (timercell : Bool)
    (assetcxhook : Option Ref) :
    Inv full { w with
      sent := sent, notifiers := notifiers, timercell := timercell, assetcxhook := assetcxhook } :=
  ⟨h.good, h.stored, h.single, h.fits, h.follows, h.absent, h.reported, h.unreported, h.drop, h.own,
    h.gone⟩

theorem run {t : Task} {o : World.Outcome} (h : Inv full w) (he : Enabled w (.run t o))
    (hsettled : full → Settled w (.run t o)) (hu : w.update = some u) (retries : Nat) :
    After full u.step (runTask retries w t o) := by
  obtain ⟨hbusy, ht, ho⟩ := he
  have hfits := h.fits u hu t ht
  have hown : full → w.drop = some u.infos.id → u.infos.dropped := fun hfull => h.own hfull u hu
  by_cases hends : t.ends = true
  · have hrep : full → w.reports = if u.infos.ticketid then 1 else 0 := by
      intro hfull
      by_cases hticket : u.infos.ticketid
      · simpa [hticket] using h.reported hfull u hu ⟨hticket, .inl ⟨t, ht, hends⟩⟩
      · have hunack : ¬Acknowledged w u := fun hack => hticket hack.1
        simpa [hticket] using h.unreported hfull u hu hunack
    cases t with
    | acknowledged =>
      exact savestate_after hu (h.good u hu) hfits.1 hfits.2.1 h.stored (h.erase ht).2 hbusy hrep
        h.drop hown
    | cleaned =>
      exact cleaned_after hu (h.good u hu) hfits h.stored (h.erase ht).2 hrep h.drop hown
        fun hfull => h.gone hfull u hu ht
    | _ => cases hends
  · have hidle := h.take hu hbusy ht (by simpa using hends)
    cases t with
    | stepstart => exact hidle.stepstart h.stored
    | starting =>
      apply hidle.starting h.stored
      intro hfull hreq
      exact hsettled hfull ⟨u, hu, hreq⟩ u hu
    | start step =>
      have hstep : u.step = step := hfits
      subst hstep
      exact hidle.start h.stored ho
    | download n => exact hidle.download hfits ho
    | check => exact hidle.check hfits ho
    | nextdispatchstep => exact hidle.nextdispatchstep h.stored hfits retries
    | alert c => exact hidle.alert h.stored hfits c
    | sendmsgasset c => exact hidle.sendmsgasset h.stored c
    | failed code =>
      obtain ⟨hstep, hcode⟩ := hfits
      exact hidle.fail hcode fun hfull hdropped =>
        (h.good u hu).updatefile hfull hdropped (by omega)
    | acknowledge =>
      cases o with
      | failure code => exact hidle.rest h.stored
      | success cmps => exact hidle.acknowledged h.stored hfits
    | acknowledged => exact absurd rfl hends
    | cleaned => exact absurd rfl hends
    | resumeupdate => exact hidle.resumeupdate h.stored

/-- What follows a write, unless it closes the update. -/
theorem goOn (h : Inv full w) (he : Enabled w .goOn) (hclosing : w.busy ≠ some .closing)
    (hu : w.update = some u) (retries : Nat) : After full u.step (goOn retries w) := by
  match hbusy : w.busy with
  | none => exact absurd hbusy he
  | some b =>
    obtain ⟨htasks, hfollows⟩ := h.follows u hu b hbusy
    have hunack : ¬Acknowledged w u := by
      simpa [Acknowledged, htasks] using fun _ => hclosing
    have hidle : Idle full { w with busy := none } u :=
      ⟨hu, h.good u hu, htasks, rfl, fun hfull => h.unreported hfull u hu hunack, h.drop,
        fun hfull => h.own hfull u hu⟩
    cases b with
    | recorded code =>
      have heq : Update.goOn retries w = { w with busy := none }.recorded code := by
        simp [Update.goOn, hbusy]
      rw [heq]
      exact hidle.recorded h.stored hfollows code
    | identified uid =>
      have heq : Update.goOn retries w = { w with busy := none }.applied uid := by
        simp [Update.goOn, hbusy]
      rw [heq]
      exact hidle.applied h.stored hfollows uid
    | indexed =>
      have heq : Update.goOn retries w = { w with busy := none }.indexed retries := by
        simp [Update.goOn, hbusy]
      rw [heq]
      exact hidle.indexed h.stored hfollows.1 hfollows.2 retries
    | closing => exact absurd hbusy hclosing

theorem closed (h : Inv full w) (hbusy : w.busy = some .closing) (hu : w.update = some u)
    (retries : Nat) : Inv full (Update.goOn retries w) := by
  have heq : Update.goOn retries w =
      { w with
        busy := none
        update := none
        savedUpdate := none
        reports := if u.infos.ticketid then w.reports else w.reports + 1
        finished := u.infos.id :: w.finished } := by
    simp [Update.goOn, hbusy, World.closed, hu]
  obtain ⟨htasks, _, _, _, hgone⟩ := h.follows u hu .closing hbusy
  rw [heq]
  exact
    { good := by simp
      stored := rfl
      single := h.single
      fits := by simp
      follows := by simp
      absent := fun _ => ⟨htasks, rfl⟩
      reported := by simp
      unreported := by simp
      drop := by
        intro hfull id hid hmem
        rcases List.mem_cons.mp hmem with rfl | hmem
        · exact hgone hfull hid
        · exact h.drop hfull id hid hmem
      own := by simp
      gone := by simp }

theorem dispatching (h : Inv full w) (hbusy : w.busy = none) (hu : w.update = some u)
    (hd : Dispatching w) : Idle full w u ∧ u.step = 4 := by
  obtain ⟨htasks, u', hu', hstep⟩ := hd
  rw [mem_def, hu] at hu'
  cases hu'
  exact ⟨h.idle hu hbusy htasks, hstep⟩

theorem unchanged (h : Inv full w) (hu : w.update = some u) : After full u.step w :=
  ⟨h, u, hu, le_refl _⟩

theorem save (h : Inv full w) : Inv full w.savecurrentupdate :=
  { h with stored := rfl }

theorem answered (h : Inv full w) (hbusy : w.busy = none) {indextmp : Nat} {r : World.Response}
    (hsafe : Refused w indextmp r → Dispatching w) (hu : w.update = some u) (c : Ref) :
    After full u.step (w.answered c indextmp r) := by
  match hcomp : u.manifest.bind fun comps => World.component comps indextmp with
  | none =>
    have heq : w.answered c indextmp r = w := by simp [World.answered, hu, hcomp]
    rw [heq]
    exact h.unchanged hu
  | some comp =>
    by_cases hres : comp.result.isSome
    · have heq : w.answered c indextmp r = w := by simp [World.answered, hu, hcomp, hres]
      rw [heq]
      exact h.unchanged hu
    by_cases hhook : r = .unknownAsset ∧ w.assetcxhook = none
    · have heq : w.answered c indextmp r =
          { w with assetcxhook := some c }.savecurrentupdate := by
        simp [World.answered, hu, hcomp, hres, hhook]
      rw [heq]
      exact (h.aside w.sent w.notifiers w.timercell (some c)).save.unchanged hu
    by_cases hok : r = .ok
    · have heq : w.answered c indextmp r = w.savecurrentupdate := by
        simp [World.answered, hu, hcomp, hres, hok]
      rw [heq]
      exact h.save.unchanged hu
    · have heq : w.answered c indextmp r = w.stophooks.stepfinished (some 462) := by
        simp [World.answered, hu, hcomp, hres, hhook, hok]
      have hrefused := refused_of_answered hu hcomp hres hhook hok
      obtain ⟨hidle, hstep⟩ := h.dispatching hbusy hu (hsafe hrefused)
      rw [heq]
      exact hidle.stophooks.fail (by decide) fun hfull hdropped =>
        (h.good u hu).updatefile hfull hdropped (by omega)

theorem notified_of_request (hu : w.update = some u)
    (hreq : ¬(u.request = some .abort ∨ u.request = some .pause)) (n : Nat) : w.notified n = w := by
  match hr : u.request with
  | none => simp [World.notified, World.stepprogress, hu, hr]
  | some .resume => simp [World.notified, World.stepprogress, hu, hr]
  | some .abort => exact absurd (.inl hr) hreq
  | some .pause => exact absurd (.inr hr) hreq

theorem notified (h : Inv full w) (hbusy : w.busy = none) {n : Nat} (hsafe : Alone w (.notified n))
    (hu : w.update = some u) : After full u.step (w.notified n) := by
  by_cases hreq : u.request = some .abort ∨ u.request = some .pause
  · have hmem := hsafe ⟨u, hu, hreq⟩
    obtain ⟨htasks, herase⟩ := h.erase hmem
    have hidle := h.take hu hbusy hmem rfl
    rw [herase] at hidle
    have hfile : full → u.infos.dropped → u.updatefile := by
      have hdropped := (h.fits u hu _ hmem).2
      simp [hdropped]
    rcases hreq with hreq | hreq
    · have heq : w.notified n =
          (({ w with tasks := [] }.modify abortupdate).savecurrentupdate).run .stepstart := by
        simp [World.notified, World.stepprogress, World.run, World.modify, World.savecurrentupdate,
          hu, hreq, htasks]
      rw [heq]
      have habort := (hidle.abortupdate hfile).run (stored_savecurrentupdate _)
        (show Fits _ .stepstart from trivial) rfl
      exact habort.mono (h.good u hu).le
    · have heq : w.notified n =
          ({ w with tasks := [] }.modify pauseupdate).savecurrentupdate := by
        simp [World.notified, World.stepprogress, World.modify, World.savecurrentupdate,
          hu, hreq, htasks]
      rw [heq]
      exact hidle.pauseupdate.rest (stored_savecurrentupdate _)
  · rw [notified_of_request hu hreq]
    exact h.unchanged hu

theorem assetresponsetimeout (h : Inv full w) (hbusy : w.busy = none)
    (hsafe : Alone w .assetresponsetimeout) (hu : w.update = some u) (retries : Nat) :
    After full u.step (w.assetresponsetimeout retries) := by
  by_cases htimer : w.timercell
  · have heq : w.assetresponsetimeout retries = w.stophooks.alertcomponent retries := by
      simp [World.assetresponsetimeout, htimer, hu]
    rw [heq]
    by_cases hcur : w.current.isSome
    · obtain ⟨hidle, hstep⟩ := h.dispatching hbusy hu (hsafe htimer hcur)
      exact hidle.stophooks.alertcomponent h.stored hstep retries
    · have hnone : w.stophooks.current = none := not_isSome_iff_eq_none.mp hcur
      rw [alertcomponent_of_current hnone]
      exact (h.aside w.sent w.notifiers false none).unchanged hu
  · have heq : w.assetresponsetimeout retries = w := by
      simp [World.assetresponsetimeout, htimer]
    rw [heq]
    exact h.unchanged hu

theorem registered (h : Inv full w) (hbusy : w.busy = none) (hsafe : Alone w .registered)
    (hu : w.update = some u) : After full u.step w.registered := by
  match hhook : w.assetcxhook with
  | none =>
    have heq : w.registered = w := by simp [World.registered, hhook]
    rw [heq]
    exact h.unchanged hu
  | some c =>
    have heq : w.registered = w.stophooks.run (.sendmsgasset c) := by
      simp [World.registered, hhook]
    obtain ⟨hidle, hstep⟩ := h.dispatching hbusy hu (hsafe (by simp [hhook]))
    rw [heq]
    exact hidle.stophooks.run h.stored hstep rfl

theorem updateResult (h : Inv full w) (hbusy : w.busy = none) {cmpname : String} {code : Int}
    (hsafe : Alone w (.result cmpname code)) (hu : w.update = some u) :
    After full u.step (w.updateResult cmpname code) := by
  by_cases hacc : w.accepts cmpname
  · obtain ⟨hidle, hstep⟩ := h.dispatching hbusy hu (hsafe hacc)
    exact hidle.updateResult hstep hacc code
  · have heq : w.updateResult cmpname code = w := by simp [World.updateResult, hacc]
    rw [heq]
    exact h.unchanged hu

/-- A request is stored for the next step. -/
theorem requested (h : Inv full w) (hu : w.update = some u) (r : Request) :
    After full u.step (w.modify fun u => { u with request := some r }).savecurrentupdate where
  update := ⟨{ u with request := some r }, by simp [World.modify, World.savecurrentupdate, hu],
    le_refl _⟩
  inv :=
    { good := by
        simpa [World.modify, World.savecurrentupdate, hu] using
          (h.good u hu).requested (some r) u.paused
      stored := rfl
      single := h.single
      fits := by
        simp only [World.modify, World.savecurrentupdate, hu, map_some, Option.some.injEq,
          forall_eq']
        intro t ht
        have hfits := h.fits u hu t ht
        cases t <;> exact hfits
      follows := by
        simp only [World.modify, World.savecurrentupdate, hu, map_some, Option.some.injEq,
          forall_eq']
        intro b hb
        obtain ⟨htasks, hfollows⟩ := h.follows u hu b hb
        refine ⟨htasks, ?_⟩
        cases b <;> exact hfollows
      absent := by simp [World.modify, World.savecurrentupdate, hu]
      reported := by
        simp only [World.modify, World.savecurrentupdate, hu, map_some, Option.some.injEq,
          forall_eq']
        exact fun hfull => h.reported hfull u hu
      unreported := by
        simp only [World.modify, World.savecurrentupdate, hu, map_some, Option.some.injEq,
          forall_eq']
        exact fun hfull => h.unreported hfull u hu
      drop := h.drop
      own := by
        simp only [World.modify, World.savecurrentupdate, hu, map_some, Option.some.injEq,
          forall_eq']
        exact fun hfull => h.own hfull u hu
      gone := by
        simp only [World.modify, World.savecurrentupdate, hu, map_some, Option.some.injEq,
          forall_eq']
        exact fun hfull => h.gone hfull u hu }

theorem request (h : Inv full w) (hbusy : w.busy = none) {r : Request}
    (hsafe : Alone w (.request r)) (hsettled : full → Settled w (.request r))
    (hu : w.update = some u) : After full u.step (w.request r) := by
  by_cases hpaused : u.paused
  · have hfree := hsafe ⟨u, hu, hpaused⟩
    match r with
    | .pause =>
      have heq : w.request .pause = w := by simp [World.request, hu, hpaused]
      rw [heq]
      exact h.unchanged hu
    | .resume =>
      have heq : w.request .resume =
          ((w.modify fun u => { u with paused := false }).savecurrentupdate).run
            .resumeupdate := by
        simp [World.request, hu, hpaused]
      have hidle := (h.idle hu hbusy (hfree nofun)).modify (fun u => { u with paused := false })
        ((h.good u hu).requested u.request false) rfl
      rw [heq]
      exact hidle.savecurrentupdate.run (t := .resumeupdate) (stored_savecurrentupdate _) trivial
        rfl
    | .abort =>
      have heq : w.request .abort = ((w.modify abortupdate).savecurrentupdate).run .stepstart := by
        simp [World.request, hu, hpaused]
      have hidle := (h.idle hu hbusy (hfree nofun)).abortupdate fun hfull =>
        hsettled hfull ⟨u, hu, hpaused⟩ u hu
      rw [heq]
      have habort := hidle.run (t := .stepstart) (stored_savecurrentupdate _) trivial rfl
      exact habort.mono (h.good u hu).le
  · have heq : w.request r = (w.modify fun u => { u with request := some r }).savecurrentupdate := by
      simp [World.request, hu, hpaused]
    rw [heq]
    exact h.requested hu r

theorem restart (h : Inv full w) (hsettled : full → Settled w .restart) (hu : w.update = some u) :
    After full u.step w.restart := by
  have hstored : w.savedUpdate.map CurrentUpdate.forget = some u.forget := by
    simpa [Stored, hu] using h.stored
  obtain ⟨us, hus, hforget⟩ := map_eq_some_iff.mp hstored
  have hstep : us.step = u.step := (congrArg CurrentUpdate.step hforget :)
  have hinfos : us.infos = u.infos := (congrArg CurrentUpdate.infos hforget :)
  have hup : w.restart.update = some us := hus
  have hget : ∀ u', w.restart.update = some u' → u' = us := by
    intro u' hu'
    rw [hup] at hu'
    exact (Option.some.inj hu').symm
  have htasks : w.restart.tasks = [.resumeupdate] := by
    simp only [World.restart, hus, isSome_some, if_true]
  have hunack : ¬Acknowledged w.restart us := by
    rw [Acknowledged, htasks, show w.restart.busy = none from rfl]
    simp [Task.ends]
  exact
    { update := ⟨us, hup, Nat.le_of_eq hstep.symm⟩
      inv :=
        { good := fun u' hu' => hget u' hu' ▸ (h.good u hu).congr hforget
          stored := rfl
          single := by rw [htasks]; exact le_refl _
          fits := by
            intro u' _ t ht
            rw [htasks, List.mem_singleton] at ht
            rw [ht]
            exact trivial
          follows := by
            intro _ _ b hb
            rw [show w.restart.busy = none from rfl] at hb
            cases hb
          absent := fun hnone => by rw [hup] at hnone; cases hnone
          reported := fun _ u' hu' hack => absurd (hget u' hu' ▸ hack) hunack
          unreported := fun hfull _ _ _ => h.unreported hfull u hu (hsettled hfull u hu)
          drop := h.drop
          own := by
            intro hfull u' hu' hid
            rw [hget u' hu', hinfos] at hid ⊢
            exact h.own hfull u hu hid
          gone := by simp [htasks] } }

theorem newfile (h : Inv full w) {id : Nat} (hfresh : w.fresh id) : Inv full { w with drop := some id } :=
  { h with
    follows := by
      intro u hu b hb
      obtain ⟨htasks, hfollows⟩ := h.follows u hu b hb
      refine ⟨htasks, ?_⟩
      cases b with
      | closing =>
        obtain ⟨hstep, hres, hlast, _⟩ := hfollows
        exact ⟨hstep, hres, hlast, fun _ heq => hfresh.2.2 u hu (by simpa using heq.symm)⟩
      | _ => exact hfollows
    drop := by
      intro _ id' hid
      cases hid
      exact hfresh.1
    own := fun _ u hu hid => absurd (by simpa using hid.symm) (hfresh.2.2 u hu)
    gone := fun _ u hu _ hid => absurd (by simpa using hid.symm) (hfresh.2.2 u hu) }

/-- What an event does to the update, unless it closes it. -/
theorem step (h : Inv full w) {e : Event} (he : Enabled w e) (hsafe : Alone w e)
    (hsettled : full → Settled w e) (hclosing : e = .goOn → w.busy ≠ some .closing)
    (hu : w.update = some u) (retries : Nat) : After full u.step (step retries w e) := by
  cases e with
  | run t o => exact h.run he hsettled hu retries
  | goOn => exact h.goOn he (hclosing rfl) hu retries
  | answer c indextmp r =>
    have haside := h.aside (w.sent.erase (c, indextmp)) w.notifiers w.timercell w.assetcxhook
    exact haside.answered he.1 hsafe hu c
  | notifier n =>
    have haside := h.aside w.sent (n :: w.notifiers) w.timercell w.assetcxhook
    match hev : w.update.bind fun u => progressEvent u.step with
    | some true =>
      have heq : Update.step retries w (.notifier n) =
          { w with notifiers := n :: w.notifiers } := by simp [Update.step, hev]
      rw [heq]
      exact haside.unchanged hu
    | some false =>
      have heq : Update.step retries w (.notifier n) = w := by simp [Update.step, hev]
      rw [heq]
      exact h.unchanged hu
    | none =>
      have heq : Update.step retries w (.notifier n) = w := by simp [Update.step, hev]
      rw [heq]
      exact h.unchanged hu
  | notified n =>
    have haside := h.aside w.sent (w.notifiers.erase n) w.timercell w.assetcxhook
    exact haside.notified he.1 hsafe hu
  | assetresponsetimeout => exact h.assetresponsetimeout he hsafe hu retries
  | registered => exact h.registered he hsafe hu
  | result cmpname code => exact h.updateResult he hsafe hu
  | request r => exact h.request he hsafe hsettled hu
  | drop id => exact (h.newfile he).unchanged hu
  | localupdate =>
    have heq : Update.step retries w .localupdate = w := by
      cases hdrop : w.drop with
      | none => simp [Update.step, World.localupdate, hdrop]
      | some id => simp [Update.step, World.localupdate, World.newupdate, hdrop, hu]
    rw [heq]
    exact h.unchanged hu
  | newupdate p =>
    have heq : Update.step retries w (.newupdate p) = w := by
      simp [Update.step, World.newupdate, hu]
    rw [heq]
    exact h.unchanged hu
  | restart => exact h.restart hsettled hu

/-! ### Without an update -/

/-- A package that has never been updated is started. -/
theorem newupdate (h : Inv full w) (hu : w.update = none) {p : Package}
    (hown : w.drop = some p.id → p.dropped) :
    Inv full (w.newupdate p) ∧ ∃ u, (w.newupdate p).update = some u ∧ u.infos = p := by
  obtain ⟨htasks, hbusy⟩ := h.absent hu
  let u : CurrentUpdate := ⟨w.made, 0, p, 1, false, none, none, false, false, none, 0⟩
  let w₀ : World := { w with
    update := some u
    savedUpdate := some u
    made := w.made + 1
    reports := 0
    before := w.swlist }
  have heq : w.newupdate p = w₀.run .starting := by
    simp [World.newupdate, hu, World.savecurrentupdate, World.stepstart, startEvent, lastStep, w₀,
      u]
  have hgood : Good full u :=
    { pos := le_refl _
      le := show 1 ≤ lastStep from by decide
      early := fun _ => rfl
      index := fun _ => rfl
      done := by rintro _ ⟨⟩
      rest := by rintro _ ⟨⟩
      complete := by rintro ⟨⟩
      updatefile := fun _ _ hstep => absurd hstep (show ¬3 ≤ 1 from by decide) }
  have hidle : Idle full w₀ u :=
    ⟨rfl, hgood, htasks, hbusy, fun _ => rfl, h.drop, fun _ => hown⟩
  rw [heq]
  have hstarting : Fits u .starting := show 1 < lastStep from by decide
  exact ⟨(hidle.run rfl hstarting rfl).inv, u, rfl, rfl⟩

theorem localupdate (h : Inv full w) (hu : w.update = none) : Inv full w.localupdate ∧
    (full → ∀ u, w.localupdate.update = some u → u.infos.id ∉ w.finished) := by
  match hdrop : w.drop with
  | none =>
    have heq : w.localupdate = w := by simp [World.localupdate, hdrop]
    rw [heq]
    exact ⟨h, by simp [hu]⟩
  | some id =>
    have heq : w.localupdate = w.newupdate ⟨id, .localupdate true⟩ := by
      simp [World.localupdate, hdrop]
    obtain ⟨hinv, u, hup, hinfos⟩ := h.newupdate (p := ⟨id, .localupdate true⟩) hu fun _ => rfl
    rw [heq]
    refine ⟨hinv, ?_⟩
    intro hfull u' hu'
    rw [hup] at hu'
    cases hu'
    rw [hinfos]
    exact h.drop hfull id hdrop

theorem absent_step (h : Inv full w) {e : Event} (he : Enabled w e) (hsafe : Alone w e)
    (hu : w.update = none) (retries : Nat) : Inv full (Update.step retries w e) := by
  obtain ⟨htasks, hbusy⟩ := h.absent hu
  cases e with
  | run t o => simp [Enabled, htasks] at he
  | goOn => exact absurd hbusy he
  | answer c indextmp r =>
    have heq : Update.step retries w (.answer c indextmp r) =
        { w with sent := w.sent.erase (c, indextmp) } := by
      simp [Update.step, World.answered, hu]
    rw [heq]
    exact h.aside _ w.notifiers w.timercell w.assetcxhook
  | notifier n =>
    have heq : Update.step retries w (.notifier n) = w := by simp [Update.step, hu]
    rw [heq]
    exact h
  | notified n =>
    have heq : Update.step retries w (.notified n) =
        { w with notifiers := w.notifiers.erase n } := by
      simp [Update.step, World.notified, World.stepprogress, hu, htasks]
    rw [heq]
    exact h.aside w.sent _ w.timercell w.assetcxhook
  | assetresponsetimeout =>
    have heq : Update.step retries w .assetresponsetimeout = w := by
      simp [Update.step, World.assetresponsetimeout, hu]
    rw [heq]
    exact h
  | registered =>
    have hnohook : w.assetcxhook = none := by
      by_contra hhook
      obtain ⟨_, u, hu', _⟩ := hsafe (isSome_iff_ne_none.mpr hhook)
      rw [hu] at hu'
      cases hu'
    have heq : Update.step retries w .registered = w := by
      simp [Update.step, World.registered, hnohook]
    rw [heq]
    exact h
  | result cmpname code =>
    have heq : Update.step retries w (.result cmpname code) = w := by
      simp [Update.step, World.updateResult, World.accepts, hu]
    rw [heq]
    exact h
  | request r =>
    have heq : Update.step retries w (.request r) = w := by simp [Update.step, World.request, hu]
    rw [heq]
    exact h
  | drop id => exact h.newfile he
  | localupdate => exact (h.localupdate hu).1
  | newupdate p => exact (h.newupdate hu fun hdrop => absurd hdrop he.2.1.2.1).1
  | restart =>
    have hsaved : w.savedUpdate = none := by
      have hstored := h.stored
      simpa [Stored, hu] using hstored
    have heq : Update.step retries w .restart =
        { w with
          swlist := w.savedSwlist, sent := [], notifiers := [], timercell := false,
          assetcxhook := none } := by
      simp [Update.step, World.restart, hsaved, hu, htasks, hbusy]
    rw [heq]
    exact ⟨by simp [hu], h.stored, h.single, by simp [hu], by simp [hu], h.absent, by simp [hu],
      by simp [hu], h.drop, by simp [hu], by simp [hu]⟩

theorem keep (h : Inv full w) {e : Event} (he : Enabled w e) (hsafe : Alone w e)
    (hsettled : full → Settled w e) (retries : Nat) : Inv full (Update.step retries w e) := by
  match hu : w.update with
  | none => exact h.absent_step he hsafe hu retries
  | some u =>
    by_cases hclosing : e = .goOn ∧ w.busy = some .closing
    · obtain ⟨rfl, hbusy⟩ := hclosing
      exact h.closed hbusy hu retries
    · exact (h.step he hsafe hsettled (fun hgo hbusy => hclosing ⟨hgo, hbusy⟩) hu retries).inv

theorem bounds (h : Inv full w) (hu : w.update = some u) : 1 ≤ u.step ∧ u.step ≤ lastStep :=
  ⟨(h.good u hu).pos, (h.good u hu).le⟩

theorem complete (h : Inv full w) (hu : w.update = some u) (hres : u.result = some 200) :
    u.Complete := by
  have hgood := h.good u hu
  have hstep : u.step = lastStep := by
    by_contra hne
    have hlt : u.step < lastStep := Nat.lt_of_le_of_ne hgood.le hne
    rw [hgood.early hlt] at hres
    cases hres
  exact hgood.complete hstep (.inr hres)

theorem reports_le (h : Inv True w) (hu : w.update = some u) : w.reports ≤ 1 := by
  by_cases hack : Acknowledged w u
  · exact Nat.le_of_eq (h.reported trivial u hu hack)
  · rw [h.unreported trivial u hu hack]
    exact Nat.zero_le 1

end Inv

theorem inv_init (swlist : SwList) : Inv full (init swlist) where
  good := by simp [init]
  stored := rfl
  single := Nat.zero_le 1
  fits := by simp [init]
  follows := by simp [init]
  absent := fun _ => ⟨rfl, rfl⟩
  reported := by simp [init]
  unreported := by simp [init]
  drop := by simp [init]
  own := by simp [init]
  gone := by simp [init]

/-! ## What the machine promises -/

structure Meets (retries : Nat) (w : World) (e : Event) : Prop where
  bounds : ∀ u, (step retries w e).update = some u → 1 ≤ u.step ∧ u.step ≤ lastStep
  forward : ∀ u u', w.update = some u → (step retries w e).update = some u' → u.step ≤ u'.step
  atMostOnce : ∀ u, (step retries w e).update = some u → (step retries w e).reports ≤ 1
  once : ∀ u, w.update = some u → (step retries w e).update = none →
    (step retries w e).reports = 1 ∧ (step retries w e).swlist.lastupdate = u.result
  complete : ∀ u, w.update = some u → u.result = some 200 → u.Complete
  notAgain : e = .localupdate → w.update = none → ∀ u, (step retries w e).update = some u →
    u.infos.id ∉ w.finished

namespace Inv

variable {w : World} {u : CurrentUpdate}

/-- The end of an update. -/
theorem closed_meets (h : Inv True w) (hbusy : w.busy = some .closing) (hu : w.update = some u)
    (retries : Nat) : Meets retries w .goOn := by
  have heq : Update.step retries w .goOn =
      { w with
        busy := none
        update := none
        savedUpdate := none
        reports := if u.infos.ticketid then w.reports else w.reports + 1
        finished := u.infos.id :: w.finished } := by
    simp [Update.step, Update.goOn, hbusy, World.closed, hu]
  obtain ⟨_, _, _, hlast, _⟩ := h.follows u hu .closing hbusy
  have hreports : (if u.infos.ticketid then w.reports else w.reports + 1) = 1 := by
    by_cases hticket : u.infos.ticketid
    · have hack : Acknowledged w u := ⟨hticket, .inr hbusy⟩
      simp [hticket, h.reported trivial u hu hack]
    · have hunack : ¬Acknowledged w u := fun hack => hticket hack.1
      simp [hticket, h.unreported trivial u hu hunack]
  exact
    { bounds := by simp [heq]
      forward := by simp [heq]
      atMostOnce := by simp [heq]
      once := by
        intro u' hu' _
        rw [hu] at hu'
        cases hu'
        rw [heq]
        exact ⟨hreports, hlast⟩
      complete := fun _ => h.complete
      notAgain := nofun }

theorem meets (h : Inv True w) {e : Event} (he : Enabled w e) (hsafe : Safe w e)
    (retries : Nat) : Meets retries w e := by
  have hinv := h.keep he hsafe.1 (fun _ => hsafe.2) retries
  match hu : w.update with
  | none =>
    refine ⟨fun _ => hinv.bounds, by simp [hu], fun _ => hinv.reports_le, by simp [hu],
      by simp [hu], ?_⟩
    rintro rfl _ u hup
    exact (h.localupdate hu).2 trivial u hup
  | some u =>
    by_cases hclosing : e = .goOn ∧ w.busy = some .closing
    · obtain ⟨rfl, hbusy⟩ := hclosing
      exact h.closed_meets hbusy hu retries
    have hafter := h.step he hsafe.1 (fun _ => hsafe.2)
      (fun hgo hbusy => hclosing ⟨hgo, hbusy⟩) hu retries
    obtain ⟨u', hup, hle⟩ := hafter.update
    refine ⟨fun _ => hinv.bounds, ?_, fun _ => hinv.reports_le, ?_, fun _ => h.complete,
      by simp [hu]⟩
    · intro v v' hv hv'
      rw [hu] at hv
      rw [hup] at hv'
      cases hv
      cases hv'
      exact hle
    · intro _ _ hnone
      rw [hup] at hnone
      cases hnone

end Inv

theorem update_sound (retries : Nat) (swlist : SwList) {w : World}
    (h : Runs (step retries) (fun w e => Enabled w e ∧ Safe w e) (init swlist) w) {e : Event}
    (he : Enabled w e) (hsafe : Safe w e) : Meets retries w e := by
  have hstep : ∀ w e, Enabled w e ∧ Safe w e → Inv True w → Inv True (step retries w e) :=
    fun _ _ he hinv => hinv.keep he.1 he.2.1 (fun _ => he.2.2) retries
  exact (h.invariant hstep (inv_init swlist)).meets he hsafe retries

def emptyList : SwList := ⟨∅, none, none⟩

def arrival (ticketid : Bool) : List Event :=
  [.newupdate ⟨1, .m3da ticketid⟩,
    .run .starting (.success []), .run (.start 1) (.success []),
    .run .starting (.success []), .run (.start 2) (.success []),
    .run (.download 1) (.success []), .run .starting (.success []),
    .run (.start 3) (.success []), .run .check (.success [⟨"a.b", some "1", ∅, ∅⟩]),
    .run .starting (.success []), .run (.start 4) (.success []),
    .run .nextdispatchstep (.success []), .goOn, .run (.alert ⟨0, 0, 1⟩) (.success [])]

def dispatched : List Event :=
  arrival false ++
    [.result "a.b" 200, .goOn, .goOn, .run .nextdispatchstep (.success []), .goOn,
      .run (.start 5) (.success []), .run .cleaned (.success [])]

theorem update_sound_dispatched :
    Meets 2 (dispatched.foldl (step 2) (init emptyList)) .goOn :=
  update_sound 2 emptyList (Along.runs (by decide +kernel)) (by decide +kernel)
    (by decide +kernel)

def lateResult : List Event :=
  arrival true ++
    [.assetresponsetimeout, .run (.alert ⟨0, 0, 1⟩) (.success []), .assetresponsetimeout,
      .run (.start 5) (.success []), .result "a.b" 200, .goOn, .goOn,
      .run .nextdispatchstep (.success [])]

theorem late_result_breaks_update : ¬∀ (swlist : SwList) (w : World),
    Runs (step 2) Enabled (init swlist) w → ∀ e, Enabled w e → Meets 2 w e := by
  intro h
  have hruns : Runs (step 2) Enabled (init emptyList) (lateResult.foldl (step 2) (init emptyList)) :=
    Along.runs (by decide +kernel)
  have hmeets := h emptyList _ hruns .goOn (by decide +kernel)
  have hsix : ¬∀ u ∈ (step 2 (lateResult.foldl (step 2) (init emptyList)) .goOn).update,
      1 ≤ u.step ∧ u.step ≤ lastStep := by
    decide +kernel
  exact hsix hmeets.bounds

end Mihini.Update
