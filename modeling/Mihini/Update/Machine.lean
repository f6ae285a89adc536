import Mihini.Lib.Run
import Mihini.Update.PkgCheck

/-!
# The update machine

`src/agent/agent/update/init.lua`, `updatemgr.lua`, and what `downloader.lua`, `pkgcheck.lua` and
`common.lua` do to the current update.  A task runs until it yields, that is until it waits for
another process (`os.execute` does so as well); what it does then is a task of its own.  A task
that indexes a missing update, manifest or component ends there with an error.
-/

namespace Mihini.Update

open Mihini.Lib

/-! ## Data -/

structure Dispatched where
  cmp : Cmp
  result : Option Int
  retries : Nat
  deriving DecidableEq

inductive Request where
  | pause
  | resume
  | abort
  deriving DecidableEq

inductive Proto where
  | m3da (ticketid : Bool)
  | localupdate (dropped : Bool)
  deriving DecidableEq

/-- What `infos` says of the package. -/
structure Package where
  id : Nat
  proto : Proto
  deriving DecidableEq

namespace Package

def dropped (p : Package) : Bool := p.proto = .localupdate true

def m3da (p : Package) : Bool :=
  match p.proto with
  | .m3da _ => true
  | .localupdate _ => false

def ticketid (p : Package) : Bool := p.proto = .m3da true

theorem m3da_of_dropped {p : Package} (h : p.dropped) : p.m3da = false := by
  have hproto : p.proto = .localupdate true := by simpa [dropped] using h
  simp [m3da, hproto]

end Package

structure CurrentUpdate where
  table : Nat
  copy : Nat
  infos : Package
  step : Nat
  paused : Bool
  request : Option Request
  result : Option Int
  updatefile : Bool
  /-- Whether `update_directory` is set. -/
  updateDirectory : Bool
  manifest : Option (List Dispatched)
  /-- From 1 on; 0 is `nil`. -/
  index : Nat
  deriving DecidableEq

structure SwList where
  components : LuaTable Nat Cmp
  appuid : Option Nat
  lastupdate : Option Int

structure Ref where
  table : Nat
  copy : Nat
  index : Nat
  deriving DecidableEq

def lastStep : Nat := 5

/-- Whether `STEPS[step]` has a start event; `none` when there is no such step. -/
def startEvent (step : Nat) : Option Bool :=
  if 1 ≤ step ∧ step < lastStep then some true else if step = lastStep then some false else none

/-- Whether `STEPS[step]` has a progress event. -/
def progressEvent (step : Nat) : Option Bool :=
  if 1 ≤ step ∧ step ≤ lastStep then some (step == 2 || step == 4) else none

/-! ## Tasks -/

inductive Task where
  /-- `sched.run(stepstart)` -/
  | stepstart
  /-- `stepstart`, after the start event has been notified. -/
  | starting
  /-- `sched.run(STEPS[step].start)` -/
  | start (step : Nat)
  /-- `start_m3da_download` -/
  | download (n : Nat)
  /-- `checkpkg`, once the archive is extracted. -/
  | check
  /-- `sched.run(nextdispatchstep)`, and `start_dispatch` once the archive is removed. -/
  | nextdispatchstep
  /-- `alertcomponent`, after the progress event has been notified. -/
  | alert (component : Ref)
  /-- `sched.run(sendmsgasset, component)` -/
  | sendmsgasset (component : Ref)
  /-- `sched.run(stepfinished, "failure", code)` -/
  | failed (code : Int)
  | acknowledge
  /-- `finish_update`, once the result has been acknowledged. -/
  | acknowledged
  | cleaned
  /-- `sched.run(resumeupdate)` -/
  | resumeupdate
  deriving DecidableEq

inductive Busy where
  | recorded (code : Int)
  /-- `updateswlist`, once the new unique id is saved. -/
  | identified (uid : Nat)
  | indexed
  /-- `savestate`, once the software list is saved. -/
  | closing
  deriving DecidableEq

structure World where
  update : Option CurrentUpdate
  swlist : SwList
  savedUpdate : Option CurrentUpdate
  savedSwlist : SwList
  tasks : List Task
  busy : Option Busy
  /-- The calls of `sendmsgasset` that wait for the answer of an asset, with their `indextmp`. -/
  sent : List (Ref × Nat)
  /-- The notifiers of downloads that are in `stepprogress`. -/
  notifiers : List Nat
  timercell : Bool
  assetcxhook : Option Ref
  drop : Option Nat
  made : Nat
  reports : Nat
  finished : List Nat
  before : SwList
  /-- The `SoftwareUpdate` commands sent so far. -/
  commands : List Ref
  starts : Nat

namespace World

def modify (w : World) (f : CurrentUpdate → CurrentUpdate) : World :=
  { w with update := w.update.map f }

def savecurrentupdate (w : World) : World := { w with savedUpdate := w.update }

def saveswlist (w : World) : World := { w with savedSwlist := w.swlist }

def run (w : World) (t : Task) : World := { w with tasks := t :: w.tasks }

end World

/-! ## Steps -/

def abortupdate (u : CurrentUpdate) : CurrentUpdate :=
  { u with paused := false, result := some 600, step := lastStep, request := none }

def pauseupdate (u : CurrentUpdate) : CurrentUpdate :=
  { u with paused := true, request := none }

namespace World

/-- The end of `stepstart`. -/
def startstep (w : World) : World :=
  match w.update with
  | none => w
  | some u =>
    match startEvent u.step with
    | none => w
    | some _ => { w.run (.start u.step) with starts := w.starts + 1 }

/-- `stepstart`, up to the notification. -/
def stepstart (w : World) : World :=
  match w.update with
  | none => w
  | some u =>
    match startEvent u.step with
    | none => w
    | some true => w.run .starting
    | some false => w.startstep

def starting (w : World) : World :=
  match w.update with
  | none => w
  | some u =>
    match u.request with
    | none => w.startstep
    | some .resume => ((w.modify fun u => { u with request := none }).savecurrentupdate).startstep
    | some .abort => ((w.modify abortupdate).savecurrentupdate).startstep
    | some .pause => (w.modify pauseupdate).savecurrentupdate

/-- `stepfinished("success")` when there is no code, else `stepfinished("failure", code)`. -/
def stepfinished (w : World) (code : Option Int) : World :=
  match w.update with
  | none => w
  | some u =>
    match startEvent u.step, code with
    | none, _ => w
    | some _, none => ((w.modify fun u => { u with step := u.step + 1 }).savecurrentupdate).stepstart
    | some _, some code =>
      ((w.modify fun u =>
        { u with result := some code, step := lastStep }).savecurrentupdate).stepstart

def resumeupdate (w : World) : World :=
  match w.update with
  | none => w
  | some u => if u.paused then w else w.stepstart

/-! ## The dispatcher -/

def stophooks (w : World) : World := { w with timercell := false, assetcxhook := none }

def component (comps : List Dispatched) (index : Nat) : Option Dispatched :=
  if index = 0 then none else comps[index - 1]?

def addRetry (c : Dispatched) : Dispatched := { c with retries := c.retries + 1 }

/-- The retries of a component are counted in its table, which may be that of an older update or an
older copy. -/
def countRetry (c : Ref) (u : CurrentUpdate) : CurrentUpdate :=
  if u.table = c.table ∧ u.copy = c.copy then
    { u with manifest := u.manifest.map fun comps => comps.modify (c.index - 1) addRetry }
  else u

/-- `sendmsgasset`, up to the answer of the asset. -/
def sendmsgasset (w : World) (c : Ref) : World :=
  let w := w.modify (countRetry c)
  match w.update with
  | none => w
  | some u =>
    { w with
      timercell := true
      sent := (c, u.index) :: w.sent
      commands := c :: w.commands }

inductive Response where
  | ok
  | unknownAsset
  | error
  deriving DecidableEq

/-- `sendmsgasset`, from the answer on. -/
def answered (w : World) (c : Ref) (indextmp : Nat) (r : Response) : World :=
  match w.update with
  | none => w
  | some u =>
    match u.manifest.bind fun comps => component comps indextmp with
    | none => w
    | some comp =>
      if comp.result.isSome then w
      else if r = .unknownAsset ∧ w.assetcxhook = none then
        { w with assetcxhook := some c }.savecurrentupdate
      else if r ≠ .ok then w.stophooks.stepfinished (some 462)
      else w.savecurrentupdate

/-- `alertcomponent`, up to the notification.  `retries` is `config.update.retries`. -/
def alertcomponent (retries : Nat) (w : World) : World :=
  match w.update with
  | none => w
  | some u =>
    match u.manifest.bind fun comps => component comps u.index with
    | none => w
    | some comp =>
      if retries ≤ comp.retries then w.stepfinished (some 461)
      else
        match progressEvent u.step with
        | none => w
        | some true => w.run (.alert ⟨u.table, u.copy, u.index⟩)
        | some false => w.sendmsgasset ⟨u.table, u.copy, u.index⟩

/-- `stepprogress`, from the notification on: whether the caller goes on. -/
def stepprogress (w : World) : World × Bool :=
  match w.update with
  | none => (w, false)
  | some u =>
    match u.request with
    | some .abort => (((w.modify abortupdate).savecurrentupdate).run .stepstart, false)
    | some .pause => ((w.modify pauseupdate).savecurrentupdate, false)
    | _ => (w, true)

def alert (w : World) (c : Ref) : World :=
  let (w, goesOn) := w.stepprogress
  if goesOn then w.sendmsgasset c else w

def nextdispatchstep (retries : Nat) (w : World) : World :=
  match w.update with
  | none => w
  | some u =>
    match u.manifest with
    | none => w
    | some comps =>
      let next :=
        { (w.modify fun u => { u with index := u.index + 1 }).savecurrentupdate with
          busy := some .indexed }
      if u.index = 0 then next
      else
        match component comps u.index with
        | none => w
        | some comp =>
          match comp.result with
          | none => w.alertcomponent retries
          | some code => if code = 200 then next else w.stepfinished (some code)

/-- `alertnextcomponent`, once the index is saved. -/
def indexed (retries : Nat) (w : World) : World :=
  match w.update with
  | none => w
  | some u =>
    match u.manifest with
    | none => w
    | some comps =>
      if (component comps u.index).isSome then w.alertcomponent retries else w.stepfinished none

def assetresponsetimeout (retries : Nat) (w : World) : World :=
  if w.timercell && w.update.isSome then w.stophooks.alertcomponent retries else w

def registered (w : World) : World :=
  match w.assetcxhook with
  | none => w
  | some c => w.stophooks.run (.sendmsgasset c)

/-- The checks at the head of `EMPSoftwareUpdateResult`. -/
def accepts (w : World) (cmpname : String) : Bool :=
  match w.update with
  | none => false
  | some u =>
    match u.manifest.bind fun comps => component comps u.index with
    | none => false
    | some comp => comp.cmp.name == cmpname && comp.result.isNone

def setResult (u : CurrentUpdate) (code : Int) : CurrentUpdate :=
  { u with manifest := u.manifest.map fun comps =>
      comps.modify (u.index - 1) fun c => { c with result := some code } }

def updateResult (w : World) (cmpname : String) (code : Int) : World :=
  if w.accepts cmpname then
    { (w.modify fun u => setResult u code).savecurrentupdate with busy := some (.recorded code) }
  else w

/-- `getcmpuid` for a component that is in the list. -/
def uidOf (l : SwList) (name : String) : Option Nat :=
  (l.components.entries.find? fun e => e.2.name = name).map fun e => e.1

def newUid (l : SwList) : Nat :=
  match l.appuid with
  | some n => n + 1
  | none => 1

/-- The write of `updateswlist`. -/
def putSwlist (l : SwList) (uid : Nat) (c : Cmp) : SwList :=
  if c.version.isSome then { l with components := l.components.insert uid c }
  else { l with components := l.components.erase uid }

/-- `EMPSoftwareUpdateResult`, once the list of components is saved. -/
def applied (w : World) (uid : Nat) : World :=
  match w.update.bind fun u => u.manifest.bind fun comps => component comps u.index with
  | none => w
  | some comp => ({ w with swlist := putSwlist w.swlist uid comp.cmp }.saveswlist).run
      .nextdispatchstep

/-- `EMPSoftwareUpdateResult`, once the result is saved. -/
def recorded (w : World) (code : Int) : World :=
  let w := w.stophooks
  if code = 200 then
    match w.update.bind fun u => u.manifest.bind fun comps => component comps u.index with
    | none => w
    | some comp =>
      match uidOf w.swlist comp.cmp.name with
      | some uid => w.applied uid
      | none =>
        let uid := newUid w.swlist
        { { w with swlist := { w.swlist with appuid := some uid } }.saveswlist with
          busy := some (.identified uid) }
  else w.run (.failed code)

/-! ## The end -/

/-- `savestate`, up to the removal of the files. -/
def savestate (w : World) : World :=
  match w.update with
  | none => w
  | some u =>
    { w with drop := if u.updatefile && u.infos.dropped then none else w.drop }.run .cleaned

/-- `savestate`, up to the write of the software list. -/
def cleaned (w : World) : World :=
  match w.update with
  | none => w
  | some u =>
    { { w with swlist := { w.swlist with lastupdate := u.result } }.saveswlist with
      busy := some .closing }

/-- `savestate` and `finish_update`, once the software list is saved. -/
def closed (w : World) : World :=
  match w.update with
  | none => w
  | some u =>
    { w with
      update := none
      savedUpdate := none
      reports := if u.infos.ticketid then w.reports else w.reports + 1
      finished := u.infos.id :: w.finished }

/-- `finish_update`, up to the acknowledgement. -/
def finishUpdate (w : World) : World :=
  let w := (w.modify fun u =>
    { u with result := some (u.result.getD 200) }).savecurrentupdate
  match w.update with
  | none => w
  | some u => if u.infos.ticketid then w.run .acknowledge else w.savestate

/-! ## The other steps -/

inductive Outcome where
  /-- The step succeeds, `check_package` with the components of the manifest. -/
  | success (components : List Cmp)
  | failure (code : Int)

def failureCodes : List Int :=
  [400, 450, 451, 452, 453, 454, 455, 456, 457, 458, 459, 479, 501, 552, 553, 554, 555]

def Outcome.Possible : Outcome → Prop
  | .success _ => True
  | .failure code => code ∈ failureCodes

instance : (o : Outcome) → Decidable o.Possible
  | .success _ => isTrue trivial
  | .failure code => inferInstanceAs (Decidable (code ∈ failureCodes))

def start (w : World) (step : Nat) (o : Outcome) : World :=
  match step with
  | 1 => w.stepfinished none
  | 2 =>
    match w.update with
    | none => w
    | some u =>
      if u.infos.m3da then
        match o with
        | .failure code => w.stepfinished (some code)
        | .success _ =>
          { ((w.modify fun u => { u with updatefile := true }).savecurrentupdate).run
              (.download w.made) with made := w.made + 1 }
      else (w.modify fun u => { u with updatefile := true }).stepfinished none
  | 3 =>
    match o with
    | .failure code => w.stepfinished (some code)
    | .success _ => (w.modify fun u => { u with updateDirectory := true }).run .check
  | 4 =>
    match w.update with
    | none => w
    | some u =>
      if u.updatefile && u.manifest.isSome then
        { w with drop := if u.infos.dropped then none else w.drop }.run .nextdispatchstep
      else w.stepfinished (some 464)
  | _ => w.finishUpdate

def download (w : World) (o : Outcome) : World :=
  match o with
  | .success _ => w.stepfinished none
  | .failure code => w.stepfinished (some code)

def check (w : World) (o : Outcome) : World :=
  match o with
  | .failure code => w.stepfinished (some code)
  | .success cmps =>
    (w.modify fun u => { u with manifest := some (cmps.map fun c => ⟨c, none, 0⟩) }).stepfinished
      none

/-- The notifier of a download, from the notification on.  Its finalizer stops the download. -/
def notified (w : World) (n : Nat) : World :=
  let (w', goesOn) := w.stepprogress
  if goesOn then w' else { w' with tasks := w'.tasks.erase (.download n) }

/-! ## Requests -/

def request (w : World) (r : Request) : World :=
  match w.update with
  | none => w
  | some u =>
    if u.paused then
      match r with
      | .resume =>
        ((w.modify fun u => { u with paused := false }).savecurrentupdate).run .resumeupdate
      | .abort => ((w.modify abortupdate).savecurrentupdate).run .stepstart
      | .pause => w
    else (w.modify fun u => { u with request := some r }).savecurrentupdate

def newupdate (w : World) (p : Package) : World :=
  match w.update with
  | some _ => w
  | none =>
    { w with
      update := some ⟨w.made, 0, p, 1, false, none, none, false, false, none, 0⟩
      made := w.made + 1
      reports := 0
      before := w.swlist }.savecurrentupdate.stepstart

/-- `localupdate`, without a path. -/
def localupdate (w : World) : World :=
  match w.drop with
  | none => w
  | some id => w.newupdate ⟨id, .localupdate true⟩

def restart (w : World) : World :=
  { w with
    update := w.savedUpdate
    swlist := w.savedSwlist
    tasks := if w.savedUpdate.isSome then [.resumeupdate] else []
    busy := none
    sent := []
    notifiers := []
    timercell := false
    assetcxhook := none }

end World

/-! ## Runs -/

def init (swlist : SwList) : World where
  update := none
  swlist := swlist
  savedUpdate := none
  savedSwlist := swlist
  tasks := []
  busy := none
  sent := []
  notifiers := []
  timercell := false
  assetcxhook := none
  drop := none
  made := 0
  reports := 0
  finished := []
  before := swlist
  commands := []
  starts := 0

inductive Event where
  | run (t : Task) (o : World.Outcome)
  | goOn
  /-- An asset answers a `SoftwareUpdate` command. -/
  | answer (c : Ref) (indextmp : Nat) (r : World.Response)
  | notifier (n : Nat)
  /-- `stepprogress` returns to it. -/
  | notified (n : Nat)
  | assetresponsetimeout
  | registered
  | result (cmpname : String) (code : Int)
  /-- The command `SoftwareUpdateRequest`. -/
  | request (r : Request)
  /-- A file is put in the drop folder. -/
  | drop (id : Nat)
  | localupdate
  | newupdate (p : Package)
  | restart

def runTask (retries : Nat) (w : World) (t : Task) (o : World.Outcome) : World :=
  let w := { w with tasks := w.tasks.erase t }
  match t with
  | .stepstart => w.stepstart
  | .starting => w.starting
  | .start step => w.start step o
  | .download _ => w.download o
  | .check => w.check o
  | .nextdispatchstep => w.nextdispatchstep retries
  | .alert c => w.alert c
  | .sendmsgasset c => w.sendmsgasset c
  | .failed code => w.stepfinished (some code)
  | .acknowledge =>
    match o with
    | .success _ => { w.run .acknowledged with reports := w.reports + 1 }
    | .failure _ => w
  | .acknowledged => w.savestate
  | .cleaned => w.cleaned
  | .resumeupdate => w.resumeupdate

def goOn (retries : Nat) (w : World) : World :=
  let w' := { w with busy := none }
  match w.busy with
  | none => w
  | some (.recorded code) => w'.recorded code
  | some (.identified uid) => w'.applied uid
  | some .indexed => w'.indexed retries
  | some .closing => w'.closed

def step (retries : Nat) (w : World) : Event → World
  | .run t o => runTask retries w t o
  | .goOn => goOn retries w
  | .answer c indextmp r => { w with sent := w.sent.erase (c, indextmp) }.answered c indextmp r
  | .notifier n =>
    match w.update.bind fun u => progressEvent u.step with
    | some true => { w with notifiers := n :: w.notifiers }
    | _ => w
  | .notified n => { w with notifiers := w.notifiers.erase n }.notified n
  | .assetresponsetimeout => w.assetresponsetimeout retries
  | .registered => w.registered
  | .result cmpname code => w.updateResult cmpname code
  | .request r => w.request r
  | .drop id => { w with drop := some id }
  | .localupdate => w.localupdate
  | .newupdate p => w.newupdate p
  | .restart => w.restart

/-- A file that is put in the drop folder is a new package, and so is one that comes from
elsewhere. -/
def World.fresh (w : World) (id : Nat) : Prop :=
  id ∉ w.finished ∧ w.drop ≠ some id ∧ ∀ u ∈ w.update, u.infos.id ≠ id

def Enabled (w : World) : Event → Prop
  | .run t o => w.busy = none ∧ t ∈ w.tasks ∧ o.Possible
  | .goOn => w.busy ≠ none
  | .answer c indextmp _ => w.busy = none ∧ (c, indextmp) ∈ w.sent
  | .notifier n => w.busy = none ∧ .download n ∈ w.tasks
  | .notified n => w.busy = none ∧ n ∈ w.notifiers
  | .drop id => w.fresh id
  | .newupdate p => w.busy = none ∧ w.fresh p.id ∧ p.dropped = false
  | .restart => True
  | _ => w.busy = none

instance (w : World) (id : Nat) : Decidable (w.fresh id) :=
  inferInstanceAs (Decidable (_ ∧ _ ∧ _))

instance (w : World) : (e : Event) → Decidable (Enabled w e)
  | .run _ _ => inferInstanceAs (Decidable (_ ∧ _ ∧ _))
  | .goOn => inferInstanceAs (Decidable (_ ≠ _))
  | .answer _ _ _ | .notifier _ | .notified _ => inferInstanceAs (Decidable (_ ∧ _))
  | .drop id => inferInstanceAs (Decidable (w.fresh id))
  | .newupdate _ => inferInstanceAs (Decidable (_ ∧ _ ∧ _))
  | .restart => isTrue trivial
  | .assetresponsetimeout | .registered | .result _ _ | .request _ | .localupdate =>
    inferInstanceAs (Decidable (_ = _))

end Mihini.Update
