import Mathlib.Data.List.Infix
import Mihini.Lib.Run

/-!
# Downloads of packages

`src/agent/agent/update/downloader.lua`: the attempts to download a package, which go on with the
file that the attempts before have left.  The replies of the server, pauses and restarts are events.
-/

namespace Mihini.Update.Downloader

open Mihini.Lib List

abbrev Bytes := List UInt8

abbrev Str := List Char

/-! ## Headers -/

/-- The headers of a reply, in lower case; the length is what `tonumber` finds. -/
structure ReplyHeaders where
  contentLength : Option Nat
  acceptRanges : Option Str
  contentRange : Option Str

/-- What `http.request` returns for the method `HEAD`: whether the first result is `1`, the status
code if the second is a number, and the headers. -/
structure Reply where
  ok : Bool
  statuscode : Option Nat
  headers : Option ReplyHeaders

structure Headers where
  contentlength : Option Nat
  acceptrange : Bool
  deriving DecidableEq

/-- `h["content-range"]:match("bytes 1%-*")`: any number of hyphens may follow, also none. -/
def showsRange (contentRange : Str) : Bool :=
  ['b', 'y', 't', 'e', 's', ' ', '1'] <:+: contentRange

/-- `getheaderspackage`, with the replies to its requests. -/
def getheaderspackage (head second : Reply) : Option Headers :=
  match head.headers with
  | none => none
  | some h =>
    if head.ok && head.statuscode = some 200 then
      let acceptrange :=
        if h.acceptRanges = some ['b', 'y', 't', 'e', 's'] then true
        else
          match second.headers.bind ReplyHeaders.contentRange with
          | some range => second.ok && second.statuscode = some 206 && showsRange range
          | none => false
      some ⟨h.contentLength, acceptrange⟩
    else none

/-! ## Requests -/

inductive Mode where
  | append
  /-- `"w+"` -/
  | write
  deriving DecidableEq

/-- The variables of `start_m3da_download` that say how the package is requested. -/
structure Get where
  /-- Whether there is a header `Range`. -/
  hrange : Bool
  exphcontentrange : Option Str
  mode : Mode
  sz : Nat

def decimal : Int → Str
  | .ofNat n => Nat.toDigits 10 n
  | .negSucc n => '-' :: Nat.toDigits 10 (n + 1)

def contentRange (sz contentlength : Nat) : Str :=
  ['b', 'y', 't', 'e', 's', ' '] ++ decimal sz ++ '-' :: decimal (contentlength - 1 : Int) ++
    '/' :: decimal contentlength

/-- What to request for a file, or `none` when it is complete already. -/
def plan (file : Option Bytes) (headers : Headers) : Option Get :=
  match file with
  | none => some ⟨false, none, .write, 0⟩
  | some [] => some ⟨false, none, .append, 0⟩
  | some bytes =>
    if headers.contentlength = some bytes.length then none
    else
      match headers.acceptrange, headers.contentlength with
      | true, some n => some ⟨true, some (contentRange bytes.length n), .append, bytes.length⟩
      | _, _ => some ⟨false, none, .write, 0⟩

def Get.cancelled (g : Get) (resumeError : Bool) : Get :=
  if g.hrange && resumeError then { g with hrange := false, mode := .write, sz := 0 } else g

/-! ## Attempts -/

inductive Outcome where
  | interrupted
  | failed
  | done (statuscode : Option Nat) (headers : Option ReplyHeaders)

/-- What comes of a request `GET`: the bytes that are put into the file, and how it ends. -/
structure Transfer where
  received : Bytes
  outcome : Outcome

structure Attempt where
  freespace : Option Nat
  head : Reply
  second : Reply
  get : Transfer

inductive Verdict where
  | accept
  | retry
  | resumeError
  deriving DecidableEq

def Get.verdict (g : Get) : Option Nat → Option ReplyHeaders → Verdict
  | none, _ => .retry
  | some code, headers =>
    if code = 206 ∧ headers.isSome ∧
        headers.bind ReplyHeaders.contentRange ≠ g.exphcontentrange then .resumeError
    else if code = 200 ∧ g.hrange then .resumeError
    else if 200 ≤ code ∧ code < 300 then .accept
    else if code = 416 then .resumeError
    else .retry

inductive Phase where
  | running
  | paused
  | succeeded
  | failed (code : Nat)
  deriving DecidableEq

inductive Notice where
  | ranged (file : Bytes)
  | compared (digested file : Bytes)
  | success (file : Bytes)
  | failure (code : Nat)
  deriving DecidableEq

structure State where
  file : Option Bytes
  /-- The fields of `m3da_dwl_retry_state`. -/
  attempt : Nat
  resumeError : Bool
  phase : Phase
  notices : List Notice

structure Infos where
  url : Option Str
  signature : Option Str

def State.content (s : State) : Bytes := s.file.getD []

def State.notice (s : State) (n : Notice) : State := { s with notices := s.notices ++ [n] }

def State.fail (s : State) (code : Nat) : State :=
  { s with phase := .failed code }.notice (.failure code)

def retryDelays : Nat := 3

def State.retry (s : State) : State :=
  if retryDelays ≤ s.attempt then s.fail 552 else { s with attempt := s.attempt + 1 }

section

variable (md5 : Bytes → Str)

def State.compare (s : State) (signature : Str) (digested : Bytes) : State :=
  let s := s.notice (.compared digested s.content)
  if md5 digested ≠ signature.map Char.toLower then s.fail 553
  else { s with phase := .succeeded }.notice (.success s.content)

def State.opened (s : State) : Mode → Bytes
  | .append => s.content
  | .write => []

/-- `do_m3da_download`: the bytes that are received go into the file. -/
def State.requested (s : State) (g : Get) (received : Bytes) : State :=
  { s with
    file := some (s.opened g.mode ++ received)
    notices := if g.hrange then s.notices ++ [.ranged s.content] else s.notices }

def State.concluded (s : State) (signature : Str) (g : Get) (digested : Bytes) :
    Outcome → State
  | .interrupted => { s with phase := .paused }
  | .failed => s.retry
  | .done code headers =>
    match g.verdict code headers with
    | .accept => s.compare md5 signature digested
    | .retry => s.retry
    | .resumeError => { s with resumeError := true }.retry

/-- A download.  The digest goes on from that of the file when a range is requested. -/
def State.download (s : State) (signature : Str) (g : Get) (t : Transfer) : State :=
  let digested := if g.hrange then s.content ++ t.received else t.received
  (s.requested g t.received).concluded md5 signature g digested t.outcome

def State.start (s : State) (infos : Infos) (a : Attempt) : State :=
  match infos.url, infos.signature, a.freespace with
  | some _, some signature, some freespace =>
    match getheaderspackage a.head a.second with
    | none => s.retry
    | some headers =>
      match plan s.file headers with
      | none => s.compare md5 signature s.content
      | some g =>
        if headers.contentlength.any fun n => freespace < n - g.sz then s.fail 555
        else s.download md5 signature (g.cancelled s.resumeError) a.get
  | some _, some _, none => s.fail 501
  | _, _, _ => s.fail 554

/-- An attempt, a pause while the next one is waited for, or `init_m3da_download` after a pause or a
restart. -/
inductive Event where
  | attempt (a : Attempt)
  | pause
  | resume

def step (infos : Infos) (s : State) : Event → State
  | .attempt a => if s.phase = .running then s.start md5 infos a else s
  | .pause => if s.phase = .running then { s with phase := .paused } else s
  | .resume =>
    if s.phase = .running ∨ s.phase = .paused then
      { s with attempt := 0, resumeError := false, phase := .running }
    else s

end

def State.init : State := ⟨none, 0, false, .running, []⟩

/-! ## The file and the package -/

/-- What may happen to the file: it is a part of the package whenever a range is requested, the
digest is that of the file, and the file is the package in the end. -/
def Safe (package : Bytes) : Notice → Prop
  | .ranged file => file <+: package
  | .compared digested file => digested = file
  | .success file => file = package
  | .failure code => code ≠ 553

structure Inv (package : Bytes) (s : State) : Prop where
  file : s.content <+: package ∨ (s.resumeError = true ∧ package.length < s.content.length)
  notices : ∀ n ∈ s.notices, Safe package n

/-- The replies to `HEAD` show the length of the package, or none. -/
def Honest (package : Bytes) (headers : Headers) : Prop :=
  headers.contentlength = none ∨ headers.contentlength = some package.length

/-- The server sends the part of the package that is asked for, or a beginning of it; with a status
of success it is all of it.  Or it refuses a resume and sends all of the package. -/
def Serves (package opened : Bytes) (g : Get) (t : Transfer) : Prop :=
  (t.received <+: package.drop opened.length ∧
    match t.outcome with
    | .done code headers =>
      g.verdict code headers = .accept → t.received = package.drop opened.length
    | _ => True) ∨
  (g.hrange = true ∧ t.received = package ∧
    match t.outcome with
    | .done code _ => code = some 200
    | _ => False)

/-- The condition on an event.  An attempt goes through when the server keeps to the package; there
is no restart while the file is longer than the package. -/
def Fair (package : Bytes) (s : State) : Event → Prop
  | .attempt a =>
    match getheaderspackage a.head a.second with
    | none => True
    | some headers =>
      Honest package headers ∧
        match plan s.file headers with
        | none => True
        | some g =>
          let g := g.cancelled s.resumeError
          Serves package (s.opened g.mode) g a.get
  | .pause => True
  | .resume => s.content.length ≤ package.length

namespace Inv

variable {package : Bytes} {s : State}

theorem init (package : Bytes) : Inv package .init where
  file := .inl nil_prefix
  notices _ hn := absurd hn not_mem_nil

theorem notice (h : Inv package s) {n : Notice} (hn : Safe package n) :
    Inv package (s.notice n) where
  file := h.file
  notices := by
    intro n' hn'
    rcases mem_append.mp hn' with hmem | hmem
    · exact h.notices n' hmem
    · rw [mem_singleton.mp hmem]
      exact hn

theorem phase (h : Inv package s) (phase : Phase) : Inv package { s with phase := phase } :=
  ⟨h.file, h.notices⟩

theorem fail (h : Inv package s) {code : Nat} (hcode : code ≠ 553) :
    Inv package (s.fail code) :=
  (h.phase _).notice hcode

theorem retry (h : Inv package s) : Inv package s.retry := by
  unfold State.retry
  split
  · exact h.fail (by decide)
  · exact ⟨h.file, h.notices⟩

theorem compare (h : Inv package s) {md5 : Bytes → Str} {signature : Str}
    (hsignature : signature.map Char.toLower = md5 package) (hcontent : s.content = package) :
    Inv package (s.compare md5 signature s.content) := by
  have hmd5 : ¬ md5 s.content ≠ signature.map Char.toLower := by
    rw [hcontent, hsignature]
    exact fun hne => hne rfl
  show Inv package (if md5 s.content ≠ signature.map Char.toLower then _ else _)
  rw [if_neg hmd5]
  exact ((h.notice (n := .compared s.content s.content) rfl).phase _).notice hcontent

end Inv

/-- What an attempt can do. -/
theorem start_cases (md5 : Bytes → Str) (s : State) (infos : Infos) (a : Attempt) :
    (∃ code, code ≠ 553 ∧ s.start md5 infos a = s.fail code) ∨
    s.start md5 infos a = s.retry ∨
    ∃ signature headers, infos.signature = some signature ∧
      getheaderspackage a.head a.second = some headers ∧
      ((plan s.file headers = none ∧
          s.start md5 infos a = s.compare md5 signature s.content) ∨
        ∃ g, plan s.file headers = some g ∧
          s.start md5 infos a = s.download md5 signature (g.cancelled s.resumeError) a.get) := by
  unfold State.start
  cases infos.url with
  | none => exact .inl ⟨554, by decide, rfl⟩
  | some url =>
    cases infos.signature with
    | none => exact .inl ⟨554, by decide, rfl⟩
    | some signature =>
      cases a.freespace with
      | none => exact .inl ⟨501, by decide, rfl⟩
      | some freespace =>
        cases getheaderspackage a.head a.second with
        | none => exact .inr (.inl rfl)
        | some headers =>
          cases hplan : plan s.file headers with
          | none =>
            simp only [hplan]
            exact .inr (.inr ⟨signature, headers, rfl, rfl, .inl ⟨hplan, rfl⟩⟩)
          | some g =>
            simp only [hplan]
            split
            · exact .inl ⟨555, by decide, rfl⟩
            · exact .inr (.inr ⟨signature, headers, rfl, rfl, .inr ⟨g, hplan, rfl⟩⟩)

/-! ## What is requested -/

/-- Only a file with bytes is gone on with, and only when no resume was refused. -/
structure Resumes (s : State) (g : Get) : Prop where
  opened : s.opened g.mode = if g.hrange then s.content else []
  ranged : g.hrange = true → s.resumeError = false ∧ s.content ≠ []

section

variable {s : State} {headers : Headers} {g : Get}

theorem plan_complete (h : plan s.file headers = none) :
    headers.contentlength = some s.content.length := by
  unfold plan at h
  rw [State.content]
  cases hfile : s.file with
  | none =>
    rw [hfile] at h
    nomatch h
  | some bytes =>
    rw [hfile] at h
    cases bytes with
    | nil => nomatch h
    | cons b bytes =>
      by_cases hlength : headers.contentlength = some (b :: bytes).length
      · exact hlength
      · simp only [if_neg hlength] at h
        split at h <;> nomatch h

theorem plan_resumes (h : plan s.file headers = some g) :
    s.opened g.mode = (if g.hrange then s.content else []) ∧
      (g.hrange = true → s.content ≠ []) := by
  unfold plan at h
  rw [State.content]
  cases hfile : s.file with
  | none =>
    rw [hfile] at h
    rw [← Option.some.inj h]
    exact ⟨rfl, nofun⟩
  | some bytes =>
    rw [hfile] at h
    cases bytes with
    | nil =>
      rw [← Option.some.inj h]
      exact ⟨congrArg (fun file => file.getD []) hfile, nofun⟩
    | cons b bytes =>
      by_cases hlength : headers.contentlength = some (b :: bytes).length
      · simp only [if_pos hlength] at h
        nomatch h
      simp only [if_neg hlength] at h
      split at h
      · rw [← Option.some.inj h]
        exact ⟨congrArg (fun file => file.getD []) hfile, fun _ => cons_ne_nil b bytes⟩
      · rw [← Option.some.inj h]
        exact ⟨rfl, nofun⟩

theorem cancelled_resumes (h : plan s.file headers = some g) :
    Resumes s (g.cancelled s.resumeError) := by
  obtain ⟨hopened, hranged⟩ := plan_resumes h
  unfold Get.cancelled
  cases hrange : g.hrange with
  | false =>
    rw [hrange] at hopened
    exact ⟨by simpa [hrange] using hopened, by simp [hrange]⟩
  | true =>
    cases herror : s.resumeError with
    | false =>
      rw [hrange] at hopened
      exact ⟨by simpa [hrange] using hopened, fun _ => ⟨herror, hranged hrange⟩⟩
    | true => exact ⟨rfl, nofun⟩

end

theorem digested_eq {s : State} {g : Get} (hg : Resumes s g) {received : Bytes} :
    (if g.hrange then s.content ++ received else received) = (s.requested g received).content := by
  show _ = s.opened g.mode ++ received
  rw [hg.opened]
  cases g.hrange <;> rfl

namespace Inv

variable {package : Bytes} {s : State} {md5 : Bytes → Str} {signature : Str}

theorem opened_part (h : Inv package s) {g : Get} (hg : Resumes s g) :
    s.opened g.mode <+: package := by
  rw [hg.opened]
  cases hrange : g.hrange with
  | false => exact nil_prefix
  | true =>
    rcases h.file with hpart | ⟨herror, -⟩
    · exact hpart
    · rw [(hg.ranged hrange).1] at herror
      nomatch herror

theorem requested_notices (h : Inv package s) {g : Get} (hg : Resumes s g) (received : Bytes) :
    ∀ n ∈ (s.requested g received).notices, Safe package n := by
  show ∀ n ∈ (if g.hrange then s.notices ++ [.ranged s.content] else s.notices), Safe package n
  cases hrange : g.hrange with
  | false => exact h.notices
  | true =>
    have hpart := h.opened_part hg
    rw [hg.opened, hrange] at hpart
    exact (h.notice (n := .ranged s.content) hpart).notices

theorem concluded (h : Inv package s) (hsignature : signature.map Char.toLower = md5 package)
    (g : Get) {outcome : Outcome}
    (hdone : ∀ code headers, outcome = .done code headers → g.verdict code headers = .accept →
      s.content = package) :
    Inv package (s.concluded md5 signature g s.content outcome) := by
  cases outcome with
  | interrupted => exact h.phase _
  | failed => exact h.retry
  | done code headers =>
    show Inv package (match g.verdict code headers with
      | .accept => _
      | .retry => _
      | .resumeError => _)
    cases hverdict : g.verdict code headers with
    | accept => exact h.compare hsignature (hdone code headers rfl hverdict)
    | retry => exact h.retry
    | resumeError =>
      refine Inv.retry ⟨?_, h.notices⟩
      rcases h.file with hpart | ⟨-, hlong⟩
      · exact .inl hpart
      · exact .inr ⟨rfl, hlong⟩

theorem download (h : Inv package s) (hsignature : signature.map Char.toLower = md5 package)
    {g : Get} (hg : Resumes s g) {t : Transfer} (ht : Serves package (s.opened g.mode) g t) :
    Inv package (s.download md5 signature g t) := by
  have hall : s.opened g.mode ++ package.drop (s.opened g.mode).length = package :=
    prefix_iff_eq_append.mp (h.opened_part hg)
  have hcontent : (s.requested g t.received).content = s.opened g.mode ++ t.received := rfl
  have hnotices := h.requested_notices hg t.received
  unfold State.download
  rw [digested_eq hg]
  rcases ht with ⟨hreceived, hdone⟩ | ⟨hrange, hreceived, hdone⟩
  · have hinv : Inv package (s.requested g t.received) := by
      refine ⟨.inl ?_, hnotices⟩
      rw [hcontent, ← hall]
      exact (prefix_append_right_inj _).mpr hreceived
    refine hinv.concluded hsignature g fun code headers houtcome hverdict => ?_
    rw [houtcome] at hdone
    rw [hcontent, hdone hverdict, hall]
  · -- all of the package comes behind what there was already
    cases houtcome : t.outcome with
    | interrupted =>
      rw [houtcome] at hdone
      exact hdone.elim
    | failed =>
      rw [houtcome] at hdone
      exact hdone.elim
    | done code headers =>
      rw [houtcome] at hdone
      have hverdict : g.verdict code headers = .resumeError := by
        rw [hdone, Get.verdict, if_neg fun h206 => absurd h206.1 (by decide), if_pos ⟨rfl, hrange⟩]
      show Inv package (match g.verdict code headers with
        | .accept => _
        | .retry => _
        | .resumeError => _)
      rw [hverdict]
      refine Inv.retry ⟨.inr ⟨rfl, ?_⟩, hnotices⟩
      show package.length < (s.requested g t.received).content.length
      have hpos := length_pos_iff.mpr (hg.ranged hrange).2
      rw [hcontent, hg.opened, hrange, hreceived, length_append]
      exact Nat.lt_add_of_pos_left hpos

theorem complete (h : Inv package s) {headers : Headers} (hhonest : Honest package headers)
    (hplan : plan s.file headers = none) : s.content = package := by
  have hlength := plan_complete hplan
  have heq : s.content.length = package.length := by
    rcases hhonest with hnone | hsome
    · rw [hnone] at hlength
      nomatch hlength
    · rw [hsome] at hlength
      exact (Option.some.inj hlength).symm
  rcases h.file with hpart | ⟨-, hlong⟩
  · exact hpart.eq_of_length heq
  · exact absurd heq (Nat.ne_of_gt hlong)

theorem start (h : Inv package s) {infos : Infos}
    (hsignature : ∀ signature, infos.signature = some signature →
      signature.map Char.toLower = md5 package)
    {a : Attempt} (ha : Fair package s (.attempt a)) : Inv package (s.start md5 infos a) := by
  rcases start_cases md5 s infos a with ⟨code, hcode, hstart⟩ | hstart |
    ⟨signature, headers, hinfos, hheaders, hgoes⟩
  · rw [hstart]
    exact h.fail hcode
  · rw [hstart]
    exact h.retry
  · have hmd5 := hsignature signature hinfos
    change match getheaderspackage a.head a.second with
      | none => True
      | some headers => _ at ha
    rw [hheaders] at ha
    obtain ⟨hhonest, hserves⟩ := ha
    rcases hgoes with ⟨hplan, hstart⟩ | ⟨g, hplan, hstart⟩
    · rw [hstart]
      exact h.compare hmd5 (h.complete hhonest hplan)
    · rw [hstart]
      rw [hplan] at hserves
      exact h.download hmd5 (cancelled_resumes hplan) hserves

theorem step (h : Inv package s) {infos : Infos}
    (hsignature : ∀ signature, infos.signature = some signature →
      signature.map Char.toLower = md5 package)
    {e : Event} (he : Fair package s e) : Inv package (step md5 infos s e) := by
  cases e with
  | attempt a =>
    show Inv package (if s.phase = .running then s.start md5 infos a else s)
    split
    · exact h.start hsignature he
    · exact h
  | pause =>
    show Inv package (if s.phase = .running then { s with phase := .paused } else s)
    split
    · exact h.phase _
    · exact h
  | resume =>
    show Inv package (if s.phase = .running ∨ s.phase = .paused then _ else s)
    split
    · refine ⟨.inl ?_, h.notices⟩
      rcases h.file with hpart | ⟨-, hlong⟩
      · exact hpart
      · exact absurd hlong (Nat.not_lt.mpr he)
    · exact h

end Inv

/-- The digest that is compared is that of the file, and an update goes on with a file whose digest
is the signature only. -/
def Checked (md5 : Bytes → Str) (infos : Infos) : Notice → Prop
  | .compared digested file => digested = file
  | .success file => ∃ signature, infos.signature = some signature ∧
      md5 file = signature.map Char.toLower
  | _ => True

def AllChecked (md5 : Bytes → Str) (infos : Infos) (s : State) : Prop :=
  ∀ n ∈ s.notices, Checked md5 infos n

namespace AllChecked

variable {md5 : Bytes → Str} {infos : Infos} {s : State}

theorem notice (h : AllChecked md5 infos s) {n : Notice} (hn : Checked md5 infos n) :
    AllChecked md5 infos (s.notice n) := by
  intro n' hn'
  rcases mem_append.mp hn' with hmem | hmem
  · exact h n' hmem
  · rw [mem_singleton.mp hmem]
    exact hn

theorem fail (h : AllChecked md5 infos s) (code : Nat) : AllChecked md5 infos (s.fail code) :=
  notice (s := { s with phase := .failed code }) h (n := .failure code) trivial

theorem retry (h : AllChecked md5 infos s) : AllChecked md5 infos s.retry := by
  unfold State.retry
  split
  · exact h.fail 552
  · exact h

theorem compare (h : AllChecked md5 infos s) {signature : Str}
    (hsignature : infos.signature = some signature) :
    AllChecked md5 infos (s.compare md5 signature s.content) := by
  have hcompared : AllChecked md5 infos (s.notice (.compared s.content s.content)) := h.notice rfl
  show AllChecked md5 infos (if md5 s.content ≠ signature.map Char.toLower then _ else _)
  split
  · exact hcompared.fail 553
  · rename_i heq
    exact notice (s := { s.notice (.compared s.content s.content) with phase := .succeeded })
      hcompared ⟨signature, hsignature, Classical.not_not.mp heq⟩

theorem download (h : AllChecked md5 infos s) {signature : Str}
    (hsignature : infos.signature = some signature) {g : Get} (hg : Resumes s g) (t : Transfer) :
    AllChecked md5 infos (s.download md5 signature g t) := by
  have hrequested : AllChecked md5 infos (s.requested g t.received) := by
    show ∀ n ∈ (if g.hrange then s.notices ++ [.ranged s.content] else s.notices), _
    cases g.hrange with
    | false => exact h
    | true => exact h.notice (n := .ranged s.content) trivial
  unfold State.download
  rw [digested_eq hg]
  cases t.outcome with
  | interrupted => exact hrequested
  | failed => exact hrequested.retry
  | done code headers =>
    show AllChecked md5 infos (match g.verdict code headers with
      | .accept => _
      | .retry => _
      | .resumeError => _)
    cases g.verdict code headers with
    | accept => exact hrequested.compare hsignature
    | retry => exact hrequested.retry
    | resumeError =>
      exact retry (s := { s.requested g t.received with resumeError := true }) hrequested

theorem start (h : AllChecked md5 infos s) (a : Attempt) :
    AllChecked md5 infos (s.start md5 infos a) := by
  rcases start_cases md5 s infos a with ⟨code, -, hstart⟩ | hstart |
    ⟨signature, headers, hinfos, -, ⟨-, hstart⟩ | ⟨g, hplan, hstart⟩⟩
  · rw [hstart]
    exact h.fail code
  · rw [hstart]
    exact h.retry
  · rw [hstart]
    exact h.compare hinfos
  · rw [hstart]
    exact h.download hinfos (cancelled_resumes hplan) a.get

theorem step (h : AllChecked md5 infos s) (e : Event) :
    AllChecked md5 infos (step md5 infos s e) := by
  cases e with
  | attempt a =>
    show AllChecked md5 infos (if s.phase = .running then s.start md5 infos a else s)
    split
    · exact h.start a
    · exact h
  | pause =>
    show AllChecked md5 infos (if s.phase = .running then { s with phase := .paused } else s)
    split
    · exact h
    · exact h
  | resume =>
    show AllChecked md5 infos (if s.phase = .running ∨ s.phase = .paused then _ else s)
    split
    · exact h
    · exact h

end AllChecked

end Mihini.Update.Downloader
