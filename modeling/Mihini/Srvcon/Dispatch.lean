import Mihini.Asscon.Registry
import Mihini.Racon.SendData

/-!
# The dispatch of server messages

`dispatch_message` of `src/agent/agent/srvcon.lua`, `sendcmd` of `asscon/init.lua`, and the asset
libraries at the other end of the connections.  Between two messages, and while the agent waits for
a reply, the applications and the other tasks do what they want with the assets.
-/

namespace Mihini.Srvcon

open Mihini.Lib List
open Mihini.Asscon (Registry)
open Mihini.Path (Str)
open Mihini.Racon.AssetTree
open Mihini.Racon.SendData

structure Device where
  registry : Registry
  libraries : Nat → LuaTable Str (Option Value)

inductive Item where
  | message (m : Message)
  | empty
  /-- `null`, a boolean or a number: none of them can be indexed. -/
  | scalar
  | unsupported

structure Report where
  message : Message
  acks : List Ack
  sent : Option Sent

/-- An item, with what happens while it is dispatched: whether the command comes through the
connection, and what the handlers of the application answer.  Or what the other tasks leave. -/
inductive Event where
  | item (x : Item) (delivered : Bool) (answers : Nat → Answer)
  | others (d : Device)

/-- The device, what came of the messages, and whether an error was raised, after which nothing more
of the payload is handled. -/
structure State where
  device : Device
  reports : List Report
  raised : Bool

section

variable (tonumber : Str → Option Number) (tostring : Number → Str)

/-- `racon.acknowledge(ticketid, false, …)`, when there is a ticket that is not zero.  The check of
the argument `ackid` raises an error for `null` and for a string. -/
def nak : Field → Option (List Ack)
  | .number x => some (if x = 0 then [] else [⟨x, -1⟩])
  | .null | .string _ => none

/-- `asscon.sendcmd(name, "SendData", msg)`: `none` when there is no asset of this name.  Otherwise
the agent gets the status of a reply, or of the failure of the connection, and any number is
true. -/
def sendcmd (d : Device) (delivered : Bool) (answers : Nat → Answer) (path : Str) (ticketid : Field)
    (record : Fields) : Option (Option Sent × Device) :=
  match d.registry.ids.lookup (split tonumber tostring path).1 with
  | none => none
  | some id =>
    if delivered then
      let sent := empHandlerSendData tonumber tostring answers (d.libraries id) path ticketid record
      some (some sent, { d with libraries := Function.update d.libraries id sent.assets })
    else some (none, d)

/-- One turn of the loop for a message: what comes of it and the device afterwards, or `none` when
an error is raised. -/
def dispatchMessage (d : Device) (m : Message) (delivered : Bool) (answers : Nat → Answer) :
    Option (Report × Device) :=
  match m.body with
  | none => none
  | some record =>
    if record.isEmpty then (nak m.ticketid).map fun acks => (⟨m, acks, none⟩, d)
    else
      match m.path with
      | .string path =>
        match sendcmd tonumber tostring d delivered answers path m.ticketid record with
        | none => (nak m.ticketid).map fun acks => (⟨m, acks, none⟩, d)
        | some (none, d) => some (⟨m, [], none⟩, d)
        | some (some sent, d) => some (⟨m, sent.acks, some sent⟩, d)
      | _ => none

def step (s : State) : Event → State
  | .others d => { s with device := d }
  | .item x delivered answers =>
    if s.raised then s
    else
      match x with
      | .empty | .unsupported => s
      | .scalar => { s with raised := true }
      | .message m =>
        match dispatchMessage tonumber tostring s.device m delivered answers with
        | none => { s with raised := true }
        | some (report, d) => { s with device := d, reports := s.reports ++ [report] }

/-! ## Acknowledgements -/

def Ticketed : Field → Prop
  | .null => False
  | .number x => x ≠ 0
  | .string s => tonumber s ≠ some 0

def Report.effects (r : Report) : List Effect :=
  match r.sent with
  | some sent => sent.effects
  | none => []

def messageLeaves (m : Message) : List (List Key × Atom) :=
  match m.path, m.body with
  | .string path, some record =>
    recordLeaves tonumber tostring (split tonumber tostring path).2 record
  | _, _ => []

/-- The message came to its asset, and all its data were handled without error. -/
def Report.Handled (r : Report) : Prop :=
  ∃ sent, r.sent = some sent ∧ sent.Complete (messageLeaves tonumber tostring r.message)

/-- A message with a ticket that is left to no handler is acknowledged once, with the status zero if
and only if all its data were handled without error. -/
def Report.Answered (r : Report) : Prop :=
  Ticketed tonumber r.message.ticketid → (∀ e ∈ r.effects, ¬ e.Async) →
    ∃ ticket, r.message.ticketid.number? tonumber = some ticket ∧
      Acknowledged ticket r.acks (r.Handled tonumber tostring)

def Refusable (m : Message) : Prop := ∃ x, m.ticketid = .number x

/-- The command for a message comes to an asset that is open and has a tree, its body is no response
and is spread over the tree, its ticket is a numeral, and its handlers answer as they should. -/
def Deliverable (d : Device) (m : Message) (delivered : Bool) (answers : Nat → Answer) (path : Str)
    (record : Fields) (id : Nat) : Prop :=
  delivered = true ∧
    (∃ tree, (d.libraries id).lookup (split tonumber tostring path).1 = some (some tree) ∧
      tree ≠ .leaf (.bool false) ∧ Fit answers tree) ∧
    isResponse record = false ∧
    Spread tonumber tostring (split tonumber tostring path).2 record ∧
    m.ticketid.number? tonumber ≠ none

/-- The message can be dispatched.  When the agent has to refuse it, it can; when it has a ticket
and its asset is registered, the command comes to the asset and can be answered there. -/
def Meets (d : Device) (m : Message) (delivered : Bool) (answers : Nat → Answer) : Prop :=
  match m.body with
  | none => False
  | some record =>
    if record.isEmpty then Refusable m
    else
      match m.path with
      | .string path =>
        match d.registry.ids.lookup (split tonumber tostring path).1 with
        | none => Refusable m
        | some id =>
          Ticketed tonumber m.ticketid →
            Deliverable tonumber tostring d m delivered answers path record id
      | _ => False

def Fine (s : State) : Event → Prop
  | .item (.message m) delivered answers => Meets tonumber tostring s.device m delivered answers
  | .item .scalar _ _ => False
  | .item _ _ _ | .others _ => True

def Event.messages : Event → List Message
  | .item (.message m) _ _ => [m]
  | _ => []

variable {tonumber tostring} {d : Device} {m : Message} {delivered : Bool} {answers : Nat → Answer}

theorem refused_answered (tonumber : Str → Option Number) (tostring : Number → Str)
    (h : Refusable m) :
    ∃ acks, nak m.ticketid = some acks ∧
      Report.Answered tonumber tostring ⟨m, acks, none⟩ := by
  obtain ⟨x, hx⟩ := h
  refine ⟨if x = 0 then [] else [⟨x, -1⟩], by rw [hx]; rfl, ?_⟩
  intro hticket _
  show ∃ ticket, m.ticketid.number? tonumber = some ticket ∧ _
  have hne : x ≠ 0 := by
    rw [hx] at hticket
    exact hticket
  refine ⟨x, by rw [hx]; rfl, -1, if_neg hne, fun hzero => absurd hzero (by decide), ?_⟩
  rintro ⟨sent, hsent, -⟩
  nomatch hsent

theorem unticketed_answered {r : Report} (h : ¬ Ticketed tonumber r.message.ticketid) :
    r.Answered tonumber tostring :=
  fun hticket => absurd hticket h

variable {record : Fields} {path : Str}

theorem delivered_answered {id : Nat} (hpath : m.path = .string path)
    (hbody : m.body = some record)
    (h : Deliverable tonumber tostring d m delivered answers path record id) :
    Report.Answered tonumber tostring
      (let sent := empHandlerSendData tonumber tostring answers (d.libraries id) path m.ticketid
        record
       ⟨m, sent.acks, some sent⟩) := by
  obtain ⟨-, ⟨tree, hopen, htree, hfit⟩, hrecord, hspread, hnumber⟩ := h
  intro hticket hasync
  obtain ⟨ticket, hnumber⟩ := Option.ne_none_iff_exists'.mp hnumber
  have hne : ticket ≠ 0 := by
    intro hzero
    subst hzero
    cases hfield : m.ticketid with
    | null =>
      rw [hfield] at hnumber
      nomatch hnumber
    | number x =>
      rw [hfield] at hnumber
      change Ticketed tonumber m.ticketid at hticket
      rw [hfield] at hticket
      exact hticket (Option.some.inj hnumber)
    | string s =>
      rw [hfield] at hnumber
      change Ticketed tonumber m.ticketid at hticket
      rw [hfield] at hticket
      exact hticket hnumber
  obtain ⟨status, hacks, hgood⟩ :=
    empHandlerSendData_acknowledged hopen htree hfit hrecord hspread hnumber hne rfl hasync
  refine ⟨ticket, hnumber, status, hacks, hgood.trans ?_⟩
  have hleaves : messageLeaves tonumber tostring m =
      recordLeaves tonumber tostring (split tonumber tostring path).2 record := by
    rw [messageLeaves, hpath, hbody]
  constructor
  · intro hcomplete
    exact ⟨_, rfl, hleaves ▸ hcomplete⟩
  · rintro ⟨sent, hsent, hcomplete⟩
    obtain rfl := Option.some.inj hsent
    exact hleaves ▸ hcomplete

/-- A message for a registered asset gets its answer from there, and none from the agent. -/
theorem registered_answered {id : Nat}
    (hpath : m.path = .string path) (hbody : m.body = some record)
    (hid : d.registry.ids.lookup (split tonumber tostring path).1 = some id)
    (h : Ticketed tonumber m.ticketid →
      Deliverable tonumber tostring d m delivered answers path record id) :
    ∃ sent d', sendcmd tonumber tostring d delivered answers path m.ticketid record =
        some (sent, d') ∧
      Report.Answered tonumber tostring ⟨m, (sent.map Sent.acks).getD [], sent⟩ := by
  rw [sendcmd, hid]
  cases hdelivered : delivered with
  | true =>
    refine ⟨_, _, rfl, ?_⟩
    by_cases hticket : Ticketed tonumber m.ticketid
    · exact delivered_answered hpath hbody (h hticket)
    · exact unticketed_answered hticket
  | false =>
    refine ⟨none, d, rfl, unticketed_answered fun hticket => ?_⟩
    rw [hdelivered] at h
    exact Bool.false_ne_true (h hticket).1

theorem dispatchMessage_answered (h : Meets tonumber tostring d m delivered answers) :
    ∃ report d', dispatchMessage tonumber tostring d m delivered answers = some (report, d') ∧
      report.message = m ∧ report.Answered tonumber tostring := by
  have hrefused : ∀ _ : Refusable m, ∃ report d',
      ((nak m.ticketid).map fun acks => (⟨m, acks, none⟩, d) : Option (Report × Device)) =
        some (report, d') ∧ report.message = m ∧ report.Answered tonumber tostring := by
    intro hrefusable
    obtain ⟨acks, hacks, hanswered⟩ := refused_answered tonumber tostring hrefusable
    rw [hacks]
    exact ⟨⟨m, acks, none⟩, d, rfl, rfl, hanswered⟩
  unfold Meets at h
  unfold dispatchMessage
  cases hbody : m.body with
  | none =>
    rw [hbody] at h
    exact h.elim
  | some record =>
    rw [hbody] at h
    cases hempty : record.isEmpty with
    | true =>
      simp only [hempty, if_true] at h ⊢
      exact hrefused h
    | false =>
      simp only [hempty, Bool.false_eq_true, if_false] at h ⊢
      cases hpath : m.path with
      | null =>
        rw [hpath] at h
        exact h.elim
      | number =>
        rw [hpath] at h
        exact h.elim
      | string path =>
        simp only [hpath] at h ⊢
        cases hid : d.registry.ids.lookup (split tonumber tostring path).1 with
        | none =>
          rw [hid] at h
          rw [sendcmd, hid]
          exact hrefused h
        | some id =>
          rw [hid] at h
          obtain ⟨sent, d', hsendcmd, hanswered⟩ := registered_answered hpath hbody hid h
          rw [hsendcmd]
          cases sent with
          | none => exact ⟨_, _, rfl, rfl, hanswered⟩
          | some sent => exact ⟨_, _, rfl, rfl, hanswered⟩

/-- What an event adds to the reports. -/
theorem step_answers {s : State} {e : Event} (h : Fine tonumber tostring s e)
    (hs : s.raised = false) :
    (step tonumber tostring s e).raised = false ∧
      ∃ new, (step tonumber tostring s e).reports = s.reports ++ new ∧
        new.map Report.message = e.messages ∧
        ∀ r ∈ new, r.Answered tonumber tostring := by
  have hnone : ∃ new, s.reports = s.reports ++ new ∧ new.map Report.message = [] ∧
      ∀ r ∈ new, r.Answered tonumber tostring :=
    ⟨[], (append_nil _).symm, rfl, fun r hr => absurd hr not_mem_nil⟩
  cases e with
  | others d => exact ⟨hs, hnone⟩
  | item x delivered answers =>
    unfold step
    rw [hs]
    cases x with
    | empty => exact ⟨hs, hnone⟩
    | unsupported => exact ⟨hs, hnone⟩
    | scalar => exact h.elim
    | message m =>
      obtain ⟨report, d', hdispatch, hmessage, hanswered⟩ := dispatchMessage_answered h
      simp only [hdispatch, Bool.false_eq_true, if_false]
      refine ⟨trivial, [report], rfl, congrArg (fun m => [m]) hmessage, ?_⟩
      intro r hr
      rw [mem_singleton.mp hr]
      exact hanswered

/-- While the messages of a payload are dispatched, whatever the other tasks do, no error is raised,
the messages are handled in their order, and each of them is answered, as long as they all meet the
condition. -/
theorem dispatch_message_answers {s : State} {events : List Event}
    (h : Along (step tonumber tostring) (Fine tonumber tostring) s events)
    (hs : s.raised = false) :
    (events.foldl (step tonumber tostring) s).raised = false ∧
      ∃ new, (events.foldl (step tonumber tostring) s).reports = s.reports ++ new ∧
        new.map Report.message = events.flatMap Event.messages ∧
        ∀ r ∈ new, r.Answered tonumber tostring := by
  induction events generalizing s with
  | nil =>
    exact ⟨hs, [], (append_nil _).symm, rfl, fun r hr => absurd hr not_mem_nil⟩
  | cons e events ih =>
    obtain ⟨hraised, new, hreports, hmessages, hanswered⟩ := step_answers h.1 hs
    obtain ⟨hraised', new', hreports', hmessages', hanswered'⟩ := ih h.2 hraised
    refine ⟨hraised', new ++ new', ?_, ?_, ?_⟩
    · show (events.foldl _ (step tonumber tostring s e)).reports = _
      rw [hreports', hreports, append_assoc]
    · rw [map_append, hmessages, hmessages', flatMap_cons]
    · intro r hr
      rcases mem_append.mp hr with hmem | hmem
      · exact hanswered r hmem
      · exact hanswered' r hmem

end

/-! ## A device with one asset -/

/-- The asset `a` is registered by the connection `0`, whose library has these assets. -/
def oneAsset (assets : LuaTable Str (Option Value)) : Device where
  registry := ⟨AList.singleton ['a'] 0, AList.singleton 0 [['a']], 1⟩
  libraries := fun _ => assets

def messageTo (path : Str) (ticket : Number) : Message where
  path := .string path
  ticketid := .number ticket
  body := some (.cons (.string ['x']) (.leaf (.bool true)) .nil)

def twoMessages : List Event :=
  [.item (.message (messageTo ['a'] 7)) true fun _ => .returns .ok .nil,
    .item (.message (messageTo ['b'] 8)) true fun _ => .returns .ok .nil]

theorem dispatch_message_answers_two :
    let start : State := ⟨oneAsset (AList.singleton ['a'] (some (.table .nil))), [], false⟩
    let after := twoMessages.foldl (step (fun _ => none) fun _ => []) start
    after.raised = false ∧ ∃ new, after.reports = [] ++ new ∧
      new.map Report.message = [messageTo ['a'] 7, messageTo ['b'] 8] ∧
      ∀ r ∈ new, r.Answered (fun _ => none) fun _ => [] := by
  refine dispatch_message_answers ⟨?_, ?_, trivial⟩ rfl
  · intro _
    exact ⟨rfl, ⟨.table .nil, rfl, nofun, fun _ => ⟨nofun, nofun⟩⟩, rfl, by decide, nofun⟩
  · exact ⟨8, rfl⟩

/-- A message with a ticket for a registered asset, whose connection breaks while the agent waits
for the reply, is not answered. -/
theorem broken_connection_unanswered :
    let start : State := ⟨oneAsset (AList.singleton ['a'] (some (.table .nil))), [], false⟩
    let event : Event := .item (.message (messageTo ['a'] 7)) false fun _ => .returns .ok .nil
    ∃ report, (step (fun _ => none) (fun _ => []) start event).reports = [report] ∧
      ¬ report.Answered (fun _ => none) fun _ => [] := by
  refine ⟨_, rfl, fun h => ?_⟩
  have hticket : (7 : Number) ≠ 0 := by decide
  obtain ⟨ticket, -, status, hacks, -⟩ := h hticket fun e he => nomatch he
  nomatch hacks

end Mihini.Srvcon
