import Mathlib.Data.List.Nodup
import Mathlib.Data.List.Perm.Basic
import Mathlib.Data.List.Flatten

/-!
# The secured M3DA session

`src/luafwk/m3da/session/security.lua`.  Tasks of the scheduler run one after the
other and are only suspended in the transport, in `receive` and in the message
handler; what a task does between two suspensions is one step.
-/

namespace Mihini.M3da.Security

abbrev Bytes := List UInt8

structure EnvelopeHeader where
  challenge : Bool
  nonce : Option Bytes
  deriving DecidableEq, Repr

/-- An outer envelope, deserialized; the parts a peer may leave out are options. -/
structure Envelope where
  header : Option EnvelopeHeader
  payload : Option Bytes
  footer : Option (Option Bytes)
  deriving DecidableEq, Repr

structure InnerEnvelope where
  header : Option (Option Bytes)
  payload : Option Bytes
  deriving DecidableEq, Repr

structure Config where
  /-- the digest of a `getauthentication(IDX_AUTH_KS, …)` object; `none` when the
  scheme is not supported -/
  digest : Bytes → Option Bytes
  encryption : Bool
  decrypt : Bytes → Bytes → Option Bytes
  /-- `m3da_deserialize`, of an inner envelope -/
  deserialize : Bytes → Option InnerEnvelope

/-- What reaches a task that waits in `receive`. -/
inductive Signal
  | envelopeReceived (envelope : Envelope)
  | timeout
  | receptionError
  deriving DecidableEq, Repr

inductive Task
  | send
  | parse (incoming : Envelope)
  | sending (nextNonce : Bytes) (resend : Bool)
  | receiving (nextNonce : Bytes) (resend : Bool) (ev : Option Signal)
  | challenging (nonce : Bytes)
  | rechecking (nonce : Bytes) (ev : Option Signal)
  | handling (innerEnv : InnerEnvelope)
  deriving DecidableEq, Repr

inductive Sent
  | message (currentNonce nextNonce : Bytes)
  | challenge (nonce : Bytes)
  deriving DecidableEq, Repr

def Sent.advertised : Sent → Bytes
  | .message _ nextNonce => nextNonce
  | .challenge nonce => nonce

/-- A successful `verifymsg`, with the nonce that is stored at that time. -/
structure Acceptance where
  envelope : Envelope
  nonce : Bytes
  stored : Option Bytes
  deriving DecidableEq, Repr

structure Handled where
  body : Bytes
  envelope : Envelope
  nonce : Bytes
  deriving DecidableEq, Repr

structure Session where
  nonce : Option Bytes
  waitingresponse : Bool
  tasks : List Task
  sent : List Sent
  accepted : List Acceptance
  handled : List Handled
  deriving Repr

inductive HandlerOutcome
  | returns
  | fails
  | suspends
  deriving DecidableEq, Repr

structure Input where
  /-- whether `start` or the transport succeeded -/
  ok : Bool
  /-- the random nonce when none is stored -/
  current : Bytes
  next : Bytes
  handler : HandlerOutcome
  deriving Repr

/-! ## The code of a task -/

section
variable (c : Config)

/-- `none` when an error is raised. -/
def verifymsg (incoming : Envelope) (nonce : Bytes) : Option Bool := do
  let payload ← incoming.payload
  let footer ← incoming.footer
  let actualMac ← c.digest (payload ++ nonce)
  some (footer = some actualMac)

def openPayload (nonce payload : Bytes) : Option InnerEnvelope := do
  let payload ← if c.encryption then c.decrypt nonce payload else some payload
  c.deserialize payload

/-- The payload that goes to the message handler; a single zero is a serialized
`nil`. -/
def InnerEnvelope.body (inner : InnerEnvelope) : Option Bytes := do
  let payload ← inner.payload
  if payload = [] ∨ payload = [0] then none else some payload

/-- The end of `unprotectedparse`: the nonce of the inner envelope is saved. -/
def conclude (inner : InnerEnvelope) (s : Session) : Session :=
  match inner.header with
  | none => s
  | some nonce => { s with nonce := nonce }

/-- `unprotectedparse` once a signature was accepted. -/
def dispatch (s : Session) (nonce : Bytes) (outerEnv : Envelope) (handler : HandlerOutcome) :
    Session :=
  let s := { s with accepted := ⟨outerEnv, nonce, s.nonce⟩ :: s.accepted }
  match outerEnv.payload.bind (openPayload c nonce) with
  | none => s
  | some inner =>
    match inner.body with
    | none => conclude inner s
    | some body =>
      let s := { s with handled := ⟨body, outerEnv, nonce⟩ :: s.handled }
      match handler with
      | .returns => conclude inner s
      | .fails => s
      | .suspends => { s with tasks := .handling inner :: s.tasks }

def unprotectedparse (s : Session) (nonce : Bytes) (outerEnv : Envelope) (i : Input) : Session :=
  match verifymsg c outerEnv nonce with
  | none => s
  | some true => dispatch c s nonce outerEnv i.handler
  | some false =>
    { s with
      sent := .challenge i.next :: s.sent
      tasks := .challenging i.next :: s.tasks }

/-- A task runs up to its next suspension or its end; `s` is the session without
it. -/
def run (s : Session) (i : Input) : Task → Session
  | .send =>
    if i.ok then
      { s with
        sent := .message (s.nonce.getD i.current) i.next :: s.sent
        tasks := .sending i.next false :: s.tasks }
    else s
  | .parse incoming =>
    if i.ok then unprotectedparse c s (s.nonce.getD i.current) incoming i else s
  | .sending next resend =>
    if i.ok then
      { s with waitingresponse := true, tasks := .receiving next resend none :: s.tasks }
    else s
  | .receiving next resend (some (.envelopeReceived incoming)) =>
    let s := { s with waitingresponse := false }
    match incoming.header with
    | none => s
    | some header =>
      if header.challenge then
        if resend then s
        else
          match header.nonce with
          | none => s
          | some current =>
            { s with
              sent := .message current next :: s.sent
              tasks := .sending next true :: s.tasks }
      else unprotectedparse c s next incoming i
  | .receiving _ _ (some _) => { s with waitingresponse := false }
  | .receiving next resend none => { s with tasks := .receiving next resend none :: s.tasks }
  | .challenging nonce =>
    if i.ok then { s with waitingresponse := true, tasks := .rechecking nonce none :: s.tasks }
    else s
  | .rechecking nonce (some (.envelopeReceived outerEnv)) =>
    let s := { s with waitingresponse := false }
    match verifymsg c outerEnv nonce with
    | some true => dispatch c s nonce outerEnv i.handler
    | _ => s
  | .rechecking _ (some _) => { s with waitingresponse := false }
  | .rechecking nonce none => { s with tasks := .rechecking nonce none :: s.tasks }
  | .handling inner =>
    match i.handler with
    | .returns => conclude inner s
    | .fails => s
    | .suspends => { s with tasks := .handling inner :: s.tasks }

end

def Task.wake (signal : Signal) : Task → Task
  | .receiving next resend none => .receiving next resend (some signal)
  | .rechecking nonce none => .rechecking nonce (some signal)
  | task => task

def Session.sink (s : Session) (envelope : Envelope) : Session :=
  if s.waitingresponse then
    { s with tasks := s.tasks.map (Task.wake (.envelopeReceived envelope)) }
  else { s with tasks := .parse envelope :: s.tasks }

/-! ## The session in a network -/

/-- The session, the nonces drawn so far, and what the server has signed: the nonce
and the payload of its messages. -/
structure World where
  session : Session
  drawn : List Bytes
  signed : List (Bytes × Bytes)

inductive Event
  | sign (nonce payload : Bytes)
  /-- the application calls `send` -/
  | send
  | deliver (envelope : Envelope)
  | receptionError
  | timeout (task : Nat)
  | resume (task : Nat) (i : Input)
  | restart

def innerNonce (c : Config) (nonce payload : Bytes) : Option Bytes :=
  (openPayload c nonce payload).bind fun inner => inner.header.bind id

def step (c : Config) (w : World) : Event → World
  | .sign nonce payload =>
    { w with
      drawn := nonce :: ((innerNonce c nonce payload).toList ++ w.drawn)
      signed := (nonce, payload) :: w.signed }
  | .send => { w with session.tasks := .send :: w.session.tasks }
  | .deliver envelope => { w with session := w.session.sink envelope }
  | .receptionError =>
    { w with session.tasks := w.session.tasks.map (Task.wake .receptionError) }
  | .timeout i => { w with session.tasks := w.session.tasks.modify i (Task.wake .timeout) }
  | .resume i input =>
    match w.session.tasks[i]? with
    | none => w
    | some task =>
      { w with
        session := run c { w.session with tasks := w.session.tasks.eraseIdx i } input task
        drawn := input.current :: input.next :: w.drawn }
  | .restart => { w with session := { w.session with tasks := [], waitingresponse := false } }

end Mihini.M3da.Security
