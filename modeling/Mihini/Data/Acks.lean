import Mihini.Lib.LuaTable
import Mihini.Lib.Run

/-!
# Acknowledgements on their way to the server

`PAcknowledge` and the acknowledgements of `send_policy` in `asscon/datamanager.lua`, and the
sessions of `srvcon.lua`. An acknowledgement is stored under a policy and waits there until
the policy is flushed; a flush hands over to the next session a factory of its response, and a
callback that removes it from its store. Commands, flushes and sessions come in any order, and
flushes and commands also while a session goes on.

Every acknowledgement is sent once in a session and stays until one that carried it was
accepted, as long as a policy is not flushed again while an acknowledgement is on its way,
a ticket is acknowledged once at a time, and the server accepts what it answers.
-/

namespace Mihini.Data.Acks

open Lib

abbrev Str := List Char

/-- The field `status` of a command. -/
inductive Status
  | nil
  | bool (b : Bool)
  | number (n : Int)
  | string (s : Str)
  deriving DecidableEq, Repr

structure Command where
  policy : Option Str
  ticket : Int
  status : Status
  message : Option Str
  persisted : Bool
  deriving DecidableEq, Repr

/-- A table made by `PAcknowledge`, with a number for its identity. -/
structure Item where
  id : Nat
  ticket : Int
  status : Status
  message : Option Str
  deriving DecidableEq, Repr

/-- A place in `ack_ram` or, when it is persisted, in `ack_rom` of a policy. -/
structure Slot where
  policy : Str
  persisted : Bool
  ticket : Int
  deriving DecidableEq, Repr

structure Response where
  ticketid : Int
  status : Int
  data : Str
  deriving DecidableEq, Repr

/-- What `send_ack` gives to `pushtoserver`: a factory of the response, and the callback that
clears the slot. -/
structure Pushed where
  item : Nat
  response : Response
  slot : Slot
  deriving DecidableEq, Repr

/-- The stores of all policies, `sourcefactories` with `pendingcallbacks`, and what the session in
progress took of them. -/
structure State where
  store : LuaTable Slot Item
  sourcefactories : List Pushed
  session : Option (List Pushed)
  created : Nat

section

local instance : LawfulBEq Str := inferInstance

variable (policies : List Str) (tonumber : Str → Option Int)

/-- `tonumber(x.status) or (x.status and 0 or -1)` -/
def statusOf : Status → Int
  | .nil => -1
  | .bool b => if b then 0 else -1
  | .number n => n
  | .string s => (tonumber s).getD 0

def respond (x : Item) : Response :=
  let status := statusOf tonumber x.status
  ⟨x.ticket, status, x.message.getD (if status = 0 then "ok".toList else "unknown".toList)⟩

def sendAck (slot : Slot) (x : Item) : Pushed := ⟨x.id, respond tonumber x, slot⟩

def slotOf (x : Command) : Slot := ⟨x.policy.getD "now".toList, x.persisted, x.ticket⟩

def itemOf (s : State) (x : Command) : Item := ⟨s.created, x.ticket, x.status, x.message⟩

/-- A ticket that is acknowledged again is only logged. -/
def pAcknowledge (s : State) (x : Command) : State :=
  if (slotOf x).policy ∈ policies then
    { s with store := s.store.insert (slotOf x) (itemOf s x), created := s.created + 1 }
  else s

def acksOf (s : State) (policy : Str) : List (Slot × Item) :=
  (s.store.entries.map fun e => (e.1, e.2)).filter fun e => e.1.policy = policy

def sendPolicy (s : State) (policy : Str) : State :=
  { s with
    sourcefactories :=
      s.sourcefactories ++ (acksOf s policy).map fun e => sendAck tonumber e.1 e.2 }

/-- `dosession` up to the sending; another session waits until this one is over. -/
def startSession (s : State) : State :=
  match s.session with
  | some _ => s
  | none => { s with sourcefactories := [], session := some s.sourcefactories }

/-- The rest of `dosession`: without a status everything is put back, with one the callbacks are
run. -/
def endSession (s : State) (status : Option Int) : State :=
  match s.session with
  | none => s
  | some pushed =>
    match status with
    | none => { s with sourcefactories := s.sourcefactories ++ pushed, session := none }
    | some _ => { s with store := pushed.foldl (fun t p => t.erase p.slot) s.store, session := none }

/-! ## Runs -/

inductive Event
  | acknowledge (x : Command)
  | flush (policy : Str)
  | start
  | finish (status : Option Int)

/-- A session: the acknowledgements stored when it started, those flushed until then, and the
responses that it carries. -/
structure Session where
  stored : List Item
  flushed : List Nat
  carried : List (Nat × Response)

/-- The state, the acknowledgements given so far, those that were flushed and those that an
accepted session carried, and the sessions. -/
structure World where
  state : State
  given : List (Slot × Item)
  flushed : List Nat
  accepted : List Nat
  sessions : List Session

def World.init : World := ⟨⟨∅, [], none, 0⟩, [], [], [], []⟩

def Accepts (status : Int) : Prop := 200 ≤ status ∧ status ≤ 299

instance (status : Int) : Decidable (Accepts status) := inferInstanceAs (Decidable (_ ∧ _))

def carriedBy (pushed : List Pushed) : List (Nat × Response) := pushed.map fun p => (p.item, p.response)

def step (w : World) : Event → World
  | .acknowledge x =>
    { w with
      state := pAcknowledge policies w.state x
      given :=
        if (slotOf x).policy ∈ policies then w.given ++ [(slotOf x, itemOf w.state x)] else w.given }
  | .flush policy =>
    { w with
      state := sendPolicy tonumber w.state policy
      flushed := w.flushed ++ (acksOf w.state policy).map fun e => e.2.id }
  | .start =>
    { w with
      state := startSession w.state
      sessions :=
        match w.state.session with
        | some _ => w.sessions
        | none =>
          w.sessions ++ [⟨w.state.store.entries.map fun e => e.2, w.flushed,
            carriedBy w.state.sourcefactories⟩] }
  | .finish status =>
    { w with
      state := endSession w.state status
      accepted :=
        match w.state.session, status with
        | some pushed, some c =>
          if Accepts c then w.accepted ++ pushed.map Pushed.item else w.accepted
        | _, _ => w.accepted }

/-- Every acknowledgement is carried once by each session that starts after its flush while it is
stored, and by no session before its flush; and it is gone from its store if and only if an
accepted session carried it. -/
structure Delivered (w : World) : Prop where
  once : ∀ σ ∈ w.sessions, ∀ x ∈ σ.stored, σ.carried.filter (fun c => c.1 = x.id) =
    if x.id ∈ σ.flushed then [(x.id, respond tonumber x)] else []
  kept : ∀ e ∈ w.given, w.state.store.lookup e.1 ≠ some e.2 ↔ e.2.id ∈ w.accepted

/-- A ticket that is not acknowledged twice at a time, a flush that finds no acknowledgement that
was flushed before, an answer that is a success. -/
def Orderly (w : World) : Event → Prop
  | .acknowledge x => w.state.store.lookup (slotOf x) = none
  | .flush policy => ∀ e ∈ acksOf w.state policy, e.2.id ∉ w.flushed
  | .start => True
  | .finish status => ∀ c, status = some c → Accepts c

instance (w : World) : (e : Event) → Decidable (Orderly w e)
  | .acknowledge x => inferInstanceAs (Decidable (w.state.store.lookup (slotOf x) = none))
  | .flush policy => inferInstanceAs (Decidable (∀ e ∈ acksOf w.state policy, e.2.id ∉ w.flushed))
  | .start => isTrue trivial
  | .finish none => isTrue nofun
  | .finish (some c) =>
    decidable_of_iff (Accepts c) ⟨fun h _ hc => Option.some.inj hc ▸ h, fun h => h c rfl⟩

end

end Mihini.Data.Acks
