import Mathlib.Data.Rat.Defs
import Mathlib.Logic.Function.Basic
import Mihini.Lib.Run

/-!
# The mediation client

`src/agent/agent/mediation.lua`: the listener, the keep-alive and the search of a server, which run as
tasks, and the calls that start and stop them.  What the socket and the network give is an input, and so
is which of the tasks that are ready comes next.
-/

namespace Mihini.Mediation

open Function

abbrev Str := List Char

abbrev Task := Nat

abbrev Timer := Nat

abbrev Socket := Nat

/-! ## The state -/

/-- An entry of `config.mediation.servers` -/
structure Server where
  addr : Option Str
  port : Option Nat

/-- A function that a task is run with; the index is `none` for the token of `sched.kill`. -/
inductive Call where
  | mediationlistener (index : Nat)
  | sendkeepalive (currentid : Nat)
  | findserver (index : Option Nat)
  /-- The function of the timer `restart`. -/
  | restart
  | netmanhook (bearername : Str)

inductive After where
  | returns
  | restart
  | start (period : ℚ)

inductive Place where
  | called (f : Call)
  | receiving (index : Option Nat) (skt : Socket)
  /-- In `server.connect()`. -/
  | connecting (index : Option Nat) (reqid : Option UInt8)
  /-- `sendkeepalive` waits for the acknowledgement. -/
  | acking (currentid retries : Nat)
  /-- `stop` waits for the end of the listener. -/
  | stopping (after : After)

inductive Kind where
  | listener
  | search
  | keepalive
  | restart
  | hook
  | stop
  deriving DecidableEq

def Call.kind : Call → Kind
  | .mediationlistener _ => .listener
  | .sendkeepalive _ => .keepalive
  | .findserver _ => .search
  | .restart => .restart
  | .netmanhook _ => .hook

def Place.kind : Place → Kind
  | .called f => f.kind
  | .receiving _ _ | .connecting _ _ => .listener
  | .acking _ _ => .keepalive
  | .stopping _ => .stop

inductive Wake where
  | begins
  | read
  | closed
  | ack
  | timeout
  | stopped
  | returned
  deriving DecidableEq

structure Handles where
  place : Task → Option Place
  woken : Task → Option Wake
  timers : Timer → Option Call
  fresh : Nat
  keepalive : Option Timer
  restart : Option Timer
  listener : Option Task
  heartbeat : Option Task

structure World extends Handles where
  status : Nat
  skt : Option Socket
  pollingperiod : Option ℚ
  servers : List Server
  closed : Socket → Bool
  connected : Socket → Bool
  watched : Socket → Bool
  left : Bool

def World.init (servers : List Server) : World where
  place := fun _ => none
  woken := fun _ => none
  timers := fun _ => none
  fresh := 0
  keepalive := none
  restart := none
  listener := none
  heartbeat := none
  status := 0
  skt := none
  pollingperiod := none
  servers := servers
  closed := fun _ => false
  connected := fun _ => false
  watched := fun _ => false
  left := false

/-! ## Tasks and timers -/

namespace Handles

def kind (h : Handles) (t : Task) : Option Kind := (h.place t).map Place.kind

def die (h : Handles) (t : Task) : Handles := { h with place := update h.place t none }

def goto (h : Handles) (t : Task) (p : Place) : Handles :=
  { h with
    place := update h.place t (some p)
    woken := update h.woken t none }

def run (h : Handles) (f : Call) : Handles :=
  { h with
    place := update h.place h.fresh (some (.called f))
    woken := update h.woken h.fresh (some .begins)
    fresh := h.fresh + 1 }

def wake (h : Handles) (f : Place → Option Wake) : Handles :=
  { h with woken := fun t => (h.woken t).or ((h.place t).bind f) }

def arm (h : Handles) (f : Call) : Handles :=
  { h with
    timers := update h.timers h.fresh (some f)
    fresh := h.fresh + 1 }

def cancelKeepalive (h : Handles) : Handles :=
  match h.keepalive with
  | none => h
  | some k => { h with timers := update h.timers k none, keepalive := none }

def cancelRestart (h : Handles) : Handles :=
  match h.restart with
  | none => h
  | some k => { h with timers := update h.timers k none, restart := none }

def signalAck (h : Handles) (reqid : UInt8) : Handles :=
  h.wake fun
    | .acking currentid _ => if currentid = reqid.toNat then some .ack else none
    | _ => none

def signalStopped (h : Handles) : Handles :=
  h.wake fun
    | .stopping _ => some .stopped
    | _ => none

def signalSocket (h : Handles) (s : Socket) (e : Wake) : Handles :=
  h.wake fun
    | .receiving _ skt => if skt = s then some e else none
    | _ => none

def remains (h : Handles) : Bool :=
  (List.range h.fresh).any fun n =>
    h.kind n = some .listener || h.kind n = some .keepalive || h.kind n = some .restart ||
      (h.timers n).isSome

end Handles

/-! ## What is read and sent -/

inductive Connect where
  | returns
  | raises
  | waits
  deriving DecidableEq

structure Receipt where
  packet : List UInt8
  /-- After `skt:setpeername(serveraddr, serverport)` the socket is connected. -/
  switched : Bool
  connect : Connect

structure Outcome where
  receipts : List Receipt
  /-- After them, `receive` fails; else it waits. -/
  failed : Bool
  /-- `skt:send` sends the keep-alive, with so many tries left. -/
  sent : Nat → Bool
  /-- `socket.udp()` gives a socket, for the server of that index; else it raises an error. -/
  udp : Nat → Bool
  /-- `skt:setpeername` connects to the server of that index. -/
  peer : Nat → Bool

def dotted (ip1 ip2 ip3 ip4 : UInt8) : Str :=
  ['.'].intercalate ([ip1, ip2, ip3, ip4].map fun n => Nat.toDigits 10 n.toNat)

namespace World

def die (w : World) (t : Task) : World := { w with toHandles := w.toHandles.die t }

def listens (w : World) : Option Socket := if 2 < w.status then w.skt else none

def close (w : World) : World :=
  match w.skt with
  | none => w
  | some s =>
    { w with
      toHandles := w.signalSocket s .closed
      closed := update w.closed s true
      watched := update w.watched s false }

/-- `skt:send` in `sendack` raises an error when the socket is not connected. -/
def sendackRaises (w : World) : Bool :=
  match w.listens with
  | none => false
  | some s => !w.connected s

inductive Handled where
  | done
  | raises
  | connects (reqid : Option UInt8)

def acknowledge (w : World) (reqid : Option UInt8) : Handled :=
  if reqid.isSome ∧ w.sendackRaises then .raises else .done

def handle (w : World) (r : Receipt) : World × Handled :=
  let reqid := r.packet[1]?
  match r.packet.head? with
  | some 0 =>
    match reqid with
    | none => (w, .raises)
    | some id => ({ w with toHandles := w.signalAck id }, .done)
  | some 2 =>
    let pollingperiod := match r.packet.drop 2 with
      | high :: low :: _ => some (high.toNat * 256 + low.toNat : ℚ)
      | _ => none
    ({ w with pollingperiod := pollingperiod }, w.acknowledge reqid)
  | some 3 =>
    match r.packet.drop 2, w.skt with
    | ip1 :: ip2 :: ip3 :: ip4 :: high :: low :: _, some s =>
      if w.sendackRaises then (w, .raises)
      else
        let server := ⟨some (dotted ip1 ip2 ip3 ip4), some (high.toNat * 256 + low.toNat)⟩
        ({ w with
          connected := update w.connected s r.switched
          servers := server :: w.servers }, .done)
    | _, _ => (w, w.acknowledge reqid)
  | some 4 =>
    match r.connect with
    | .returns => (w, w.acknowledge reqid)
    | .raises => (w, .raises)
    | .waits => (w, .connects reqid)
  | _ => (w, w.acknowledge reqid)

/-! ## The listener -/

inductive Listened where
  | waits (skt : Socket)
  | connects (reqid : Option UInt8)
  | ends
  | raises

/-- The loop of `mediationlistener`.  A second watch of a socket fails. -/
def listen (failed : Bool) (w : World) : List Receipt → World × Listened
  | [] =>
    match w.listens with
    | none => (w, .ends)
    | some s =>
      if w.closed s ∨ failed ∨ w.watched s then (w, .ends)
      else ({ w with watched := update w.watched s true }, .waits s)
  | r :: rs =>
    match w.listens with
    | none => (w, .ends)
    | some s =>
      if w.closed s then (w, .ends)
      else
        match w.handle r with
        | (w, .done) => listen failed w rs
        | (w, .raises) => (w, .raises)
        | (w, .connects reqid) => (w, .connects reqid)

/-- What follows the loop of `mediationlistener`. -/
def lost (w : World) (index : Option Nat) : World :=
  let w := { w with toHandles := w.cancelKeepalive.signalStopped }
  if 0 < w.status ∧ w.skt.isSome then
    let w := { w with status := 1 }.close
    { w with toHandles := w.run (.findserver index) }
  else w

def listened (t : Task) (index : Option Nat) : World × Listened → World
  | (w, .waits s) => { w with toHandles := w.goto t (.receiving index s) }
  | (w, .connects reqid) => { w with toHandles := w.goto t (.connecting index reqid) }
  | (w, .ends) => (w.die t).lost index
  | (w, .raises) => w.die t

def mediationlistener (w : World) (t : Task) (index : Option Nat) (o : Outcome) : World :=
  listened t index (w.listen o.failed o.receipts)

/-- The listener goes on after its wait in `skt:receive()`. -/
def received (w : World) (t : Task) (index : Option Nat) (s : Socket) (e : Wake) (o : Outcome) : World :=
  let w := { w with watched := update w.watched s false }
  match e, o.receipts with
  | .read, r :: rs =>
    if w.closed s then listened t index (w, .ends)
    else
      match w.handle r with
      | (w, .done) => listened t index (w.listen o.failed rs)
      | (w, .raises) => listened t index (w, .raises)
      | (w, .connects reqid) => listened t index (w, .connects reqid)
  | _, _ => listened t index (w, .ends)

/-- The listener goes on after its wait in `server.connect()`. -/
def connectedServer (w : World) (t : Task) (index : Option Nat) (reqid : Option UInt8) (o : Outcome) :
    World :=
  match w.acknowledge reqid with
  | .done => listened t index (w.listen o.failed o.receipts)
  | _ => listened t index (w, .raises)

/-! ## The keep-alive -/

/-- The loop of `sendkeepalive`, and what follows it.  An error is raised when the socket is not
connected. -/
def trysend (t : Task) (currentid : Nat) (o : Outcome) (w : World) : Nat → World
  | 0 => if 1 < w.status ∧ w.skt.isSome then { w.die t with status := 1 }.close else w.die t
  | retries + 1 =>
    match w.skt with
    | none => w.die t
    | some s =>
      if 1 < w.status ∧ w.connected s then
        if o.sent (retries + 1) ∧ ¬ w.closed s then
          { w with toHandles := w.goto t (.acking currentid (retries + 1)) }
        else trysend t currentid o w retries
      else w.die t

/-- `sendkeepalive` goes on after its wait for the acknowledgement. -/
def acked (w : World) (t : Task) (currentid retries : Nat) (e : Wake) (o : Outcome) : World :=
  if 1 < w.status ∧ w.skt.isSome then
    match e with
    | .timeout => trysend t currentid o w (retries - 1)
    | _ =>
      let w := w.die t
      match w.pollingperiod with
      | none => w
      | some _ =>
        let h := w.cancelKeepalive
        { w with
          toHandles := { h.arm (.sendkeepalive (currentid % 255 + 1)) with keepalive := some h.fresh } }
  else w.die t

/-! ## The search of a server -/

/-- `sched.kill` of the listener or the keep-alive.  A task that has not begun begins, with the token for
its argument: the keep-alive then fails, and the listener may come to wait and is still ready. -/
def kill (w : World) (o : Outcome) (t : Task) : World :=
  match w.place t with
  | some (.called (.mediationlistener _)) =>
    let w' := w.mediationlistener t none o
    { w' with woken := update w'.woken t (w.woken t) }
  | _ => w.die t

def killListener (w : World) (o : Outcome) : World :=
  match w.listener with
  | none => w
  | some t => { w.kill o t with listener := none }

def killHeartbeat (w : World) (o : Outcome) : World :=
  match w.heartbeat with
  | none => w
  | some t => { w.kill o t with heartbeat := none }

/-- `findserver` has found a server. -/
def found (w : World) (index : Nat) (o : Outcome) : World :=
  let w := { w with status := 3, toHandles := w.cancelKeepalive }
  let w := (w.killHeartbeat o).killListener o
  let h := w.run (.mediationlistener index)
  { w with
    toHandles := { h.run (.sendkeepalive 1) with listener := some w.fresh, heartbeat := some h.fresh } }

/-- The socket that `socket.udp()` gives. -/
def udp (w : World) (connected : Bool) : World :=
  { w with
    skt := some w.fresh
    closed := update w.closed w.fresh false
    connected := update w.connected w.fresh connected
    watched := update w.watched w.fresh false
    fresh := w.fresh + 1 }

/-- The loop of `findserver`, where `index` is that of the next server, and what follows it. -/
def search (o : Outcome) (w : World) (index : Nat) : List Server → World
  | [] =>
    if w.restart.isNone then
      { w with toHandles := { w.arm .restart with restart := some w.fresh } }
    else w
  | server :: servers =>
    let w := { w.close with skt := none }
    if server.addr.isSome ∧ server.port.isSome then
      if o.udp index then
        let w := w.udp (o.peer index)
        if o.peer index then w.found index o else search o w (index + 1) servers
      else w
    else search o w (index + 1) servers

def findserver (w : World) (index : Option Nat) (o : Outcome) : World :=
  match index with
  | none => w
  | some index => if 0 < w.status then w.search o (index + 1) (w.servers.drop index) else w

/-! ## Starting and stopping -/

/-- `start`; the period is `none` when it is not a number. -/
def start (w : World) (period : Option ℚ) (index : Option Nat) (o : Outcome) : World :=
  if 0 < w.status then w
  else
    let w := { w with status := 1, pollingperiod := period.filter (0 < ·) }
    w.findserver (some (index.getD 0)) o

/-- `stop` past its wait, and what its caller does next. -/
def stopped (w : World) (after : After) (o : Outcome) : World :=
  let w := (w.killListener o).killHeartbeat o
  let w := { w with status := 0, left := w.left || w.remains }
  match after with
  | .returns => w
  | .restart => w.start w.pollingperiod none o
  | .start period => w.start (some period) none o

/-- What `stop` begins with. -/
def halt (w : World) : World :=
  let w := { w.close with skt := none }
  { w with toHandles := w.cancelKeepalive.cancelRestart }

/-- `stop`, called in the task `t`. -/
def stop (w : World) (t : Task) (after : After) (o : Outcome) : World :=
  let w := w.halt
  if 2 < w.status then { w with toHandles := w.goto t (.stopping after) }
  else (w.die t).stopped after o

end World

/-! ## Steps -/

structure Config where
  retries : Nat
  /-- `config.mediation.pollingperiod` -/
  pollingperiod : Str → Option ℚ

inductive Event where
  | start (period : Option ℚ) (index : Option Nat) (o : Outcome)
  /-- A task of the agent calls `stop`. -/
  | stop (o : Outcome)
  | connected (bearername : Str)
  | turn (t : Task) (o : Outcome)
  | elapse (k : Timer)
  | timeout (t : Task)
  | readable (s : Socket)
  | connectReturns (t : Task)

namespace World

def resume (cfg : Config) (w : World) (t : Task) (e : Wake) (o : Outcome) : Place → World
  | .called (.mediationlistener index) => w.mediationlistener t (some index) o
  | .called (.sendkeepalive currentid) => trysend t currentid o w cfg.retries
  | .called (.findserver index) => (w.die t).findserver index o
  | .called .restart => w.stop t .restart o
  | .called (.netmanhook bearername) =>
    match cfg.pollingperiod bearername with
    | none => w.die t
    | some period => w.stop t (.start period) o
  | .receiving index s => w.received t index s e o
  | .connecting index reqid => w.connectedServer t index reqid o
  | .acking currentid retries => w.acked t currentid retries e o
  | .stopping after => (w.die t).stopped after o

def turn (cfg : Config) (w : World) (t : Task) (o : Outcome) : World :=
  match w.place t, w.woken t with
  | some p, some e => w.resume cfg t e o p
  | _, _ => w

end World

open World

def step (cfg : Config) (w : World) : Event → World
  | .start period index o => w.start period index o
  | .stop o => { w with fresh := w.fresh + 1 }.stop w.fresh .returns o
  | .connected bearername => { w with toHandles := w.run (.netmanhook bearername) }
  | .turn t o => w.turn cfg t o
  | .elapse k =>
    match w.timers k with
    | none => w
    | some f => { w with toHandles := { w with timers := update w.timers k none }.run f }
  | .timeout t =>
    match w.woken t, w.place t with
    | none, some (.acking _ _) | none, some (.stopping _) =>
      { w with woken := update w.woken t (some .timeout) }
    | _, _ => w
  | .readable s => { w with toHandles := w.signalSocket s .read }
  | .connectReturns t =>
    match w.woken t, w.place t with
    | none, some (.connecting _ _) => { w with woken := update w.woken t (some .returned) }
    | _, _ => w

end Mihini.Mediation
