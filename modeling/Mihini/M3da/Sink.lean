import Mihini.Bysant.Incremental

/-!
# The sink of the transport

`bysant_core_deserialize.c` builds a Lua value from what `bsd_read` gives, on the Lua stack, and
puts the stack away when it has to wait for data.  The sinks of `session/security.lua` and of
`session/default.lua` keep the bytes and the stack until the next fragment.
-/

open Mihini.Bysant

namespace Mihini.M3da.Sink

abbrev Bytes := List UInt8

/-! ## Lua values -/

inductive LuaValue where
  | niltoken
  | bool (b : Bool)
  | int (i : Int)
  | double (d : UInt64)
  | string (data : Bytes)
  | table (assigned : List (LuaValue × LuaValue))

def LuaValue.truthy : LuaValue → Bool
  | .bool b => b
  | _ => true

/-- An element of the Lua stack.  The bytes of a `luaL_Buffer` are those in its array and those
it has put on the stack. -/
inductive Slot where
  | value (v : LuaValue)
  | buffer (data : Bytes)

def errorText : BsdStatus → String
  | .enotimpl => "NOTIMPL"
  | .einvalid => "INVALID"
  | .ebadcontext => "BADCONTEXT"
  | .einvopcode => "INVOPCODE"
  | .ebadclassid => "BADCLASSID"
  | .etoodeep => "TOODEEP"
  | .einternal => "INTERNAL"
  | .ememory => "-7"
  | .eok => "0"

def classField : LuaValue := .string [95, 95, 99, 108, 97, 115, 115]

def className (cls : BsClass) : LuaValue :=
  match cls.classname with
  | none => .int cls.classid.toNat
  | some name => .string name

/-- The first step of `bysant2lua`: the element is put on the stack, whose top is the head of
the list.  A list or an object is put above the index of its last element. -/
def pushed (x : Data) (stack : List Slot) : Option (List Slot) :=
  match x.type, x.content, stack with
  | .int, .int i, _ => some (.value (.int i) :: stack)
  | .null, _, _ => some (.value .niltoken :: stack)
  | .bool, .bool b, _ => some (.value (.bool b) :: stack)
  | .double, .double d, _ => some (.value (.double d) :: stack)
  | .string, .bytes data, _ => some (.value (.string data) :: stack)
  | .chunk, .bytes data, .buffer buf :: stack => some (.buffer (buf ++ data) :: stack)
  | .map, _, _ => some (.value (.table []) :: stack)
  | .zmap, _, _ => some (.value (.table []) :: stack)
  | .list, _, _ => some (.value (.table []) :: .value (.int 0) :: stack)
  | .zlist, _, _ => some (.value (.table []) :: .value (.int 0) :: stack)
  | .object, .classdef p, _ =>
    some (.value (.table [(classField, className p.cls)]) :: .value (.int 0) :: stack)
  | .chunkedString, _, _ => some (.buffer [] :: stack)
  | .close, .contType .chunkedString, .buffer buf :: stack =>
    some (.value (.string buf) :: stack)
  | .close, .contType .object, t :: _ :: stack => some (t :: stack)
  | .close, .contType .list, t :: _ :: stack => some (t :: stack)
  | .close, .contType .zlist, t :: _ :: stack => some (t :: stack)
  | .close, .contType .map, _ => some stack
  | .close, .contType .zmap, _ => some stack
  | _, _, _ => none

def inserted (x : Data) (stack : List Slot) : Option (List Slot) :=
  match x.kind, x.fieldname, stack with
  | .toplevel, _, _ => some stack
  | .objfield, some name, .value v :: .value (.table t) :: stack =>
    some (.value (.table ((.string name, v) :: t)) :: stack)
  | .objfield, none, .value v :: .value (.table t) :: .value (.int n) :: stack =>
    some (.value (.table ((.int (n + 1), v) :: t)) :: .value (.int (n + 1)) :: stack)
  | .listitem, _, .value v :: .value (.table t) :: .value (.int n) :: stack =>
    some (.value (.table ((.int (n + 1), v) :: t)) :: .value (.int (n + 1)) :: stack)
  | .mapvalue, _, .value v :: .value k :: .value (.table t) :: stack =>
    some (.value (.table ((k, v) :: t)) :: stack)
  | .mapkey, _, _ => some stack
  | .chunk, _, _ => some stack
  | .newcontainer, _, _ => some stack
  | _, _, _ => none

def bysant2lua (x : Data) (stack : List Slot) : Option (Except String (List Slot)) :=
  match x.type, x.content with
  | .error, .error cause => some (.error (errorText cause))
  | .error, _ => none
  | .classdef, _ => some (.ok stack)
  | _, _ => do
    let stack ← pushed x stack
    let stack ← inserted x stack
    some (.ok stack)

/-! ## `deserialize` -/

/-- What `hibernate` puts into a table.  No element of the stack is `nil`, so that the length
of the table is the number of elements. -/
structure Hibernated where
  stack : List Slot
  offset : Nat

inductive Result where
  | value (v : LuaValue) (offset : Nat)
  /-- `nil, "partial", hibernated` -/
  | suspended (h : Hibernated)
  /-- `nil, offset`: there is nothing to read. -/
  | nothing (offset : Nat)
  | error (msg : String)

/-- The loop of `deserialize_or_skip`.  The local variable `data` is not initialized, and keeps
what the previous turn has put there. -/
def deserializeLoop [CFloat] (buffer : Bytes) :
    Nat → DCtx → Data → List Slot → Nat → Option (Result × DCtx)
  | 0, _, _, _, _ => none
  | fuel + 1, ctx, data, stack, offset => do
    let (r, data, ctx) ← bsdRead ctx data (buffer.drop offset)
      (intOfSize (buffer.length - offset))
    if r < 0 then some (.suspended ⟨stack, offset⟩, ctx)
    else
      match ← bysant2lua data stack with
      | .error msg => some (.error msg, bsdInit ctx.stack)
      | .ok stack =>
        let offset := offset + r.toNat
        if 0 < ctx.stacksize ∨ data.type = .classdef then
          deserializeLoop buffer fuel ctx data stack offset
        else
          match stack with
          | .value v :: _ => some (.value v (offset + 1), ctx)
          | _ => none

/-- `api_deserialize`, with the arguments `buffer` and `partial`. -/
def deserialize [CFloat] (fuel : Nat) (ctx : DCtx) (data : Data) (buffer : Bytes)
    (hibernated : Option Hibernated) : Option (Result × DCtx) :=
  match hibernated with
  | none =>
    if ctx.stacksize ≠ 0 then
      some (.error "Attempt to deserialize new data with an hibernated state", ctx)
    else if buffer.length = 0 then some (.nothing 0, ctx)
    else deserializeLoop buffer fuel ctx data [] 0
  | some h =>
    if ctx.stacksize = 0 then
      some (.error "Attempt to resume a deserialization with an empty deserializer", ctx)
    else if buffer.length = 0 then some (.nothing 0, ctx)
    else deserializeLoop buffer fuel ctx data h.stack h.offset

/-! ## The sink of `session/security.lua` -/

/-- The module's deserializer, and the variables `pending_data` and `partial`. -/
structure SinkState where
  ctx : DCtx
  pendingData : Bytes
  hibernated : Option Hibernated

/-- What a call of the sink does: it hands an envelope over, to the task that waits for a
response or to a new one; it waits for more; it refuses the fragment and says why; or it raises
an error. -/
inductive Outcome where
  | envelope (v : LuaValue)
  | waits
  | refused (msg : String)
  | raises (msg : String)

/-- The function that `newsink` returns, on a fragment. -/
def sink [CFloat] (fuel : Nat) (s : SinkState) (data : Data) (srcData : Bytes) :
    Option (Outcome × SinkState) := do
  let pendingData := s.pendingData ++ srcData
  let (result, ctx) ← deserialize fuel s.ctx data pendingData s.hibernated
  match result with
  | .error msg => some (.refused msg, ⟨ctx, pendingData, none⟩)
  | .suspended h => some (.waits, ⟨ctx, pendingData, some h⟩)
  | .nothing _ => some (.raises "assertion failed!", ⟨ctx, pendingData, none⟩)
  | .value v offset =>
    if v.truthy then some (.envelope v, ⟨ctx, pendingData.drop (offset - 1), none⟩)
    else some (.raises "assertion failed!", ⟨ctx, pendingData, none⟩)

/-- The envelopes that are handed over while fragments are given to the sink.  `junk` is what
the local variable of the deserializer holds at each call. -/
def sinks [CFloat] (fuel : Nat) (junk : Nat → Data) :
    SinkState → List Bytes → Option (List LuaValue × SinkState)
  | s, [] => some ([], s)
  | s, srcData :: frags => do
    let (outcome, s) ← sink fuel s (junk frags.length) srcData
    let (vs, s) ← sinks fuel junk s frags
    match outcome with
    | .envelope v => some (v :: vs, s)
    | _ => some (vs, s)

/-! ## The sink of `session/default.lua` -/

def field (name : Bytes) (assigned : List (LuaValue × LuaValue)) : Option LuaValue :=
  (assigned.find? fun (key, _) =>
    match key with
    | .string data => data = name
    | _ => false).map (·.2)

def headerField : Bytes := [104, 101, 97, 100, 101, 114]

def statusField : Bytes := [115, 116, 97, 116, 117, 115]

def payloadField : Bytes := [112, 97, 121, 108, 111, 97, 100]

/-- `envelope.header.status`, or `none` when an error is raised.  A string has the functions of
its library for fields, and none of them has this name. -/
def headerStatus : LuaValue → Option (Option LuaValue)
  | .table envelope =>
    match field headerField envelope with
    | some (.table header) => some (field statusField header)
    | some (.string _) => some none
    | _ => none
  | _ => none

/-- `envelope.payload`, or the token for nothing. -/
def payload : LuaValue → LuaValue
  | .table envelope => (field payloadField envelope).getD .niltoken
  | _ => .niltoken

/-- The function that `newsink` returns, on a fragment.  It calls the deserializer without a
protection, so that an error leaves `partial` as it was, and the deserializer has no method
`reset`. -/
def defaultSink [CFloat] (fuel : Nat) (s : SinkState) (data : Data) (srcData : Bytes) :
    Option (Outcome × SinkState) := do
  let pendingData := s.pendingData ++ srcData
  let (result, ctx) ← deserialize fuel s.ctx data pendingData s.hibernated
  match result with
  | .error msg => some (.raises msg, ⟨ctx, pendingData, s.hibernated⟩)
  | .suspended h => some (.waits, ⟨ctx, pendingData, some h⟩)
  | .nothing _ => some (.raises "attempt to call method 'reset'", ⟨ctx, pendingData, none⟩)
  | .value v offset =>
    if v.truthy then
      match headerStatus v with
      | none => some (.raises "attempt to index field 'header'", ⟨ctx, pendingData, none⟩)
      | some _ => some (.envelope v, ⟨ctx, pendingData.drop (offset - 1), none⟩)
    else some (.raises "attempt to call method 'reset'", ⟨ctx, pendingData, none⟩)

/-! ## Connections -/

inductive Session
  | default
  | security
  deriving DecidableEq

def Session.sink [CFloat] : Session → Nat → SinkState → Data → Bytes →
    Option (Outcome × SinkState)
  | .default => defaultSink
  | .security => Sink.sink

/-- What comes on a connection, and what the local variable of the deserializer holds when the
sink is called. -/
structure Connection where
  fragments : List Bytes
  junk : Nat → Data

/-- The envelopes that are handed over while a connection lasts.  After a fragment that is refused
or raises an error nothing more is read.  At the end of the stream the sink is called without
data, and only signals it. -/
def Session.feed [CFloat] (session : Session) (fuel : Nat) (junk : Nat → Data) :
    SinkState → List Bytes → Option (List LuaValue × SinkState)
  | s, [] => some ([], s)
  | s, srcData :: frags => do
    let (outcome, s) ← session.sink fuel s (junk frags.length) srcData
    match outcome with
    | .refused _ => some ([], s)
    | .raises _ => some ([], s)
    | .waits => session.feed fuel junk s frags
    | .envelope v => do
      let (vs, s) ← session.feed fuel junk s frags
      some (v :: vs, s)

def Session.connection [CFloat] (session : Session) (fuel : Nat) (s : SinkState)
    (c : Connection) : Option (List LuaValue × SinkState) :=
  session.feed fuel c.junk s c.fragments

def Session.connections [CFloat] (session : Session) (fuel : Nat) :
    SinkState → List Connection → Option SinkState
  | s, [] => some s
  | s, c :: cs => do
    let (_, s) ← session.connection fuel s c
    session.connections fuel s cs

end Mihini.M3da.Sink
