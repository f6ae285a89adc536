import Mathlib.Algebra.Group.Nat.Defs
import Mathlib.Data.List.Infix
import Mathlib.Logic.Function.Basic

/-!
# Messages to the assets of the C library

`empSendDataHdlr` and `empUpdateNotifHdlr` of `src/cfwk/airvantage/swi_airvantage.c`, over the trees
that `yajl` makes of a payload, with the functions that create, start and destroy an asset.
-/

namespace Mihini.Airvantage

abbrev Str := List Char

/-! ## Trees -/

structure Number where
  i : Int
  isInteger : Bool
  d : BitVec 64
  isDouble : Bool

/-- `yajl_val`.  The members of an object are in the order of the text, with those that have a key of
another one. -/
inductive Json where
  | null
  | bool (b : Bool)
  | number (n : Number)
  | string (s : Str)
  | array (values : List Json)
  | object (members : List (Str × Json))

def Json.isComposite : Json → Bool
  | .array _ | .object _ => true
  | _ => false

/-- `swi_dset_Type_t`, with the value. -/
inductive Datum where
  | nil
  | bool (b : Bool)
  | integer (i : Int)
  | float (d : BitVec 64)
  | string (s : Str)
  | unsupported

abbrev DSet := List (Str × Datum)

inductive Rc where
  | ok
  | notFound
  | badParameter
  | badFormat
  | other (n : Nat)
  deriving DecidableEq

/-- `dset_PushData`, whose result nobody looks at. -/
def pushData (set : DSet) (name : Str) (x : Datum) : DSet :=
  if name = [] then set else set ++ [(name, x)]

def Json.datum : Json → Datum
  | .null => .nil
  | .bool b => .bool b
  | .string s => .string s
  | .number n => if n.isInteger then .integer n.i else if n.isDouble then .float n.d else .unsupported
  | .array _ | .object _ => .unsupported

def pushDSet (set : DSet) (name : Str) (v : Json) : DSet :=
  pushData set name v.datum

/-- `process`, which is called for objects and arrays. -/
def process (v : Json) (set : DSet) : DSet :=
  match v with
  | .object members => members.foldl (fun set x => pushDSet set x.1 x.2) set
  | .array values => values.zipIdx.foldl (fun set x => pushDSet set (Nat.toDigits 10 x.2) x.1) set
  | _ => set

/-! ## Paths -/

/-- `get_path_element`: the remaining path and the name.  It is undefined (`none`) where it reads the
character before the first one. -/
def getPathElement (first : Bool) (path : Str) : Option (Except Rc (Str × Str)) :=
  if path.head? = some '.' then some (.error .badParameter)
  else if path = [] then none
  else if path.getLast? = some '.' ∨ ['.', '.'] <:+: path then some (.error .badParameter)
  else if first then some (.ok ((path.dropWhile (· ≠ '.')).tail, path.takeWhile (· ≠ '.')))
  else
    some (.ok ((path.reverse.dropWhile (· ≠ '.')).tail.reverse,
      (path.reverse.takeWhile (· ≠ '.')).reverse))

def commandPath (name path : Str) : Str :=
  "commands.".toList ++ name ++ if path = [] then [] else '.' :: path

/-! ## Reading a message -/

structure Fields where
  path : Option Str
  ticketId : Int
  body : Option Json
  cls : Option Str

def Fields.init : Fields := ⟨none, 0, none, none⟩

/-- The first loop of `readMessage`, for one member; `none` is a format error. -/
def readField (r : Fields) (k : Str) (v : Json) : Option Fields :=
  if k = "Path".toList then
    match v with
    | .string s => some { r with path := some s }
    | _ => none
  else if k = "TicketId".toList then
    match v with
    | .number n => some { r with ticketId := n.i.bmod (2 ^ 32) }
    | _ => none
  else if k = "Body".toList then
    if v.isComposite then some { r with body := some v } else none
  else if k = "__class".toList then
    match v with
    | .string s => some { r with cls := some s }
    | _ => none
  else some r

/-- The second loop of `readMessage`; `none` is a format error.  The length of an object is zero in
the memory of an array. -/
def bodyClass : Json → Option (Option Str)
  | .object members =>
    match members.lookup "__class".toList with
    | none => some none
    | some (.string s) => some (some s)
    | some _ => none
  | _ => some none

structure Message where
  path : Str
  ticketId : Int
  body : Json
  bodyClass : Option Str

def readMessage (members : List (Str × Json)) : Option Message := do
  let r ← members.foldlM (fun r x => readField r x.1 x.2) Fields.init
  let body ← r.body
  let c ← bodyClass body
  let path ← r.path
  if r.cls = some "AWT-DA::Message".toList then some ⟨path, r.ticketId, body, c⟩ else none

/-- `processCommand`: its result, the data set and the path.  It is undefined (`none`) where it takes
the length of what is not a string. -/
def processCommand (body : Json) (set : DSet) (path : Str) : Option (Rc × DSet × Str) :=
  match body with
  | .object members =>
    match members.lookup "Command".toList with
    | some (.string name) =>
      match members.lookup "Args".toList with
      | none => some (.ok, set, commandPath name path)
      | some args =>
        if args.isComposite then some (.ok, process args set, commandPath name path)
        else some (.badFormat, set, commandPath name path)
    | _ => none
  | _ => some (.badFormat, set, path)

/-! ## Assets -/

/-- A callback of an asset: `swi_av_asset_Create` sets none. -/
inductive Callback where
  | unset
  | null
  | function (f : Nat)
  deriving DecidableEq

structure Asset where
  started : Bool
  dwCb : Callback
  updCb : Callback
  assetId : Str

inductive Call where
  | dataWrite (f asset : Nat) (path : Str) (data : DSet) (ackId : Int)
  /-- The parameters are `none` for a null pointer. -/
  | update (f asset : Nat) (component version file : Str) (parameters : Option DSet)

structure State where
  heap : Nat → Option Asset
  assetList : List (Str × Nat)
  locked : Bool
  calls : List Call

def State.init : State := ⟨fun _ => none, [], false, []⟩

inductive Outcome where
  | returns (res : Rc)
  | blocked
  | undefined
  deriving DecidableEq

/-- `swi_av_asset_Create`, with the address that `malloc` gives. -/
def create (s : State) (p : Nat) (assetId : Str) : State × Outcome :=
  if assetId = [] then (s, .returns .badParameter)
  else
    ({ s with heap := Function.update s.heap p (some ⟨false, .unset, .unset, assetId⟩) }, .returns .ok)

def registerDataWrite (s : State) (p : Nat) (cb : Callback) : State × Outcome :=
  match s.heap p with
  | none => (s, .undefined)
  | some a =>
    ({ s with heap := Function.update s.heap p (some { a with dwCb := cb }) }, .returns .ok)

def registerUpdateNotification (s : State) (p : Nat) (cb : Callback) : State × Outcome :=
  match s.heap p with
  | none => (s, .undefined)
  | some a =>
    ({ s with heap := Function.update s.heap p (some { a with updCb := cb }) }, .returns .ok)

/-- `swi_av_asset_Start`, with the answer of the agent. -/
def start (s : State) (p : Nat) (answer : Rc) : State × Outcome :=
  match s.heap p with
  | none => (s, .undefined)
  | some a =>
    if a.started then (s, .returns .ok)
    else if answer ≠ .ok then (s, .returns answer)
    else
      let s := { s with heap := Function.update s.heap p (some { a with started := true }) }
      if s.locked then (s, .blocked)
      else ({ s with assetList := s.assetList ++ [(a.assetId, p)] }, .returns .ok)

/-- `swi_av_asset_Destroy`, with the answer of the agent. -/
def destroy (s : State) (p : Nat) (answer : Rc) : State × Outcome :=
  match s.heap p with
  | none => (s, .undefined)
  | some a =>
    if !a.started then (s, .returns .ok)
    else if answer ≠ .ok then (s, .returns answer)
    else if s.locked then (s, .blocked)
    else
      ({ s with
          heap := Function.update s.heap p none
          assetList := s.assetList.eraseP fun x => x.1 = a.assetId }, .returns .ok)

/-! ## The handlers -/

def findAsset (s : State) (path : Str) : Except (State × Outcome) (Str × Nat) :=
  match getPathElement true path with
  | none => .error (s, .undefined)
  | some (.error res) => .error (s, .returns res)
  | some (.ok (remainingPath, assetId)) =>
    if s.locked then .error (s, .blocked)
    else
      match s.assetList.lookup assetId with
      -- `CHECK_RETURN` leaves the function before the lock is given back
      | none => .error ({ s with locked := true }, .returns .notFound)
      | some p => .ok (remainingPath, p)

/-- The call of `dwCb`. -/
def State.dataWrite (s : State) (f p : Nat) (m : Message) (path : Str) (set : DSet) (res : Rc) :
    State × Outcome :=
  ({ s with calls := s.calls ++ [.dataWrite f p path set m.ticketId] }, .returns res)

/-- `empSendDataHdlr`, from where it has the asset. -/
def passData (s : State) (m : Message) (remainingPath : Str) (p : Nat) : State × Outcome :=
  match s.heap p with
  | none => (s, .undefined)
  | some a =>
    match a.dwCb with
    | .unset => (s, .undefined)
    | .null => (s, .returns .ok)
    | .function f =>
      match m.bodyClass with
      | none => s.dataWrite f p m remainingPath (process m.body []) .ok
      | some c =>
        if c = "AWT-DA::Command".toList then
          match processCommand m.body [] remainingPath with
          | none => (s, .undefined)
          | some (res, set, path) => s.dataWrite f p m path set res
        else if c = "AWT-DA::Response".toList then s.dataWrite f p m remainingPath [] .ok
        else (s, .returns .badFormat)

/-- `empSendDataHdlr`, for the tree of its payload, which is `none` when there is no such tree. -/
def empSendDataHdlr (s : State) (payload : Option Json) : State × Outcome :=
  match payload with
  | some (.object members) =>
    match readMessage members with
    | none => (s, .returns .badFormat)
    | some m =>
      match findAsset s m.path with
      | .error x => x
      | .ok (remainingPath, p) => passData s m remainingPath p
  | _ => (s, .returns .badFormat)

def parametersSet : List Json → Option DSet
  | [] | .null :: _ => some []
  | v :: _ => if v.isComposite then some (process v []) else none

/-- `empUpdateNotifHdlr`, from where it has the asset. -/
def passUpdate (s : State) (version file : Str) (more : List Json) (remainingPath : Str) (p : Nat) :
    State × Outcome :=
  match s.heap p with
  | none => (s, .undefined)
  | some a =>
    match a.updCb with
    | .unset => (s, .undefined)
    | .null => (s, .returns .ok)
    | .function f =>
      ({ s with calls := s.calls ++ [.update f p remainingPath version file (parametersSet more)] },
        .returns .ok)

def empUpdateNotifHdlr (s : State) (payload : Option Json) : State × Outcome :=
  match payload with
  | some (.array (.string component :: .string version :: .string file :: more)) =>
    match findAsset s component with
    | .error x => x
    | .ok (remainingPath, p) => passUpdate s version file more remainingPath p
  | _ => (s, .returns .badFormat)

inductive Event where
  | create (p : Nat) (assetId : Str)
  | registerDataWrite (p : Nat) (cb : Callback)
  | registerUpdateNotification (p : Nat) (cb : Callback)
  | start (p : Nat) (answer : Rc)
  | destroy (p : Nat) (answer : Rc)
  | sendData (payload : Option Json)
  | softwareUpdate (payload : Option Json)

def perform (s : State) : Event → State × Outcome
  | .create p assetId => create s p assetId
  | .registerDataWrite p cb => registerDataWrite s p cb
  | .registerUpdateNotification p cb => registerUpdateNotification s p cb
  | .start p answer => start s p answer
  | .destroy p answer => destroy s p answer
  | .sendData payload => empSendDataHdlr s payload
  | .softwareUpdate payload => empUpdateNotifHdlr s payload

def step (s : State) (e : Event) : State :=
  (perform s e).1

end Mihini.Airvantage
