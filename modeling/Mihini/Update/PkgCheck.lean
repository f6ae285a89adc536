import Mihini.Lib.Checks
import Mihini.Lib.LuaTable

/-!
# Package checks

`src/agent/agent/update/pkgcheck.lua`: the checks of a manifest.  The software state is simulated
component by component, with the features computed again each time.
-/

namespace Mihini.Update

open Mihini.Lib Checks

/-! ## Versions -/

/-- `versionvalidchars` -/
def versionChar (c : Char) : Bool := c.isAlphanum || c ∈ ['.', '-', '_', ':']

def checkversion (version : String) : Bool := version.toList.all versionChar

/-- The matches of `([^ ]*) ?`, or with another separator, up to the first empty one.  `acc` is
what has been read of the current one, backwards. -/
def pieces (sep : Char) : List Char → List Char → List String
  | acc, [] => if acc = [] then [] else [String.ofList acc.reverse]
  | acc, c :: cs =>
    if c = sep then
      if acc = [] then [] else String.ofList acc.reverse :: pieces sep [] cs
    else pieces sep (c :: acc) cs

/-- The captures of `^([><=#!][=]?)(.+)$`. -/
def operator (dep : String) : Option (String × String) :=
  match dep.toList with
  | c :: '=' :: v :: vs =>
    if c ∈ ['>', '<', '=', '#', '!'] then
      some (String.ofList [c, '='], String.ofList (v :: vs))
    else none
  | c :: v :: vs =>
    if c ∈ ['>', '<', '=', '#', '!'] then some (String.ofList [c], String.ofList (v :: vs))
    else none
  | _ => none

def listed (version : Option String) (dep : String) : List String → Except String Unit
  | [] => .error (dep ++ " failed")
  | listval :: rest =>
    if !checkversion listval then .error (dep ++ " malformed dependency")
    else if version = some listval then .ok ()
    else listed version dep rest

def ordered (version : Option String) (dep : String) (p : String → Bool) : Except String Unit :=
  match version with
  | some v => require (p v) (dep ++ " failed")
  | none => .error "attempt to compare nil with string"

def cmpDep (version : Option String) (dep : String) : Except String Unit :=
  match operator dep with
  | none => .error (dep ++ " malformed dependency")
  | some (op, vdep) =>
    if op = "#" then listed version dep (pieces ',' [] vdep.toList)
    else if !checkversion vdep then .error (dep ++ " malformed dependency")
    else if op = "=" then require (version = some vdep) (dep ++ " failed")
    else if op = "!=" then require (version ≠ some vdep) (dep ++ " failed")
    else if op = ">" then ordered version dep fun v => vdep < v
    else if op = "<" then ordered version dep fun v => v < vdep
    else if op = ">=" then ordered version dep fun v => vdep ≤ v
    else if op = "<=" then ordered version dep fun v => v ≤ vdep
    else .error (dep ++ " : malformed dependency")

def cmpVersion (version : Option String) (deps : String) : Except String Unit :=
  (pieces ' ' [] deps.toList).forM (cmpDep version)

/-! ## The software state -/

abbrev Attributes := LuaTable String String

structure Cmp where
  name : String
  version : Option String
  provides : Attributes
  depends : Attributes
  deriving DecidableEq

structure SwState where
  cmps : LuaTable String Cmp
  /-- `feats[feature][component]` is the version the component provides. -/
  feats : LuaTable String (LuaTable String String)

def SwState.empty : SwState := ⟨∅, ∅⟩

def addFeature (feats : LuaTable String (LuaTable String String)) (feature name version : String) :
    LuaTable String (LuaTable String String) :=
  feats.insert feature (((feats.lookup feature).getD ∅).insert name version)

/-- The features in the order in which the two loops meet them, with the component that provides
each, and its version. -/
def provided (o : Order) (cmps : LuaTable String Cmp) : List (String × String × String) :=
  (o.pairs cmps.entries).flatMap fun c =>
    (o.pairs c.2.provides.entries).map fun p => (p.1, c.2.name, p.2)

def recompute (name : String) (cmps : LuaTable String Cmp) :
    LuaTable String (LuaTable String String) → List (String × String × String) →
      LuaTable String (LuaTable String String) × Except String Unit
  | feats, [] => (feats, .ok ())
  | feats, (feature, provider, version) :: rest =>
    if (cmps.lookup feature).isSome then
      (feats, .error ("invalid swstate while acting on component " ++ name ++ ": feature " ++
        feature ++ " has the same name as a component"))
    else recompute name cmps (addFeature feats feature provider version) rest

/-- The state is left changed by a call that fails. -/
def updateswstate (o : Order) (swstate : SwState) (cmp : Cmp) (install : Bool) :
    SwState × Except String Unit :=
  if install && (swstate.feats.lookup cmp.name).isSome then
    (swstate, .error ("component " ++ cmp.name ++
      " can not be installed because a feature with the same name exists"))
  else
    let cmps := if install then swstate.cmps.insert cmp.name cmp else swstate.cmps.erase cmp.name
    let (feats, res) := recompute cmp.name cmps ∅ (provided o cmps)
    (⟨cmps, feats⟩, res)

/-- `cmp_version` answers `nil`, or raises an error. -/
def accepts (version : Option String) (deps : String) : Bool := (cmpVersion version deps).isOk

def checkdep (o : Order) (swstate : SwState) (cmpname depname depval : String) :
    Except String Unit :=
  match swstate.cmps.lookup depname with
  | some cmp =>
    require (accepts cmp.version depval) (cmpname ++ " depends on component " ++ depname ++ " as " ++
      depval ++ ", the component is present but the dependency is not satisfied")
  | none =>
    match swstate.feats.lookup depname with
    | some versions =>
      require ((o.pairs versions.entries).any fun v => accepts (some v.2) depval)
        (cmpname ++ " depends on feature " ++ depname ++ " as " ++ depval ++
          ", the feature is present but the dependency is not satisfied")
    | none =>
      .error (cmpname ++ " depends on element " ++ depname ++ " as " ++ depval ++
        ", the element is not found")

def checkswstate (o : Order) (swstate : SwState) : Except String Unit :=
  (o.pairs swstate.cmps.entries).forM fun cmp =>
    (o.pairs cmp.2.depends.entries).forM fun dep => checkdep o swstate cmp.1 dep.1 dep.2

/-- A field of a table: `nil` or `false`, a value of the type the check asks for, or another
value. -/
inductive Field (α : Type) where
  | absent
  | given (a : α)
  | mistyped

namespace Field

variable {α : Type}

/-- `(not x) or (type(x) == ... and p(x))` -/
def valid (p : α → Bool) : Field α → Bool
  | absent => true
  | given a => p a
  | mistyped => false

def value : Field α → Option α
  | given a => some a
  | _ => none

def isAbsent : Field α → Bool
  | absent => true
  | _ => false

end Field

/-- A component as the manifest has it; an entry that is no table has no name.  The tables are of
their type when their keys and values are strings. -/
structure Component where
  name : Field String
  version : Field String
  location : Field String
  provides : Field Attributes
  depends : Field Attributes

structure Manifest where
  version : Field String
  force : Field Bool
  components : Field (List Component)

structure Prepared extends Cmp where
  file : Option String
  retries : Nat

/-- What `checkmanifest` gives after `nil`: a code, or none for an error that was raised, and a
text. -/
abbrev Refusal := Option Nat × String

def testtabletypes (o : Order) (t : Attributes) (checkvalue : Bool) : Bool :=
  (o.pairs t.entries).all fun e => e.1 != "" && e.2 != "" && (!checkvalue || checkversion e.2)

def Component.prepared (directory : String) (cmp : Component) : Prepared where
  name := cmp.name.value.getD ""
  version := cmp.version.value
  provides := cmp.provides.value.getD ∅
  depends := cmp.depends.value.getD ∅
  file := cmp.location.value.map fun location => directory ++ "/" ++ location
  retries := 0

/-- The checks of a component's types, and its defaults.  `accessible` is whether
`lfs.attributes` finds a file. -/
def prepare (o : Order) (accessible : String → Bool) (directory : String) (cmp : Component) :
    Except Refusal Prepared := do
  let p := cmp.prepared directory
  let text (s : String) : Refusal := (none, p.name ++ s)
  require (!cmp.name.isAbsent && cmp.name.valid (· != "")) (none, "component 'name' not valid")
  require (cmp.location.valid (· != "")) (text " 'location' not valid")
  require (cmp.version.valid fun v => v != "" && checkversion v) (text " 'version' not valid")
  require (p.file.all accessible)
    (text (" path [" ++ cmp.location.value.getD "" ++
      "] targeted by 'location' field cannot be accessed"))
  require (p.version.isNone || !cmp.location.isAbsent)
    (text " 'location' is needed when version is set")
  require (p.version.isSome || (cmp.provides.isAbsent && cmp.depends.isAbsent))
    (text " set for removal must not declare 'provides' or 'depends' fields")
  require (cmp.depends.valid fun t => testtabletypes o t false) (text " 'depends' field is invalid")
  require (cmp.provides.valid fun t => testtabletypes o t true) (text " 'provides' field is invalid")
  require (p.provides.lookup p.name).isNone
    (text " 'provides' field is invalid:  cannot contain feature with same name than component")
  return p

/-- The initial software status.  Failures of `updateswstate` are ignored. -/
def initial (o : Order) (components : LuaTable Nat Cmp) : SwState :=
  (o.pairs components.entries).foldl (fun swstate cmp => (updateswstate o swstate cmp.2 true).1)
    .empty

end Mihini.Update
