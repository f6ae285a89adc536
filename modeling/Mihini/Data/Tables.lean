import Mathlib.Data.Char
import Mathlib.Data.List.Lex
import Mathlib.Data.List.Sort
import Mihini.Lib.LuaTable
import Mihini.Treemgr.Path

/-!
# The tables of the data manager

`TABLES` and the two maps of each policy in `src/agent/agent/asscon/datamanager.lua`, and the
operations that keep them: `TableNew`, `ConsoNew` and `close_table`.  A table is an object that may
outlive its place in `TABLES`, and is referred to by its number.
-/

namespace Mihini.Data

open Mihini.Lib Mihini.Path

def never : Str := "never".toList

/-! ## Columns -/

structure Column where
  keyed : Bool
  name : Str

def sortNames (names : List Str) : List Str := names.insertionSort fun a b => a ≤ b

def getTableId (path storage : Str) (columns : List Column) : Str :=
  storage ++ ':' :: path ++ '-' :: ['-'].intercalate (sortNames (columns.map Column.name)) ++
    ".tbl".toList

/-- `match_columns`.  The loop is over the columns of the list. -/
def matchColumns (tblcols : List Str) (columns : List Column) : Bool :=
  let newcols := columns.map Column.name
  let n := (columns.filter fun c => !c.keyed).length
  newcols.length = tblcols.length && (sortNames newcols).take n = (sortNames tblcols).take n

/-! ## The maps -/

structure Table where
  id : Str
  path : Str
  columns : List Str
  sendPolicy : Str
  consoPolicy : Option Str
  consoTable : Option Nat
  srcTable : Option Nat

structure Tables where
  objects : List Table
  tables : LuaTable Str Nat
  /-- `P.tables`, by policy and id -/
  policyTables : LuaTable (Str × Str) Nat
  consolidations : LuaTable (Str × Str) Nat

namespace Tables

def init : Tables := ⟨[], ∅, ∅, ∅⟩

/-- `TABLES[id]`: which object it is, and its fields. -/
def find (T : Tables) (id : Str) : Option (Nat × Table) :=
  (T.tables.lookup id).bind fun o => T.objects[o]?.map fun t => (o, t)

def closeTable (T : Tables) (id : Str) : Except String Tables :=
  match T.find id with
  | none => .error "no such table"
  | some (_, t) =>
    if t.srcTable.isSome then .error "cannot close a destination table before its source."
    else .ok {
      objects := match t.consoTable with
        | none => T.objects
        | some d => T.objects.modify d fun dst => { dst with srcTable := none }
      tables := T.tables.erase id
      policyTables := T.policyTables.filter fun k _ => k.2 ≠ id
      consolidations := T.consolidations.filter fun k _ => k.2 ≠ id }

/-- The end of `TableNew`. -/
def listTable (T : Tables) (o : Nat) (policy id : Str) : Tables :=
  { T with
    objects := T.objects.modify o fun t => { t with sendPolicy := policy }
    policyTables := T.policyTables.insert (policy, id) o
    tables := T.tables.insert id o }

/-- The end of `ConsoNew`. -/
def linkTable (T : Tables) (src dst : Nat) (srcId dstId sendPolicy consoPolicy : Str) : Tables :=
  { objects := (T.objects.modify dst fun t => { t with sendPolicy := sendPolicy }).modify src
      fun t => { t with consoTable := some dst, consoPolicy := some consoPolicy }
    policyTables := T.policyTables.insert (sendPolicy, dstId) dst
    consolidations := T.consolidations.insert (consoPolicy, srcId) src
    tables := T.tables.insert dstId dst }

def addObject (T : Tables) (t : Table) : Tables := { T with objects := T.objects ++ [t] }

section

local instance : LawfulBEq Str := inferInstance

variable (policies : List Str)

/-- `POLICIES[policy or 'default']` -/
def policyOf (policy : Option Str) : Option Str :=
  let policy := policy.getD "default".toList
  if policy ∈ policies then some policy else none

/-- The part of `TableNew` that makes a table.  `failure` is the error of `stagedb`. -/
def createTable (T : Tables) (id path : Str) (columns : List Column) (policy : Str)
    (failure : Option String) : Tables × Except String Str :=
  match failure with
  | some msg => (T, .error msg)
  | none =>
    let t : Table := ⟨id, path, columns.map Column.name, policy, none, none, none⟩
    (listTable (T.addObject t) T.objects.length policy id, .ok id)

def tableNew (T : Tables) (asset path storage : Str) (policy : Option Str) (columns : List Column)
    (purge : Bool) (failure : Option String) : Tables × Except String Str :=
  let path := concat [asset, path]
  let id := getTableId path storage columns
  match policyOf policies policy with
  | none => (T, .error "no such policy")
  | some P =>
    match T.find id with
    | none => createTable T id path columns P failure
    | some (o, t) =>
      if t.srcTable.isSome then
        (T, .error ("cannot create or retrieve " ++ String.ofList id ++
          " because it is a destination table."))
      else if purge then
        match closeTable T id with
        | .error msg => (T, .error msg)
        | .ok T => createTable T id path columns P failure
      else if !matchColumns t.columns columns then
        (T, .error ("cannot reuse " ++ String.ofList id ++ ": columns does not match"))
      else (listTable T o P id, .ok id)

/-- The part of `ConsoNew` that makes the destination.  `newconsolidation` fails when the source has
one already or is closed. -/
def createConsolidation (T : Tables) (src : Nat) (srcId dstId dstPath : Str)
    (columns : List Column) (sendPolicy consoPolicy : Str) (failure : Option String) :
    Tables × Except String Str :=
  match T.find srcId, failure with
  | some (o, t), none =>
    if o = src ∧ t.consoTable = none then
      let dst : Table :=
        ⟨dstId, dstPath, columns.map Column.name, sendPolicy, none, none, some src⟩
      (linkTable (T.addObject dst) src T.objects.length srcId dstId sendPolicy consoPolicy,
        .ok dstId)
    else (T, .error "INVALID")
  | none, none => (T, .error "BADSTATE")
  | _, some msg => (T, .error msg)

variable (canon : Str → Str)

def consoNew (T : Tables) (srcId path storage : Str) (columns : List Column)
    (sendPolicy consoPolicy : Option Str) (purge : Bool) (failure : Option String) :
    Tables × Except String Str :=
  match T.find srcId with
  | none => (T, .error "no such source table")
  | some (src, t) =>
    let dstPath := concat [splitFirst canon t.path, path]
    let dstId := getTableId dstPath storage columns
    match policyOf policies sendPolicy, policyOf policies consoPolicy with
    | none, _ => (T, .error "no such send policy")
    | _, none => (T, .error "no such consolidation policy")
    | some SP, some CP =>
      if t.sendPolicy ≠ never ∧ CP ≠ never then
        (T, .error "either send or consolidation policy for source must be 'never'")
      else
        match T.find dstId with
        | none => createConsolidation T src srcId dstId dstPath columns SP CP failure
        | some (dst, d) =>
          if t.consoTable = some dst then
            if purge then (T, .error "cannot purge consolidation table while source is still open")
            else if !matchColumns d.columns columns then
              (T, .error "attempt to concatenate global 'table_id' (a nil value)")
            else (linkTable T src dst srcId dstId SP CP, .ok dstId)
          else if t.consoTable.isSome then
            (T, .error (String.ofList srcId ++ " already has a consolidation table"))
          else if !purge then (T, .error "table already exists")
          else
            match closeTable T dstId with
            | .error msg => (T, .error msg)
            | .ok T => createConsolidation T src srcId dstId dstPath columns SP CP failure

end

/-! ## Runs -/

inductive Event where
  | tableNew (asset path storage : Str) (policy : Option Str) (columns : List Column)
      (purge : Bool) (failure : Option String)
  | consoNew (srcId path storage : Str) (columns : List Column)
      (sendPolicy consoPolicy : Option Str) (purge : Bool) (failure : Option String)
  | closeTable (id : Str)

def step (policies : List Str) (canon : Str → Str) (T : Tables) : Event → Tables
  | .tableNew asset path storage policy columns purge failure =>
    (tableNew policies T asset path storage policy columns purge failure).1
  | .consoNew srcId path storage columns sendPolicy consoPolicy purge failure =>
    (consoNew policies canon T srcId path storage columns sendPolicy consoPolicy purge failure).1
  | .closeTable id =>
    match closeTable T id with
    | .error _ => T
    | .ok T => T

end Tables

end Mihini.Data
