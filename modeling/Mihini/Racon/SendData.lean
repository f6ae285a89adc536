import Mihini.Lib.LuaTable
import Mihini.Racon.AssetTree

/-!
# Server messages in the asset library

`emp_handler_SendData` of `src/luafwk/racon/asset/tree.lua`, in the command loop of `empparser.lua`:
a message is made a tree of data, which is given to the tree of its asset, and the ticket of the
message is acknowledged with what comes back.
-/

namespace Mihini.Racon.SendData

open Mihini.Lib List
open Mihini.Path (Str concat)
open Mihini.Racon.AssetTree

inductive Field where
  | null
  | number (x : Number)
  | string (s : Str)
  deriving DecidableEq

/-- The body is `none` for `null`.  Its fields are in the order in which `pairs` gives them. -/
structure Message where
  path : Field
  ticketid : Field
  body : Option Fields

/-- A call of `racon.acknowledge` that sends its command. -/
structure Ack where
  ticket : Number
  status : Number
  deriving DecidableEq

/-- `errnum 'WRONG_PARAMS'`: there is no such name. -/
def wrongParams : Number := 1

section

variable (tonumber : Str → Option Number) (tostring : Number → Str)

def text : Key → Str
  | .number x => tostring x
  | .string s => s

def segments (path : Str) : List Key :=
  ((path.splitOn '.').filter fun elt => !elt.isEmpty).map fun elt =>
    match tonumber elt with
    | some x => .number x
    | none => .string elt

def split (path : Str) : Str × Str :=
  let segs := segments tonumber path
  if segs.isEmpty then (path, [])
  else (concat ((segs.take 1).map (text tostring)), concat ((segs.drop 1).map (text tostring)))

def Field.number? : Field → Option Number
  | .null => none
  | .number x => some x
  | .string s => tonumber s

def entries (path : Str) (record : Fields) : List (List Key × Value) :=
  record.toList.map fun x => (segments tonumber (concat [path, text tostring x.1]), x.2)

/-- `treeimg`, or `none` when an error is raised: there is no field without a key. -/
def treeimg (path : Str) (record : Fields) : Option Fields :=
  let entries := entries tonumber tostring path record
  if entries.any (·.1.isEmpty) then none
  else some (entries.foldl (fun img x => img.set Key.before x.1 x.2) .nil)

/-- `record.__class == "Response"` -/
def isResponse (record : Fields) : Bool :=
  match record.lookup (.string ['_', '_', 'c', 'l', 'a', 's', 's']) with
  | some (.leaf (.string s)) => s = ['R', 'e', 's', 'p', 'o', 'n', 's', 'e']
  | _ => false

end

def statusOf : Result → Number
  | .number x => x
  | .falsy => -1
  | _ => 0

/-- What the tree of an asset does with data: what is returned by the function, or by
`match_asset_data_trees`, the tree afterwards and the effects.  A value that is neither a function
nor a table cannot be indexed. -/
def handle (answers : Nat → Answer) (tree : Value) (img : Fields) : Answer × Value × List Effect :=
  match tree with
  | .leaf (.handler h) =>
    (h.answer answers [], tree, [.call h [] (.table img) (h.answer answers [])])
  | .leaf _ => (.raises, tree, [])
  | .table fields =>
    let (status, tree, effects) := matchAssetDataTrees answers [] none (.table img) fields []
    (status.answer, tree, effects)

structure Sent where
  /-- The status, or `none` when an error is raised. -/
  status : Option Number
  acks : List Ack
  answer : Option Answer
  effects : List Effect
  assets : LuaTable Str (Option Value)

/-- The acknowledgement of what a tree answered.  An error in the tree is caught; the check of the
argument `errmsg` raises another one. -/
def acknowledge (ticket : Number) (answer : Answer) : Option Number × List Ack :=
  let (code, msg) : Result × Msg :=
    match answer with
    | .returns code msg => (code, msg)
    | .raises => (.number (-1), .string)
  if ticket ≠ 0 ∧ code ≠ .async then
    if msg = .other then (none, []) else (some (statusOf code), [⟨ticket, statusOf code⟩])
  else (some (statusOf code), [])

/-- The answer of a tree, with the effects that led to it, is good for all of the data: there was no
error, and each leaf was handed over or stored once. -/
def Good (answer : Answer) (effects : List Effect) (data : List (List Key × Atom)) : Prop :=
  (∃ code msg, answer = .returns code msg) ∧ (∀ e ∈ effects, ¬ e.Fails) ∧
    data.Perm (effects.flatMap Effect.leaves)

def Sent.Complete (s : Sent) (data : List (List Key × Atom)) : Prop :=
  ∃ answer, s.answer = some answer ∧ Good answer s.effects data

section

variable (tonumber : Str → Option Number) (tostring : Number → Str)

/-- `emp_handler_SendData`, for the open assets of a library and a message with a path and a
body. -/
def empHandlerSendData (answers : Nat → Answer) (assets : LuaTable Str (Option Value))
    (dataPath : Str) (ticketid : Field) (record : Fields) : Sent :=
  let id := (split tonumber tostring dataPath).1
  let path := (split tonumber tostring dataPath).2
  match assets.lookup id with
  | none => ⟨some wrongParams, [], none, [], assets⟩
  | some none => ⟨some 0, [], none, [], assets⟩
  | some (some (.leaf (.bool false))) => ⟨some 0, [], none, [], assets⟩
  | some (some tree) =>
    if isResponse record then ⟨some 0, [], none, [], assets⟩
    else
      match treeimg tonumber tostring path record with
      | none => ⟨none, [], none, [], assets⟩
      | some img =>
        let (answer, tree, effects) := handle answers tree img
        let (status, acks) := acknowledge ((ticketid.number? tonumber).getD 0) answer
        ⟨status, acks, some answer, effects, assets.insert id (some tree)⟩

/-- The status in the reply: `execcmd` takes an error for wrong parameters. -/
def Sent.reply (s : Sent) : Number := s.status.getD wrongParams

def recordLeaves (path : Str) (record : Fields) : List (List Key × Atom) :=
  (entries tonumber tostring path record).flatMap fun x => below x.1 x.2.leaves

/-- No path of a record is empty, and none leads to or through another one. -/
def Spread (path : Str) (record : Fields) : Prop :=
  (∀ x ∈ entries tonumber tostring path record, x.1 ≠ []) ∧
    (entries tonumber tostring path record).Pairwise fun x y => Apart x.1 y.1

instance (path : Str) (record : Fields) : Decidable (Spread tonumber tostring path record) :=
  inferInstanceAs (Decidable (_ ∧ _))

variable {tonumber tostring}

theorem treeimg_leaves {path : Str} {record : Fields} (h : Spread tonumber tostring path record) :
    ∃ img, treeimg tonumber tostring path record = some img ∧
      img.leaves.Perm (recordLeaves tonumber tostring path record) := by
  refine ⟨_, if_neg ?_, ?_⟩
  · intro hany
    obtain ⟨x, hx, hempty⟩ := any_eq_true.mp hany
    exact h.1 x hx (isEmpty_iff.mp hempty)
  · refine LuaFields.leaves_sets Key.before ?_ h.2
    intro x hx
    cases hpath : x.1 with
    | nil => exact absurd hpath (h.1 x hx)
    | cons k ks => exact LuaFields.nil_free k ks

end

/-! ## The acknowledgement -/

def Sendable : Answer → Prop
  | .returns _ msg => msg ≠ .other
  | .raises => True

/-- The handlers of a tree return what the documentation of the module asks for, with a message that
can be sent.  The token for `null` in the place of the tree is no handler. -/
def Fit (answers : Nat → Answer) : Value → Prop
  | .leaf (.handler .niltoken) => False
  | .leaf (.handler (.application _)) => Sendable (answers 0)
  | .leaf _ => True
  | .table _ => ∀ i, (answers i).Plain

theorem acknowledge_raises {ticket : Number} (hticket : ticket ≠ 0) :
    acknowledge ticket .raises = (some (-1), [⟨ticket, -1⟩]) :=
  (if_pos ⟨hticket, nofun⟩ : _ = ite (Msg.string = .other) _ _).trans (if_neg nofun)

theorem acknowledge_returns {ticket : Number} (hticket : ticket ≠ 0) {code : Result} {msg : Msg}
    (hcode : code ≠ .async) (hmsg : msg ≠ .other) :
    acknowledge ticket (.returns code msg) = (some (statusOf code), [⟨ticket, statusOf code⟩]) :=
  (if_pos ⟨hticket, hcode⟩ : _ = ite (msg = .other) _ _).trans (if_neg hmsg)

def Acknowledged (ticket : Number) (acks : List Ack) (good : Prop) : Prop :=
  ∃ status, acks = [⟨ticket, status⟩] ∧ (status = 0 ↔ good)

section

variable {ticket : Number} {data : List (List Key × Atom)}

theorem raises_acknowledged (hticket : ticket ≠ 0) (effects : List Effect) :
    Acknowledged ticket (acknowledge ticket .raises).2 (Good .raises effects data) := by
  rw [acknowledge_raises hticket]
  refine ⟨-1, rfl, fun h => absurd h (by decide), ?_⟩
  rintro ⟨⟨code, msg, h⟩, -⟩
  nomatch h

theorem accounts_acknowledged (hticket : ticket ≠ 0) {status : Status} {effects : List Effect}
    (h : Accounts status data [] effects) (hasync : ∀ e ∈ effects, ¬ e.Async) :
    Acknowledged ticket (acknowledge ticket status.answer).2
      (Good status.answer effects data) := by
  cases status with
  | ok =>
    have hack : acknowledge ticket (.returns .ok .nil) = (some 0, [⟨ticket, 0⟩]) :=
      acknowledge_returns hticket nofun nofun
    rw [Status.answer, hack]
    refine ⟨0, rfl, fun _ => ⟨⟨.ok, .nil, rfl⟩, h.1, ?_⟩, fun _ => rfl⟩
    rw [← append_nil (effects.flatMap _)]
    exact h.2
  | async =>
    obtain ⟨e, he, hasync'⟩ := h
    exact absurd hasync' (hasync e he)
  | failed code msg =>
    obtain ⟨hcode, hmsg, e, he, hfails⟩ := h
    have hack : acknowledge ticket (.returns (.number code) msg) = (some code, [⟨ticket, code⟩]) :=
      acknowledge_returns hticket nofun hmsg
    rw [Status.answer, hack]
    exact ⟨code, rfl, fun hzero => absurd hzero hcode, fun hgood => absurd hfails (hgood.2.1 e he)⟩
  | raised => exact raises_acknowledged hticket effects

/-- What a function in the place of the tree returns. -/
theorem function_acknowledged (hticket : ticket ≠ 0) (n : Nat) (img : Fields) {answer : Answer}
    (h : Sendable answer) (hasync : ¬ (Effect.call (.application n) [] (.table img) answer).Async) :
    Acknowledged ticket (acknowledge ticket answer).2
      (Good answer [.call (.application n) [] (.table img) answer] img.leaves) := by
  cases answer with
  | raises => exact raises_acknowledged hticket _
  | returns code msg =>
    have hcode : code ≠ .async := by
      intro heq
      subst heq
      exact hasync trivial
    have hgood : ¬ (Effect.call (.application n) [] (.table img) (.returns code msg)).Fails →
        Good (.returns code msg) [.call (.application n) [] (.table img) (.returns code msg)]
          img.leaves := by
      intro hfine
      refine ⟨⟨code, msg, rfl⟩, ?_, ?_⟩
      · intro e he
        rw [mem_singleton.mp he]
        exact hfine
      · rw [flatMap_singleton]
        show img.leaves.Perm (below [] img.leaves)
        rw [below_nil]
    rw [acknowledge_returns hticket hcode h]
    refine ⟨statusOf code, rfl, fun hzero => hgood ?_, fun hall => ?_⟩
    · intro hfails
      cases code with
      | number x => exact hfails hzero
      | falsy => exact absurd hzero (by decide)
      | ok => exact hfails
      | truthy => exact hfails
      | async => exact hfails
    · have hfine := hall.2.1 _ (mem_singleton_self _)
      cases code with
      | number x => exact Classical.byContradiction hfine
      | falsy => exact absurd trivial hfine
      | ok => rfl
      | truthy => rfl
      | async => rfl

/-- What the tree of an asset does with some data is acknowledged once, with zero if and only if all
of them were handled without error. -/
theorem handle_acknowledged (hticket : ticket ≠ 0) {answers : Nat → Answer} {tree : Value}
    (hfit : Fit answers tree) (img : Fields)
    (hasync : ∀ e ∈ (handle answers tree img).2.2, ¬ e.Async) :
    Acknowledged ticket (acknowledge ticket (handle answers tree img).1).2
      (Good (handle answers tree img).1 (handle answers tree img).2.2 img.leaves) := by
  cases tree with
  | leaf a =>
    cases a with
    | handler h =>
      cases h with
      | niltoken => exact hfit.elim
      | application n =>
        exact function_acknowledged hticket n img hfit (hasync _ (mem_singleton_self _))
    | bool => exact raises_acknowledged hticket []
    | number => exact raises_acknowledged hticket []
    | string => exact raises_acknowledged hticket []
  | table fields =>
    obtain ⟨done, heffects, haccounts⟩ :=
      matchAssetDataTrees_accounts hfit [] none (.table img) fields []
    rw [nil_append] at heffects
    rw [below_nil] at haccounts
    have hall : (handle answers (.table fields) img).2.2 = done := heffects
    rw [hall] at hasync ⊢
    exact accounts_acknowledged hticket haccounts hasync

end

section

variable {tonumber : Str → Option Number} {tostring : Number → Str} {answers : Nat → Answer}
  {assets : LuaTable Str (Option Value)} {dataPath : Str} {ticketid : Field} {record : Fields}

/-- There is no effect for a command that is refused. -/
theorem empHandlerSendData_open {tree : Value} {img : Fields}
    (hopen : assets.lookup (split tonumber tostring dataPath).1 = some (some tree))
    (htree : tree ≠ .leaf (.bool false)) (hrecord : isResponse record = false)
    (himg : treeimg tonumber tostring (split tonumber tostring dataPath).2 record = some img) :
    empHandlerSendData tonumber tostring answers assets dataPath ticketid record =
      let (answer, tree, effects) := handle answers tree img
      let (status, acks) := acknowledge ((ticketid.number? tonumber).getD 0) answer
      ⟨status, acks, some answer, effects,
        assets.insert (split tonumber tostring dataPath).1 (some tree)⟩ := by
  simp only [empHandlerSendData, hopen, hrecord, himg]
  rfl

/-- A message for an open asset is acknowledged once. -/
theorem empHandlerSendData_acknowledged {tree : Value} {ticket : Number}
    (hopen : assets.lookup (split tonumber tostring dataPath).1 = some (some tree))
    (htree : tree ≠ .leaf (.bool false)) (hfit : Fit answers tree)
    (hrecord : isResponse record = false)
    (hspread : Spread tonumber tostring (split tonumber tostring dataPath).2 record)
    (hnumber : ticketid.number? tonumber = some ticket) (hticket : ticket ≠ 0)
    {s : Sent}
    (hs : empHandlerSendData tonumber tostring answers assets dataPath ticketid record = s)
    (hasync : ∀ e ∈ s.effects, ¬ e.Async) :
    Acknowledged ticket s.acks (s.Complete
      (recordLeaves tonumber tostring (split tonumber tostring dataPath).2 record)) := by
  obtain ⟨img, himg, hleaves⟩ := treeimg_leaves hspread
  rw [empHandlerSendData_open hopen htree hrecord himg, hnumber] at hs
  subst hs
  obtain ⟨status, hacks, hgood⟩ := handle_acknowledged hticket hfit img hasync
  refine ⟨status, hacks, hgood.trans ⟨fun h => ?_, ?_⟩⟩
  · exact ⟨_, rfl, h.1, h.2.1, hleaves.symm.trans h.2.2⟩
  · rintro ⟨answer, hanswer, h⟩
    obtain rfl := Option.some.inj hanswer
    exact ⟨h.1, h.2.1, hleaves.trans h.2.2⟩

end

end Mihini.Racon.SendData
