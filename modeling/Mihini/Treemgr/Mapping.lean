import Mathlib.Data.List.Nodup
import Mihini.Treemgr.Path

/-!
# Mappings

The lines of the map files, as `src/agent/agent/treemgr/build.lua` compiles them, the databases
`h2l` and `l2h` of `db.lua`, and the translations of `init.lua` between logical paths and paths of
handlers.
-/

namespace Mihini.Treemgr

open Mihini.Path List

/-! ## Map files -/

/-- A line of the map file of the handler `name`. -/
structure Mount where
  lpath : Str
  name : Str
  hpath : Str

/-- `name_hpath` -/
def Mount.key (m : Mount) : Str := m.name ++ ':' :: m.hpath

structure MapFile where
  filename : String
  lines : List Str

/-- `^treemgr%s+([%S]+)$` -/
def handlerName (line : Str) : Option Str :=
  if "treemgr".toList.isPrefixOf line then
    let rest := line.drop "treemgr".length
    let name := rest.dropWhile isSpace
    if (rest.takeWhile isSpace).isEmpty || name.isEmpty || name.any isSpace then none else some name
  else none

/-- `[^=%s]` -/
def lpathChar (c : Char) : Bool := c != '=' && !isSpace c

/-- `([^=%s]+)%s*=%s*([^#]*)`, at the head of the string. -/
def fieldsHere (line : Str) : Option (Str × Str) :=
  let lpath := line.takeWhile lpathChar
  if lpath.isEmpty then none
  else
    match (line.dropWhile lpathChar).dropWhile isSpace with
    | '=' :: rest => some (lpath, (rest.dropWhile isSpace).takeWhile (· != '#'))
    | _ => none

def fields : Str → Option (Str × Str)
  | [] => none
  | c :: cs =>
    match fieldsHere (c :: cs) with
    | some r => some r
    | none => fields cs

def skipped (line : Str) : Bool :=
  match line.dropWhile isSpace with
  | [] => true
  | c :: _ => c == '#'

/-- The loop over the lines.  `i` is the number of the line. -/
def addLines (file : MapFile) (name : Str) : Nat → List Mount → List Str →
    Except String (List Mount)
  | _, db, [] => .ok db
  | i, db, line :: rest =>
    if skipped line then addLines file name (i + 1) db rest
    else
      match fields line with
      | none => .error ("Bad line #" ++ toString i ++ " in file " ++ file.filename)
      | some (lpath, hpath) =>
        let m : Mount := ⟨lpath, name, hpath⟩
        match db.find? fun m => m.lpath = lpath with
        | some m' =>
          .error ("Attempt to mount lpath " ++ String.ofList lpath ++ " several times: as " ++
            String.ofList m.key ++ " and " ++ String.ofList m'.key)
        | none => addLines file name (i + 1) (db ++ [m]) rest

def add (db : List Mount) (file : MapFile) : Except String (List Mount) :=
  match file.lines.head?.bind handlerName with
  | none => .error "Bad map file format"
  | some name => addLines file name 2 db file.lines.tail

def build (files : List MapFile) : Except String (List Mount) := files.foldlM add []

/-! ## The databases -/

/-- `^([^:]+):(.*)$` -/
def readKey (line : Str) : Option (Str × Str) :=
  match line.dropWhile (· != ':') with
  | [] => none
  | _ :: hpath =>
    let name := line.takeWhile (· != ':')
    if name.isEmpty then none else some (name, hpath)

def l2h (db : List Mount) (lpath : Str) : Option (Str × Str) :=
  (db.find? fun m => m.lpath = lpath).bind fun m => readKey m.key

def h2l (db : List Mount) (handlerName hpath : Str) : List Str :=
  (db.filter fun m => m.key = handlerName ++ ':' :: hpath).map Mount.lpath

/-! ## The translations -/

/-- The record `l2h`, less the handler itself. -/
structure L2H where
  handlerName : Str
  lpath : Str
  hpath : Str
  relpath : Str

section

variable (canon : Str → Str)

def hpath2lpath (db : List Mount) (handlerName hpath : Str) : List Str :=
  (gsplit canon hpath).flatMap fun x =>
    (h2l db handlerName x.1).map fun lmount => concat [lmount, x.2]

def lpath2hpath (db : List Mount) (lpath : Str) : Option L2H :=
  (gsplit canon lpath).findSome? fun x =>
    (l2h db x.1).map fun h => ⟨h.1, x.1, h.2, x.2⟩

/-- The handler and the path `get` passes to it. -/
def translation (db : List Mount) (lpath : Str) : Option (Str × Str) :=
  (lpath2hpath canon db lpath).map fun r => (r.handlerName, concat [r.hpath, r.relpath])

end

/-! ## What is compiled -/

/-- What every line that is added keeps holds of what is compiled. -/
theorem addLines_induct {P : List Mount → Prop} {file : MapFile} {name : Str}
    (hstep : ∀ db m, P db → m.name = name → m.lpath ∉ db.map Mount.lpath → P (db ++ [m]))
    {i : Nat} {db db' : List Mount} {lines : List Str} (hdb : P db)
    (h : addLines file name i db lines = .ok db') : P db' := by
  induction lines generalizing i db with
  | nil =>
    obtain rfl := Except.ok.inj h
    exact hdb
  | cons line rest ih =>
    rw [addLines] at h
    split at h
    · exact ih hdb h
    split at h
    · exact absurd h nofun
    · next lpath hpath hfields =>
      dsimp only at h
      split at h
      · exact absurd h nofun
      · next hnone =>
        refine ih (hstep db _ hdb rfl ?_) h
        intro hmem
        obtain ⟨m, hm, heq⟩ := mem_map.mp hmem
        exact List.find?_eq_none.mp hnone m hm (decide_eq_true heq)

theorem handlerName_ne_nil {line name : Str} (h : handlerName line = some name) : name ≠ [] := by
  rw [handlerName] at h
  split at h
  · dsimp only at h
    split at h
    · exact absurd h nofun
    · next hgood =>
      obtain rfl := Option.some.inj h
      intro heq
      rw [heq] at hgood
      simp at hgood
  · exact absurd h nofun

variable {files : List MapFile} {db : List Mount}

theorem build_induct {P : List Mount → Prop} (hnil : P [])
    (hstep : ∀ db m, P db → m.name ≠ [] → m.lpath ∉ db.map Mount.lpath → P (db ++ [m]))
    (h : build files = .ok db) : P db := by
  have hall : ∀ (files : List MapFile) (start : List Mount), P start →
      files.foldlM add start = .ok db → P db := by
    intro files
    induction files with
    | nil =>
      intro start hstart hok
      obtain rfl := Except.ok.inj hok
      exact hstart
    | cons file files ih =>
      intro start hstart hok
      rw [foldlM_cons] at hok
      cases hadd : add start file with
      | error e =>
        rw [hadd] at hok
        exact absurd hok nofun
      | ok next =>
        rw [hadd] at hok
        refine ih next ?_ hok
        rw [add] at hadd
        split at hadd
        · exact absurd hadd nofun
        · next name hname =>
          obtain ⟨line, -, hline⟩ := Option.bind_eq_some_iff.mp hname
          refine addLines_induct ?_ hstart hadd
          intro db m hdb hm hnew
          exact hstep db m hdb (hm ▸ handlerName_ne_nil hline) hnew
  exact hall files [] hnil h

theorem build_nodup (h : build files = .ok db) :
    (db.map Mount.lpath).Nodup := by
  refine build_induct (P := fun db => (db.map Mount.lpath).Nodup) nodup_nil ?_ h
  intro db m hdb _ hnew
  rw [map_append, nodup_append]
  refine ⟨hdb, nodup_singleton _, ?_⟩
  intro a ha b hb heq
  rw [map_singleton, mem_singleton] at hb
  exact hnew (by rw [← hb, ← heq]; exact ha)

theorem build_names (h : build files = .ok db) :
    ∀ m ∈ db, m.name ≠ [] := by
  refine build_induct (P := fun db => ∀ m ∈ db, m.name ≠ [])
    (fun _ hm => absurd hm not_mem_nil) ?_ h
  intro db m hdb hname _ m' hm'
  rcases mem_append.mp hm' with hm' | hm'
  · exact hdb m' hm'
  · exact (mem_singleton.mp hm') ▸ hname

theorem readKey_of_colon {name : Str} (hname : ':' ∉ name) (hpath : Str) :
    readKey (name ++ ':' :: hpath) = if name = [] then none else some (name, hpath) := by
  have hall : ∀ c ∈ name, (c != ':') = true := by
    intro c hc
    simpa using fun heq : c = ':' => hname (heq ▸ hc)
  rw [readKey, dropWhile_append_of_pos hall, takeWhile_append_of_pos hall]
  simp

end Mihini.Treemgr
