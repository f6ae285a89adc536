import Mathlib.Data.List.Basic
import Mihini.Lib.Numerals

/-!
# HTTP messages

Lines, fields and bodies of messages, with a length or in chunks, read from a stream of characters.
-/

namespace Mihini.Lib.Http

abbrev Str := List Char

def crlf : Str := ['\r', '\n']

/-! ## Lines -/

def IsLine (s : Str) : Prop := '\r' ∉ s ∧ '\n' ∉ s

instance : DecidablePred IsLine := fun s => inferInstanceAs (Decidable ('\r' ∉ s ∧ '\n' ∉ s))

def takeLine : Str → Option (Str × Str)
  | [] => none
  | c :: s =>
    if c = '\n' then some ([], s)
    else (takeLine s).map fun x => (if c = '\r' then x.1 else c :: x.1, x.2)

theorem isLine_of_takeLine {s l rest : Str} (h : takeLine s = some (l, rest)) :
    IsLine l ∧ rest.length < s.length := by
  induction s generalizing l rest with
  | nil => cases h
  | cons c s ih =>
    rw [takeLine] at h
    by_cases hc : c = '\n'
    · rw [if_pos hc] at h
      obtain ⟨rfl, rfl⟩ := Prod.mk.inj (Option.some.inj h)
      exact ⟨⟨nofun, nofun⟩, Nat.lt_succ_self _⟩
    rw [if_neg hc] at h
    obtain ⟨x, hx, heq⟩ := Option.map_eq_some_iff.mp h
    obtain ⟨rfl, rfl⟩ := Prod.mk.inj heq
    obtain ⟨⟨hr, hn⟩, hlt⟩ := ih hx
    refine ⟨?_, Nat.lt_succ_of_lt hlt⟩
    by_cases hcr : c = '\r'
    · rw [if_pos hcr]
      exact ⟨hr, hn⟩
    · rw [if_neg hcr]
      exact ⟨List.not_mem_cons_of_ne_of_not_mem (Ne.symm hcr) hr,
        List.not_mem_cons_of_ne_of_not_mem (Ne.symm hc) hn⟩

/-! ## Bodies -/

def takeBytes (n : Nat) (s : Str) : Option (Str × Str) :=
  if n ≤ s.length then some (s.take n, s.drop n) else none

theorem takeBytes_append (l s : Str) : takeBytes l.length (l ++ s) = some (l, s) := by
  rw [takeBytes, if_pos (by rw [List.length_append]; omega), List.take_left, List.drop_left]

theorem length_of_takeBytes {n : Nat} {s l rest : Str} (h : takeBytes n s = some (l, rest)) :
    l.length = n ∧ l ++ rest = s := by
  unfold takeBytes at h
  split at h
  next hle =>
    obtain ⟨rfl, rfl⟩ := Prod.mk.inj (Option.some.inj h)
    exact ⟨List.length_take_of_le hle, List.take_append_drop n s⟩
  next => cases h

def takeData (n : Nat) (s : Str) : Option (Str × Str) :=
  match takeBytes n s with
  | none => none
  | some (data, s) =>
    match takeBytes 2 s with
    | none => none
    | some (ending, s) => if ending = crlf then some (data, s) else none

theorem takeData_length {n : Nat} {s data rest : Str} (h : takeData n s = some (data, rest)) :
    data.length + rest.length + 2 = s.length := by
  unfold takeData at h
  cases hdata : takeBytes n s with
  | none =>
    rw [hdata] at h
    cases h
  | some y =>
    have hlength := congrArg List.length (length_of_takeBytes hdata).2
    simp only [hdata] at h
    cases hend : takeBytes 2 y.2 with
    | none =>
      rw [hend] at h
      cases h
    | some z =>
      have htwo := (length_of_takeBytes hend).1
      have hlength' := congrArg List.length (length_of_takeBytes hend).2
      simp only [hend] at h
      rw [List.length_append] at hlength hlength'
      split_ifs at h
      obtain ⟨rfl, rfl⟩ := Prod.mk.inj (Option.some.inj h)
      omega

/-- A chunk: its size, which `sizeOf` reads, and its data. -/
def takeChunk (sizeOf : Str → Option Nat) (s : Str) : Option (Str × Str) :=
  match takeLine s with
  | none => none
  | some (size, s) =>
    match sizeOf size with
    | none => none
    | some n => takeData n s

theorem takeChunk_length {sizeOf : Str → Option Nat} {s data rest : Str}
    (h : takeChunk sizeOf s = some (data, rest)) : data.length + rest.length + 2 < s.length := by
  unfold takeChunk at h
  cases hline : takeLine s with
  | none =>
    rw [hline] at h
    cases h
  | some x =>
    have hlt := (isLine_of_takeLine hline).2
    simp only [hline] at h
    cases hsize : sizeOf x.1 with
    | none =>
      rw [hsize] at h
      cases h
    | some n =>
      simp only [hsize] at h
      have hlength := takeData_length h
      omega

def takeChunks (sizeOf : Str → Option Nat) (s : Str) : Option (Str × Str) :=
  match h : takeChunk sizeOf s with
  | none => none
  | some (data, rest) =>
    if data = [] then some ([], rest)
    else (takeChunks sizeOf rest).map fun x => (data ++ x.1, x.2)
  termination_by s.length
  decreasing_by
    have hlt := takeChunk_length h
    omega

def chunkOf (size data : Str) : Str := size ++ (crlf ++ (data ++ crlf))

def chunk (data : Str) : Str := chunkOf (toNumeral 16 data.length) data

theorem isLine_toNumeral {b : Nat} (hb : 1 < b) (hb' : b ≤ 16) (n : Nat) : IsLine (toNumeral b n) :=
  ⟨not_mem_toNumeral hb hb' n (by decide), not_mem_toNumeral hb hb' n (by decide)⟩

abbrev Field := Str × Str

structure IsField (f : Field) : Prop where
  name_ne : f.1 ≠ []
  colon : ':' ∉ f.1
  name : IsLine f.1
  value : IsLine f.2

def fieldLine (f : Field) : Str := f.1 ++ (':' :: ' ' :: f.2)

def parseField (line : Str) : Option Field :=
  let name := line.takeWhile (· ≠ ':')
  if name = [] then none
  else
    match line.dropWhile (· ≠ ':') with
    | ':' :: ' ' :: value => some (name, value)
    | _ => none

def takeFields (s : Str) : Option (List Field × Str) :=
  match h : takeLine s with
  | none => none
  | some (line, rest) =>
    if line = [] then some ([], rest)
    else
      match parseField line with
      | none => none
      | some f => (takeFields rest).map fun x => (f :: x.1, x.2)
  termination_by s.length
  decreasing_by exact (isLine_of_takeLine h).2

def head (start : Str) (fields : List Field) : Str :=
  start ++ (crlf ++ (fields.flatMap (fun f => fieldLine f ++ crlf) ++ crlf))

inductive Framing where
  | chunked
  | length (n : Nat)
  | untilClosed
  | unknown
  deriving DecidableEq

def lower (s : Str) : Str := s.map Char.toLower

def valuesOf (fields : List Field) (name : String) : List Str :=
  fields.filterMap fun f => if lower f.1 = name.toList then some f.2 else none

/-- The framing for the values of `Transfer-Encoding` and of `Content-Length`. -/
def framingOf : List Str → List Str → Framing
  | [coding], _ => if lower coding = "chunked".toList then .chunked else .unknown
  | [], [value] =>
    match ofNumeral 10 value with
    | some n => .length n
    | none => .unknown
  | [], [] => .untilClosed
  | _, _ => .unknown

def framing (fields : List Field) : Framing :=
  framingOf (valuesOf fields "transfer-encoding") (valuesOf fields "content-length")

/-- The body of a message with what follows it, where the connection may be closed after `s`. -/
def takeBody (closed : Bool) (framing : Framing) (s : Str) : Option (Str × Str) :=
  match framing with
  | .chunked => takeChunks (ofNumeral 16) s
  | .length n => takeBytes n s
  | .untilClosed => if closed then some (s, []) else none
  | .unknown => none

/-- The first line and the body of a message, and what follows it; there is no body after a first line
that is `bodiless`. -/
def takeMessage (bodiless : Str → Bool) (closed : Bool) (s : Str) : Option (Str × Str × Str) :=
  match takeLine s with
  | none => none
  | some (start, s) =>
    match takeFields s with
    | none => none
    | some (fields, s) =>
      if bodiless start then some (start, [], s)
      else (takeBody closed (framing fields) s).map fun x => (start, x.1, x.2)

end Mihini.Lib.Http
