import Mihini.Lib.Rotation

/-!
# The log buffer in RAM

`logramstore` and `logramget` of `log_store.c`: entries in a ring of bytes, each behind its
size on two bytes, with the place of the oldest one and the place to write at, and no count
of what is stored. An index outside of the buffer and a loop without end are errors of the
model; the hook on the signal `erasedata` may flush the buffer with `logramget`.
-/

namespace Mihini.Log

open Lib

abbrev Str := List UInt8

inductive Stop
  | outside
  | loop
  deriving DecidableEq, Repr

/-- The buffer, whose length is `buf_size`, with `current` and `first`. -/
structure Ram where
  buf : Str
  current : Nat
  first : Nat
  deriving DecidableEq, Repr

/-! ## The buffer -/

def byteAt (buf : Str) (i : Nat) : Except Stop UInt8 :=
  match buf[i]? with
  | some x => .ok x
  | none => .error .outside

def copyOut (buf : Str) (block : Nat × Nat) : Except Stop Str :=
  if block.1 + block.2 ≤ buf.length then .ok ((buf.drop block.1).take block.2) else .error .outside

def copyIn (buf : Str) (i : Nat) (x : Str) : Except Stop Str :=
  if i + x.length ≤ buf.length then .ok (Rotation.put buf i x) else .error .outside

def readnextsize (buf : Str) (offsetin : Nat) : Except Stop (Nat × Nat) := do
  let lo ← byteAt buf offsetin
  let hi ← byteAt buf ((offsetin + 1) % buf.length)
  return (lo.toNat + hi.toNat * 256, (offsetin + 2) % buf.length)

/-- The blocks of the text of an entry: index and size, and those of the second block if there
is one. -/
def getnextcopyindexes (buf : Str) (offset : Nat) :
    Except Stop ((Nat × Nat) × Option (Nat × Nat)) := do
  let (size, firstindex) ← readnextsize buf offset
  if firstindex + size > buf.length - 1 then
    return ((firstindex, buf.length - firstindex), some (0, size - (buf.length - firstindex)))
  else
    return ((firstindex, size), none)

def writelog (r : Ram) (bufin : Str) : Except Stop Ram := do
  if r.current + bufin.length > r.buf.length then
    let pt1Size := r.buf.length - r.current
    let buf ← copyIn r.buf r.current (bufin.take pt1Size)
    let buf ← copyIn buf 0 (bufin.drop pt1Size)
    return { r with buf, current := bufin.length - pt1Size }
  else
    let buf ← copyIn r.buf r.current bufin
    return { r with buf, current := r.current + bufin.length }

def writesize (r : Ram) (size : Nat) : Except Stop Ram := do
  let buf ← copyIn r.buf r.current [UInt8.ofNat size]
  let buf ← copyIn buf ((r.current + 1) % r.buf.length) [UInt8.ofNat (size / 256)]
  return { r with buf, current := (r.current + 2) % r.buf.length }

/-! ## The calls -/

/-- The buffer after a successful `lograminit`. -/
def lograminit (size : Int) : Option Ram :=
  let bufSize := (size % 65536).toNat
  if bufSize > 2048 then none else some ⟨List.replicate bufSize 0, 0, 0⟩

/-- The loop of `logramget`. The offsets are at most the size of the buffer, or the loop ends:
when it takes more turns than there are offsets, it never ends. -/
def getLoop (r : Ram) : (fuel tmpOffset : Nat) → (lbuf : Str) → Except Stop Str
  | 0, tmpOffset, lbuf => if tmpOffset = r.current then .ok lbuf else .error .loop
  | fuel + 1, tmpOffset, lbuf =>
    if tmpOffset = r.current then .ok lbuf
    else do
      let (block1, block2) ← getnextcopyindexes r.buf tmpOffset
      let lbuf := lbuf ++ (← copyOut r.buf block1)
      match block2 with
      | some block2 =>
        let lbuf := lbuf ++ (← copyOut r.buf block2)
        if block2.1 + block2.2 > r.buf.length then .ok lbuf
        else getLoop r fuel (block2.1 + block2.2) lbuf
      | none =>
        if block1.1 + block1.2 > r.buf.length then .ok lbuf
        else getLoop r fuel (block1.1 + block1.2) lbuf

def logramget (r : Ram) : Except Stop (Except String Str × Ram) := do
  if r.current = r.first then
    return (.error "logramget: no log stored in buffer, nothing to retrieve", r)
  else
    let text ← getLoop r (r.buf.length + 1) r.first []
    return (.ok text, ⟨List.replicate r.buf.length 0, 0, 0⟩)

def spareSpace (r : Ram) : Nat :=
  if r.current ≥ r.first then r.buf.length - r.current + r.first else r.first - r.current

/-- The loop that moves `first` over older logs. Every turn frees two bytes at least. -/
def freeLoop (buf : Str) : (fuel first : Nat) → (spaceToFree : Int) → Except Stop Nat
  | 0, first, spaceToFree => if spaceToFree > 0 then .error .loop else .ok first
  | fuel + 1, first, spaceToFree =>
    if spaceToFree > 0 then do
      let (tmpSize, first) ← readnextsize buf first
      freeLoop buf fuel ((first + tmpSize) % buf.length) (spaceToFree - (2 + tmpSize))
    else .ok first

/-- What a call answers: the result of `logramstore`, and that of the `logramget` of the hook. -/
structure Answer where
  result : Except String String
  flushed : Option (Except String Str)

def erasedata (r : Ram) (logSize : Nat) (flush : Bool) :
    Except Stop (Option (Except String Str) × Ram) :=
  if spareSpace r < logSize + 2 ∧ flush = true then do
    let (answer, r) ← logramget r
    return (some answer, r)
  else return (none, r)

/-- Older logs are overwritten by moving `first`, if there is still no room. -/
def eraseOlder (r : Ram) (logSize : Nat) : Except Stop Ram :=
  if spareSpace r < logSize + 2 then do
    let spaceToFree := logSize + 2 - spareSpace r
    let first ← freeLoop r.buf spaceToFree r.first spaceToFree
    return { r with first }
  else return r

def logramstore (r : Ram) (s : Str) (flush : Bool) : Except Stop (Answer × Ram) :=
  if s.length + 2 > r.buf.length then
    return (⟨.error "logramstore: buffer too big! Log rejected!", none⟩, r)
  else if s.length = 0 then
    return (⟨.error "logramstore: new log is an empty buffer. Log rejected!", none⟩, r)
  else do
    let (flushed, r) ← erasedata r s.length flush
    let r ← eraseOlder r s.length
    let r ← writesize r s.length
    let r ← writelog r s
    return (⟨.ok "ok", flushed⟩, r)

end Mihini.Log
