import Mathlib.Algebra.Group.Int.Defs
import Mathlib.Data.List.Basic

/-!
# The key store

`src/libs/keystore/keystore.c`: the keys in the file `crypto.key`, a line of 33 characters each.  The
obfuscation is a parameter.
-/

namespace Mihini.Keystore

open List

@[ext]
structure Key where
  bytes : List UInt8
  size : bytes.length = 16
  deriving DecidableEq

def newline : UInt8 := 10

/-! ## Digits -/

def htod (hex : UInt8) : UInt8 :=
  if 65 ≤ hex ∧ hex ≤ 70 then hex - 65 + 10
  else if 97 ≤ hex ∧ hex ≤ 102 then hex - 97 + 10
  else if 48 ≤ hex ∧ hex ≤ 57 then hex - 48
  else 0

/-- A digit of `%02x` -/
def digit (d : UInt8) : UInt8 := if d < 10 then 48 + d else 87 + d

/-! ## Reading -/

/-- `33 * key_index`, unless it is no `int`. -/
def offsetOf (keyIndex : Int) : Option Int :=
  let offset := 33 * keyIndex
  if -2 ^ 31 ≤ offset ∧ offset < 2 ^ 31 then some offset else none

inductive Read where
  | ok (key : Key)
  | error
  /-- An `int` overflows. -/
  | undefined
  deriving DecidableEq

def keyOf (hex : List UInt8) : Key where
  bytes := (List.range 16).map fun i => 0x10 * htod (hex.getD (2 * i) 0) + htod (hex.getD (2 * i + 1) 0)
  size := by simp

/-- `file` is `none` when there is no file. -/
def getObfuscatedBinKey (file : Option (List UInt8)) (keyIndex : Int) : Read :=
  match file with
  | none => .error
  | some content =>
    match offsetOf keyIndex with
    | none => .undefined
    | some offset =>
      -- a negative offset makes `fseek` fail
      if offset < 0 then .error
      else
        let hex := (content.drop offset.toNat).take 33
        if hex.length = 33 then .ok (keyOf hex) else .error

def getPlainBinKey (deobfuscate : Int → Key → Option Key) (file : Option (List UInt8)) (keyIndex : Int) :
    Read :=
  match getObfuscatedBinKey file keyIndex with
  | .ok key => (deobfuscate keyIndex key).elim .error .ok
  | r => r

/-! ## Writing -/

/-- An assignment to `content[k]`, which fails outside of the content. -/
def poke (content : List UInt8) (k : Int) (v : UInt8) : Option (List UInt8) :=
  if 0 ≤ k ∧ k < content.length then some (content.set k.toNat v) else none

/-- `sprintf( target, "%02x", byte)` -/
def printHex (content : List UInt8) (target : Int) (byte : UInt8) : Option (List UInt8) := do
  let content ← poke content target (digit (byte / 16))
  let content ← poke content (target + 1) (digit (byte % 16))
  poke content (target + 2) 0

def writeBytes (content : List UInt8) (target : Int) : List UInt8 → Option (List UInt8)
  | [] => some content
  | byte :: bytes => do
    let content ← printHex content target byte
    writeBytes content (target + 2) bytes

def writeKeys (content : List UInt8) (i : Int) : List Key → Option (List UInt8)
  | [] => some content
  | key :: keys => do
    let content ← writeBytes content (33 * i) key.bytes
    let content ← poke content (33 * i + 32) newline
    writeKeys content (i + 1) keys

/-- The content with `'0'` up to the size that is needed, and the ends of the lines. -/
def lengthen (content : List UInt8) (needed : Nat) : List UInt8 :=
  content ++ (List.range (needed - content.length)).map fun k => if k % 33 = 32 then newline else 48

/-- The content that is written back, when no access is outside of it and no `int` overflows. -/
def setObfuscatedBinKeys (file : Option (List UInt8)) (firstIndex : Int) (keys : List Key) :
    Option (List UInt8) := do
  let needed ← offsetOf (firstIndex + keys.length)
  -- a negative size is a huge one for `malloc`
  if needed < 0 then none
  else writeKeys (lengthen (file.getD []) needed.toNat) firstIndex keys

def obfuscateKeys (obfuscate : Int → Key → Option Key) (i : Int) : List Key → Option (List Key)
  | [] => some []
  | key :: keys => do
    let key ← obfuscate i key
    let keys ← obfuscateKeys obfuscate (i + 1) keys
    some (key :: keys)

def setPlainBinKeys (obfuscate : Int → Key → Option Key) (file : Option (List UInt8)) (firstIndex : Int)
    (keys : List Key) : Option (List UInt8) := do
  let keys ← obfuscateKeys obfuscate firstIndex keys
  setObfuscatedBinKeys file firstIndex keys

/-! ## Lines -/

def hexOf (byte : UInt8) : List UInt8 := [digit (byte / 16), digit (byte % 16)]

def line (key : Key) : List UInt8 := key.bytes.flatMap hexOf ++ [newline]

def filler : Key := ⟨List.replicate 16 0, rfl⟩

theorem length_hexOf (bytes : List UInt8) : (bytes.flatMap hexOf).length = 2 * bytes.length := by
  induction bytes with
  | nil => rfl
  | cons b bytes ih =>
    rw [flatMap_cons, length_append, ih, length_cons]
    show 2 + 2 * bytes.length = _
    omega

@[simp] theorem length_line (key : Key) : (line key).length = 33 := by
  rw [line, length_append, length_hexOf, key.size]
  rfl

theorem length_lines (ks : List Key) : (ks.flatMap line).length = 33 * ks.length := by
  induction ks with
  | nil => rfl
  | cons k ks ih =>
    rw [flatMap_cons, length_append, length_line, ih, length_cons]
    omega

theorem halves (b : UInt8) : 0x10 * htod (digit (b / 16)) + htod (digit (b % 16)) = b := by
  have hall : ∀ n : Fin 256, 0x10 * htod (digit (UInt8.ofNat n / 16)) + htod (digit (UInt8.ofNat n % 16)) =
      UInt8.ofNat n := by decide +kernel
  have hb := hall ⟨b.toNat, b.toNat_lt⟩
  rw [UInt8.ofNat_toNat] at hb
  exact hb

theorem getD_hexOf (bytes rest : List UInt8) {i : Nat} (hi : i < bytes.length) :
    ((bytes.flatMap hexOf ++ rest).getD (2 * i) 0 = digit (bytes[i] / 16)) ∧
      (bytes.flatMap hexOf ++ rest).getD (2 * i + 1) 0 = digit (bytes[i] % 16) := by
  induction bytes generalizing i with
  | nil => exact absurd hi (Nat.not_lt_zero i)
  | cons b bytes ih =>
    cases i with
    | zero => exact ⟨rfl, rfl⟩
    | succ i => exact ih (Nat.lt_of_succ_lt_succ hi)

theorem keyOf_line (key : Key) : keyOf (line key) = key := by
  have hbytes : ((List.range 16).map fun i => 0x10 * htod ((line key).getD (2 * i) 0) +
      htod ((line key).getD (2 * i + 1) 0)) = key.bytes := by
    refine ext_getElem (by rw [key.size, length_map, length_range]) fun i _ hi => ?_
    obtain ⟨hhigh, hlow⟩ := getD_hexOf key.bytes [newline] hi
    rw [getElem_map, getElem_range, line, hhigh, hlow]
    exact halves _
  exact Key.ext hbytes

end Mihini.Keystore
