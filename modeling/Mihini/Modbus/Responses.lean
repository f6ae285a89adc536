import Mathlib.Logic.Function.Basic
import Mathlib.Tactic.SplitIfs

/-!
# Raw Modbus responses

`ParseRawData` of `modbus_serializer.c`. The buffer and the memory of the caller are functions of the
place.
-/

namespace Mihini.Modbus

open Function

structure ModbusResponse where
  startingAddress : UInt16
  numberOfObjects : UInt16
  byteCount : UInt16
  pValues : Nat → UInt8

/-- `for (index = 0; index < byteCount; index++)`, with the turns that are left. -/
def copyLoop (value : Nat → UInt8) (byteCount : UInt16) :
    Nat → UInt8 → (Nat → UInt8) → Option (Nat → UInt8)
  | 0, _, _ => none
  | turns + 1, index, pValues =>
    if index.toUInt16 < byteCount then
      copyLoop value byteCount turns (index + 1) (update pValues index.toNat (value index.toNat))
    else some pValues

/-- The response is put where the values of the request are. -/
def parseRawData (pResponseBuffer : Nat → UInt8) (slaveAddrOffset : UInt8)
    (responseBufferLength : UInt16) (pValues : Nat → UInt8) (turns : Nat) : Option ModbusResponse :=
  let byteCount := responseBufferLength - slaveAddrOffset.toUInt16
  (copyLoop (fun index => pResponseBuffer (slaveAddrOffset.toNat + index)) byteCount turns 0
    pValues).map (⟨0, byteCount >>> 1, byteCount, ·⟩)

def filled (value pValues : Nat → UInt8) (count : Nat) : Nat → UInt8 :=
  fun i => if i < count then value i else pValues i

theorem filled_zero (value pValues : Nat → UInt8) : filled value pValues 0 = pValues :=
  funext fun i => if_neg (Nat.not_lt_zero i)

theorem filled_succ (value pValues : Nat → UInt8) (n : Nat) :
    update (filled value pValues n) n (value n) = filled value pValues (n + 1) := by
  funext i
  by_cases hi : i = n
  · rw [hi, update_self, filled, if_pos n.lt_succ_self]
  · have hlt : i < n ↔ i < n + 1 := by omega
    rw [update_of_ne hi, filled, filled, if_congr hlt rfl rfl]

theorem copyLoop_eq (value : Nat → UInt8) (byteCount : UInt16) (turns : Nat) (index : UInt8)
    (pValues : Nat → UInt8) :
    copyLoop value byteCount turns index (filled value pValues index.toNat) =
      if byteCount.toNat < 256 ∧ byteCount.toNat - index.toNat < turns then
        some (filled value pValues (max index.toNat byteCount.toNat)) else none := by
  induction turns generalizing index pValues with
  | zero => rw [copyLoop, if_neg fun h => absurd h.2 (Nat.not_lt_zero _)]
  | succ turns ih =>
    have hindex := index.toNat_lt
    have hless : index.toUInt16 < byteCount ↔ index.toNat < byteCount.toNat := by
      rw [UInt16.lt_iff_toNat_lt, UInt8.toNat_toUInt16]
    have hnext : (index + 1).toNat = (index.toNat + 1) % 256 := UInt8.toNat_add index 1
    rw [copyLoop, if_congr hless rfl rfl]
    split_ifs with hlt hends hends
    · rw [Nat.mod_eq_of_lt (by omega)] at hnext
      rw [filled_succ, ← hnext, ih, hnext, if_pos (by omega), Nat.max_eq_right (by omega),
        Nat.max_eq_right (by omega)]
    · rw [filled_succ]
      by_cases hwrap : index.toNat + 1 < 256
      · rw [Nat.mod_eq_of_lt hwrap] at hnext
        rw [← hnext, ih, hnext, if_neg (by omega)]
      · -- the index starts again, over the bytes that were copied
        have hagain := ih (index + 1) (filled value pValues (index.toNat + 1))
        rwa [hnext, show (index.toNat + 1) % 256 = 0 by omega, filled_zero, if_neg (by omega)] at hagain
    · rw [Nat.max_eq_left (by omega)]
    · omega

/-- A response of 256 bytes or more is copied for ever. -/
theorem raw_data_copied (pResponseBuffer : Nat → UInt8) (slaveAddrOffset : UInt8)
    (responseBufferLength : UInt16) (pValues : Nat → UInt8) (turns : Nat) :
    let byteCount := responseBufferLength - slaveAddrOffset.toUInt16
    parseRawData pResponseBuffer slaveAddrOffset responseBufferLength pValues turns =
      if byteCount.toNat < 256 ∧ byteCount.toNat < turns then
        some ⟨0, byteCount >>> 1, byteCount, fun i =>
          if i < byteCount.toNat then pResponseBuffer (slaveAddrOffset.toNat + i) else pValues i⟩
      else none := by
  intro byteCount
  have hloop := copyLoop_eq (fun i => pResponseBuffer (slaveAddrOffset.toNat + i)) byteCount turns 0
    pValues
  rw [show (0 : UInt8).toNat = 0 from rfl, filled_zero, Nat.zero_max, Nat.sub_zero] at hloop
  unfold parseRawData
  dsimp only
  rw [hloop]
  split_ifs <;> rfl

end Mihini.Modbus
