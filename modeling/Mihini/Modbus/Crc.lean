import Mihini.Lib.Crc

/-!
# The checksum of a Modbus frame

`RTUComputeCRC`, which keeps the two bytes of the register apart and reads the contribution of
a byte from two tables.
-/

namespace Mihini.Modbus

open Mihini.Lib List

/-- 32 entries of a table. -/
def octets (n : Nat) : List UInt8 := (range 32).map fun i => UInt8.ofNat (n >>> (8 * (31 - i)))

def cRCHi : List UInt8 := flatMap octets [
  0x00C18140_01C08041_01C08041_00C18140_01C08041_00C18140_00C18140_01C08041,
  0x01C08041_00C18140_00C18140_01C08041_00C18140_01C08041_01C08041_00C18140,
  0x01C08041_00C18140_00C18140_01C08041_00C18140_01C08041_01C08041_00C18140,
  0x00C18140_01C08041_01C08041_00C18140_01C08041_00C18140_00C18140_01C08041,
  0x01C08041_00C18140_00C18140_01C08041_00C18140_01C08041_01C08041_00C18140,
  0x00C18140_01C08041_01C08041_00C18140_01C08041_00C18140_00C18140_01C08041,
  0x00C18140_01C08041_01C08041_00C18140_01C08041_00C18140_00C18140_01C08041,
  0x01C08041_00C18140_00C18140_01C08041_00C18140_01C08041_01C08041_00C18140]

def cRCLo : List UInt8 := flatMap octets [
  0x00C0C101_C30302C2_C60607C7_05C5C404_CC0C0DCD_0FCFCE0E_0ACACB0B_C90908C8,
  0xD81819D9_1BDBDA1A_1EDEDF1F_DD1D1CDC_14D4D515_D71716D6_D21213D3_11D1D010,
  0xF03031F1_33F3F232_36F6F737_F53534F4_3CFCFD3D_FF3F3EFE_FA3A3BFB_39F9F838,
  0x28E8E929_EB2B2AEA_EE2E2FEF_2DEDEC2C_E42425E5_27E7E626_22E2E323_E12120E0,
  0xA06061A1_63A3A262_66A6A767_A56564A4_6CACAD6D_AF6F6EAE_AA6A6BAB_69A9A868,
  0x78B8B979_BB7B7ABA_BE7E7FBF_7DBDBC7C_B47475B5_77B7B676_72B2B373_B17170B0,
  0x50909151_93535292_96565797_55959454_9C5C5D9D_5F9F9E5E_5A9A9B5B_99595898,
  0x88484989_4B8B8A4A_4E8E8F4F_8D4D4C8C_44848545_87474686_82424383_41818040]

/-- A turn of the loop; the register is `ucCRCHi` and `ucCRCLo`. -/
def crcTurn (crc : UInt8 × UInt8) (b : UInt8) : UInt8 × UInt8 :=
  let iIndex := (crc.2 ^^^ b).toNat
  (cRCLo.getD iIndex 0, crc.1 ^^^ cRCHi.getD iIndex 0)

def rtuComputeCRC (pFrame : List UInt8) : UInt16 :=
  let (ucCRCHi, ucCRCLo) := pFrame.foldl crcTurn (0xFF, 0xFF)
  ucCRCHi.toUInt16 <<< 8 ||| ucCRCLo.toUInt16

/-- CRC-16/MODBUS, bit by bit. -/
def crc16 (frame : List UInt8) : BitVec 16 :=
  frame.foldl (fun c b => Crc.update 0xA001 c b.toBitVec) 0xFFFF

def register (crc : UInt8 × UInt8) : BitVec 16 := crc.1.toBitVec ++ crc.2.toBitVec

theorem tables_eq (i : Fin 256) :
    (cRCLo.getD i 0).toBitVec ++ (cRCHi.getD i 0).toBitVec =
      Crc.shifts 0xA001 8 (0#8 ++ BitVec.ofFin i) := by
  have htables : zipWith (fun hi lo : UInt8 => hi.toNat <<< 8 ||| lo.toNat) cRCLo cRCHi =
      (range 256).map (fun m => m / 2 ^^^ m % 2 * 0xA001)^[8] := by
    decide +kernel
  have hentry := congrArg (·[i.val]?) htables
  rw [getElem?_zipWith, getElem?_map, getElem?_range i.isLt] at hentry
  refine BitVec.eq_of_toNat_eq ?_
  rw [Crc.toNat_shifts, BitVec.toNat_append, BitVec.toNat_append, BitVec.toNat_ofNat, Nat.zero_mod,
    Nat.zero_shiftLeft, Nat.zero_or, getD_eq_getElem?_getD, getD_eq_getElem?_getD]
  cases hlo : cRCLo[i.val]? with
  | none => rw [hlo] at hentry; nomatch hentry
  | some hi =>
    cases hhi : cRCHi[i.val]? with
    | none => rw [hlo, hhi] at hentry; nomatch hentry
    | some lo =>
      rw [hlo, hhi] at hentry
      exact Option.some.inj hentry

theorem setWidth_byte (b : BitVec 8) : b.setWidth 16 = 0#8 ++ b :=
  BitVec.setWidth_eq_append (by decide)

theorem register_crcTurn (crc : UInt8 × UInt8) (b : UInt8) :
    register (crcTurn crc b) = Crc.update 0xA001 (register crc) b.toBitVec := by
  have htable := tables_eq (crc.2 ^^^ b).toBitVec.toFin
  rw [Crc.update, setWidth_byte, register, register, BitVec.xor_append, BitVec.xor_zero,
    Crc.shifts_append]
  refine Eq.trans ?_ (congrArg (· ^^^ _) htable)
  rw [setWidth_byte, BitVec.xor_append, BitVec.xor_zero, BitVec.xor_comm]
  rfl

theorem register_foldl (crc : UInt8 × UInt8) (pFrame : List UInt8) :
    register (pFrame.foldl crcTurn crc) =
      pFrame.foldl (fun c b => Crc.update 0xA001 c b.toBitVec) (register crc) := by
  induction pFrame generalizing crc with
  | nil => rfl
  | cons b pFrame ih => rw [foldl_cons, ih, register_crcTurn, foldl_cons]

theorem toBitVec_rtuComputeCRC (pFrame : List UInt8) :
    (rtuComputeCRC pFrame).toBitVec = register (pFrame.foldl crcTurn (0xFF, 0xFF)) := by
  rw [register, ← BitVec.setWidth_eq (_ ++ _), BitVec.setWidth_append_eq_shiftLeft_setWidth_or]
  rfl

/-- The tables compute the CRC, which leaves nothing once it is appended, the low byte first. -/
theorem rtuComputeCRC_eq (pFrame : List UInt8) :
    (rtuComputeCRC pFrame).toBitVec = crc16 pFrame ∧
      rtuComputeCRC (pFrame ++
        [(rtuComputeCRC pFrame).toUInt8, (rtuComputeCRC pFrame >>> 8).toUInt8]) = 0 := by
  have hcrc (frame : List UInt8) : (rtuComputeCRC frame).toBitVec = crc16 frame := by
    rw [toBitVec_rtuComputeCRC, register_foldl]
    rfl
  refine ⟨hcrc pFrame, UInt16.toBitVec_inj.mp ?_⟩
  obtain ⟨hi, lo, hreg⟩ : ∃ hi lo : BitVec 8, (rtuComputeCRC pFrame).toBitVec = hi ++ lo :=
    ⟨_, _, toBitVec_rtuComputeCRC pFrame⟩
  have hlow : (rtuComputeCRC pFrame).toUInt8.toBitVec = lo := by
    rw [UInt16.toBitVec_toUInt8, hreg, ← BitVec.ushiftRight_zero (hi ++ lo),
      BitVec.setWidth_ushiftRight_eq_extractLsb]
    exact BitVec.extractLsb'_append_eq_right
  have hhigh : (rtuComputeCRC pFrame >>> 8).toUInt8.toBitVec = hi := by
    rw [UInt16.toBitVec_toUInt8, UInt16.toBitVec_shiftRight, hreg]
    show BitVec.setWidth 8 ((hi ++ lo) >>> 8) = hi
    rw [BitVec.setWidth_ushiftRight_eq_extractLsb]
    exact BitVec.extractLsb'_append_eq_left
  rw [hcrc, crc16, foldl_append, foldl_cons, foldl_cons, foldl_nil, hlow, hhigh, ← crc16, ← hcrc,
    hreg, Crc.update_residue]
  rfl

/-- A burst of errors in two bytes that follow each other changes the checksum. -/
theorem burst_detected (pFrame rest : List UInt8) (a b a' b' : UInt8) :
    rtuComputeCRC (pFrame ++ a :: b :: rest) = rtuComputeCRC (pFrame ++ a' :: b' :: rest) ↔
      a = a' ∧ b = b' := by
  have hfold (c : BitVec 16) : rest.foldl (fun c b => Crc.update 0xA001 c b.toBitVec) c =
      (rest.map UInt8.toBitVec).foldl (Crc.update 0xA001) c := foldl_map.symm
  rw [← UInt16.toBitVec_inj, toBitVec_rtuComputeCRC, toBitVec_rtuComputeCRC, register_foldl,
    register_foldl]
  simp only [foldl_append, foldl_cons, hfold]
  rw [Crc.foldl_update_inj (by decide), Crc.update_update, Crc.update_update,
    Crc.shifts_inj (by decide), Crc.shifts_inj (by decide), BitVec.xor_right_inj]
  constructor
  · intro h
    have hlow := congrArg (BitVec.extractLsb' 0 8) h
    have hhigh := congrArg (BitVec.extractLsb' 8 8) h
    rw [BitVec.extractLsb'_append_eq_right, BitVec.extractLsb'_append_eq_right] at hlow
    rw [BitVec.extractLsb'_append_eq_left, BitVec.extractLsb'_append_eq_left] at hhigh
    exact ⟨UInt8.toBitVec_inj.mp hlow, UInt8.toBitVec_inj.mp hhigh⟩
  · rintro ⟨rfl, rfl⟩
    rfl

example : rtuComputeCRC [49, 50, 51, 52, 53, 54, 55, 56, 57] = 0x4B37 := by decide +kernel

end Mihini.Modbus
