import Mathlib.Data.List.GetD

/-!
# Received SMS PDUs

`decode_smspdu`: the fields of an SMS-DELIVER PDU given in hexadecimal, with its user data
header and its text in 7- or 8-bit characters. A string is the list of its bytes; a byte
read past its end is the null that ends it.
-/

namespace Mihini.Messaging

abbrev Str := List Nat

/-! ## Hexadecimal -/

def nibble (c : Nat) : Nat :=
  if 48 ≤ c ∧ c ≤ 57 then c - 48
  else if 97 ≤ c ∧ c ≤ 102 then c - 97 + 10
  else if 65 ≤ c ∧ c ≤ 70 then c - 65 + 10
  else 0

def readbyte (buf : Str) (pos : Nat) : Nat :=
  16 * nibble (buf.getD (2 * pos) 0) + nibble (buf.getD (2 * pos + 1) 0)

def hextobin (hex : Str) (pos len : Nat) : Str :=
  (List.range len).map fun j => readbyte hex (pos + j)

/-! ## Seven-bit characters -/

def lookupAscii7to8 : List Nat :=
  [64, 163, 36, 165, 232, 233, 249, 236, 242, 199, 10, 216, 248, 13, 197, 229,
   63, 95, 63, 63, 63, 63, 63, 63, 63, 63, 63, 27, 198, 230, 223, 201,
   32, 33, 34, 35, 164, 37, 38, 39, 40, 41, 42, 43, 44, 45, 46, 47,
   48, 49, 50, 51, 52, 53, 54, 55, 56, 57, 58, 59, 60, 61, 62, 63,
   161, 65, 66, 67, 68, 69, 70, 71, 72, 73, 74, 75, 76, 77, 78, 79,
   80, 81, 82, 83, 84, 85, 86, 87, 88, 89, 90, 196, 214, 209, 220, 167,
   191, 97, 98, 99, 100, 101, 102, 103, 104, 105, 106, 107, 108, 109, 110, 111,
   112, 113, 114, 115, 116, 117, 118, 119, 120, 121, 122, 228, 246, 241, 252, 224]

def read7bits (buffer : Str) (pos : Nat) : Nat :=
  let a := readbyte buffer (pos / 8) >>> (pos % 8)
  let b := if pos % 8 > 1 then readbyte buffer (pos / 8 + 1) <<< (8 - pos % 8) else 0
  (a ||| b) &&& 0x7F

def septet (a7bit : Str) (r : Nat) : Nat := lookupAscii7to8.getD (read7bits a7bit (r * 7)) 0

def escaped (byte : Nat) : Nat :=
  if byte = 10 then 12
  else if byte = 20 then 94
  else if byte = 40 then 123
  else if byte = 41 then 125
  else if byte = 47 then 92
  else if byte = 60 then 91
  else if byte = 61 then 126
  else if byte = 62 then 93
  else if byte = 64 then 124
  else 63

/-- `length` septets from place `r` on; an escape takes two. -/
def convert7bitToAscii (a7bit : Str) : (r length : Nat) → Str
  | _, 0 => []
  | r, 1 =>
    if septet a7bit r ≠ 27 then [septet a7bit r] else [escaped (septet a7bit (r + 1))]
  | r, length + 2 =>
    if septet a7bit r ≠ 27 then septet a7bit r :: convert7bitToAscii a7bit (r + 1) (length + 1)
    else escaped (septet a7bit (r + 1)) :: convert7bitToAscii a7bit (r + 2) length

/-! ## The decoder -/

structure Header where
  concatRef : Nat := 0
  concatMaxnb : Nat := 1
  concatSeqnb : Nat := 1
  portbits : Nat := 0
  srcport : Nat := 0
  dstport : Nat := 0
  deriving DecidableEq, Repr

def Header.read (h : Header) (pdu : Str) (id pos : Nat) : Header :=
  if id = 0 then
    { h with
      concatRef := readbyte pdu pos
      concatMaxnb := readbyte pdu (pos + 1)
      concatSeqnb := readbyte pdu (pos + 2) }
  else if id = 8 then
    { h with
      concatRef := readbyte pdu pos * 256 + readbyte pdu (pos + 1)
      concatMaxnb := readbyte pdu (pos + 2)
      concatSeqnb := readbyte pdu (pos + 3) }
  else if id = 4 then
    { h with portbits := 8, dstport := readbyte pdu pos, srcport := readbyte pdu (pos + 1) }
  else if id = 5 then
    { h with
      portbits := 16
      dstport := readbyte pdu pos * 256 + readbyte pdu (pos + 1)
      srcport := readbyte pdu (pos + 2) * 256 + readbyte pdu (pos + 3) }
  else h

/-- The loop on the `c` octets of the header that are left. Every turn takes two at least, so
the first `c` is fuel enough. -/
def readHeader (pdu : Str) : (fuel c pos : Nat) → Header → Header × Nat
  | 0, _, pos, h => (h, pos)
  | fuel + 1, c, pos, h =>
    if c = 0 then (h, pos)
    else
      let id := readbyte pdu pos
      let l := readbyte pdu (pos + 1)
      readHeader pdu fuel (c - (l + 2)) (pos + 2 + l) (h.read pdu id (pos + 2))

structure Sms where
  address : Str
  timestamp : Str
  message : Str
  header : Header
  deriving DecidableEq, Repr

def encoding (tpDcs : Nat) : Except Int Nat :=
  if tpDcs / 64 = 0 then
    if tpDcs / 4 % 4 ≠ 1 ∧ tpDcs / 4 % 4 ≠ 0 then .error (-2) else .ok (tpDcs / 4 % 4)
  else if tpDcs / 16 = 15 then .ok (tpDcs / 4 % 2)
  else .error (-1)

def senderAddress (sender : Str) (toa length : Nat) : Str :=
  let typeofnumber := toa / 16 % 8
  if typeofnumber = 5 then convert7bitToAscii sender 0 (length * 4 / 7)
  else
    (if typeofnumber = 1 then [43] else []) ++
      (List.range length).map fun i => sender.getD (2 * (i / 2) + 1 - i % 2) 0

/-- The user data: `pdu` starts at them and `tpUdl` is their length. A text of 8-bit
characters shorter than the header is taken as empty. -/
def userData (pdu : Str) (tpUdhi : Bool) (tpUdl encoding : Nat) : Except Int (Header × Str) :=
  let udhl := if tpUdhi then readbyte pdu 0 else 0
  let pos := if tpUdhi then 1 else 0
  let (h, pos) := if udhl ≠ 0 then readHeader pdu udhl udhl pos {} else ({}, pos)
  let tpUdhl := if udhl ≠ 0 then udhl + 1 else 0
  if encoding = 1 then .ok (h, hextobin pdu pos (tpUdl - tpUdhl))
  else
    let messageLength : Int := ((tpUdl * 7 : Int) - tpUdhl * 8).tdiv 7
    if messageLength ≤ 0 then .error (-11)
    else .ok (h, convert7bitToAscii pdu ((tpUdhl * 8 + 6) / 7) messageLength.toNat)

def decodeSmspdu (pdu : Str) : Except Int Sms :=
  let smscInfoLength := readbyte pdu 0
  -- an empty information is not stepped over: its length is read again below
  let pos := (if smscInfoLength > 0 then 2 else 1) + smscInfoLength - 1
  let smsDeliver := readbyte pdu pos
  let senderAddressLength := readbyte pdu (pos + 1)
  let senderToa := readbyte pdu (pos + 2)
  let sender := pdu.drop (2 * (pos + 3))
  let pos := pos + 3 + (senderAddressLength + 1) / 2
  let tpDcs := readbyte pdu (pos + 1)
  let timestamp := (pdu.drop (2 * (pos + 2))).take 14
  let tpUdl := readbyte pdu (pos + 9)
  match encoding tpDcs with
  | .error e => .error e
  | .ok encoding =>
    match userData (pdu.drop (2 * (pos + 10))) (smsDeliver.testBit 6) tpUdl encoding with
    | .error e => .error e
    | .ok (header, message) =>
      .ok ⟨senderAddress sender senderToa senderAddressLength, timestamp, message, header⟩

end Mihini.Messaging
