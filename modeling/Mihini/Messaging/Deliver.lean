import Mihini.Lib.BitStream
import Mihini.Messaging.Pdu

/-!
# Segments as the network delivers them

The SMS-DELIVER PDU of a segment of a long message, written from the message and from what
the network adds, and the decoder on it: it gives back the sender, the text and the place in
the message, where the SMSC information is not empty and no character is one of the
extension table that the decoder loses.
-/

namespace Mihini.Messaging

open Lib List

/-! ## The PDU of a segment -/

def digit (n : Nat) : Nat := if n < 10 then 48 + n else 55 + n

def hex (l : List Nat) : Str := l.flatMap fun b => [digit (b / 16), digit (b % 16)]

/-- The characters reached through an escape, and a question mark for the others. -/
def extension (c : Nat) : Nat :=
  if c = 10 then 12
  else if c = 20 then 94
  else if c = 40 then 123
  else if c = 41 then 125
  else if c = 47 then 92
  else if c = 60 then 91
  else if c = 61 then 126
  else if c = 62 then 93
  else if c = 64 then 124
  else 63

def gsmText : List Nat → Str
  | [] => []
  | [c] => [lookupAscii7to8.getD c 0]
  | c :: d :: s =>
    if c ≠ 27 then lookupAscii7to8.getD c 0 :: gsmText (d :: s) else extension d :: gsmText s

def Closed : List Nat → Prop
  | [] => True
  | [c] => c ≠ 27
  | c :: d :: s => if c ≠ 27 then Closed (d :: s) else Closed s

def Legible : List Nat → Prop
  | [] => True
  | [_] => True
  | c :: d :: s => if c ≠ 27 then Legible (d :: s) else d ≠ 0 ∧ d ≠ 20 ∧ d ≠ 64 ∧ Legible s

/-- The bits of septets that start at place `first`, after as many bits of filling. -/
def septetBits (first : Nat) (s : List Nat) (n : Nat) : Bool :=
  if n < 7 * first then false
  else (s.getD ((n - 7 * first) / 7) 0).testBit ((n - 7 * first) % 7)

inductive Sender
  | number (toa : Nat) (digits : List Nat)
  | name (toa : Nat) (septets : List Nat)
  deriving DecidableEq, Repr

namespace Sender

def toa : Sender → Nat
  | number toa _ => toa
  | name toa _ => toa

def length : Sender → Nat
  | number _ digits => digits.length
  | name _ septets => (7 * septets.length + 3) / 4

def semiOctets : List Nat → List Nat
  | [] => []
  | [d] => [15 * 16 + d]
  | d :: e :: digits => (16 * e + d) :: semiOctets digits

def octets : Sender → List Nat
  | number _ digits => semiOctets digits
  | name _ septets => octetsOf (septetBits 0 septets) 0 ((7 * septets.length + 7) / 8)

def text : Sender → Str
  | number toa digits => (if toa / 16 % 8 = 1 then [43] else []) ++ digits.map digit
  | name _ septets => gsmText septets

def Ok : Sender → Prop
  | number toa digits =>
    toa < 256 ∧ toa / 16 % 8 ≠ 5 ∧ digits.length < 256 ∧ ∀ d ∈ digits, d < 16
  | name toa septets =>
    toa < 256 ∧ toa / 16 % 8 = 5 ∧ septets.length < 144 ∧ (∀ c ∈ septets, c < 128) ∧ Closed septets

def Legible : Sender → Prop
  | number _ _ => True
  | name _ septets => Messaging.Legible septets

end Sender

structure Element where
  id : Nat
  data : List Nat
  deriving DecidableEq, Repr

namespace Element

def octets (e : Element) : List Nat := e.id :: e.data.length :: e.data

structure Ok (e : Element) : Prop where
  id : e.id < 256 ∧ e.id ≠ 0 ∧ e.id ≠ 8
  length : e.data.length < 256
  octets : ∀ b ∈ e.data, b < 256
  ports : (e.id = 4 → e.data.length = 2) ∧ (e.id = 5 → e.data.length = 4)

end Element

def headerOctets (es : List Element) : List Nat :=
  (es.flatMap Element.octets).length :: es.flatMap Element.octets

structure Message where
  sender : Sender
  seven : Bool
  wide : Bool
  ref : Nat
  parts : List (List Nat)
  deriving DecidableEq, Repr

structure Cover where
  smsc : List Nat
  deliver : Nat
  pid : Nat
  dcs : Nat
  scts : List Nat
  before : List Element
  after : List Element
  deriving DecidableEq, Repr

namespace Message

def textOf (m : Message) (part : List Nat) : Str := if m.seven then gsmText part else part

def text (m : Message) : Str := (m.parts.map m.textOf).flatten

def concatElement (m : Message) (k : Nat) : Element :=
  if m.wide then ⟨8, [m.ref / 256, m.ref % 256, m.parts.length, k + 1]⟩
  else ⟨0, [m.ref, m.parts.length, k + 1]⟩

def elements (m : Message) (c : Cover) (k : Nat) : List Element :=
  c.before ++ m.concatElement k :: c.after

def header (m : Message) (c : Cover) (k : Nat) : List Nat := headerOctets (m.elements c k)

def firstSeptet (m : Message) (c : Cover) (k : Nat) : Nat :=
  ((m.header c k).length * 8 + 6) / 7

def userOctets (m : Message) (c : Cover) (k : Nat) (part : List Nat) : List Nat :=
  m.header c k ++
    if m.seven then
      octetsOf (septetBits (m.firstSeptet c k) part) (m.header c k).length
        ((7 * (m.firstSeptet c k + part.length) + 7) / 8 - (m.header c k).length)
    else part

def userLength (m : Message) (c : Cover) (k : Nat) (part : List Nat) : Nat :=
  if m.seven then m.firstSeptet c k + part.length else (m.header c k).length + part.length

def pdu (m : Message) (c : Cover) (k : Nat) (part : List Nat) : Str :=
  hex ((c.smsc.length :: c.smsc) ++ ([c.deliver, m.sender.length, m.sender.toa] ++
    (m.sender.octets ++ ([c.pid, c.dcs] ++ (c.scts ++
      (m.userLength c k part :: m.userOctets c k part))))))

structure Ok (m : Message) : Prop where
  sender : m.sender.Ok
  ref : m.ref < if m.wide then 65536 else 256
  several : 2 ≤ m.parts.length
  few : m.parts.length < 256
  filled : ∀ part ∈ m.parts, part ≠ []
  characters : ∀ part ∈ m.parts, ∀ c ∈ part, c < if m.seven then 128 else 256
  closed : m.seven = true → ∀ part ∈ m.parts, Closed part

/-- No character of its texts is one that the decoder loses. -/
structure Legible (m : Message) : Prop where
  sender : m.sender.Legible
  parts : m.seven = true → ∀ part ∈ m.parts, Messaging.Legible part

end Message

def Coded (seven : Bool) (dcs : Nat) : Prop :=
  (dcs < 32 ∧ dcs / 4 % 4 = if seven then 0 else 1) ∨
    (240 ≤ dcs ∧ dcs < 256 ∧ dcs / 4 % 2 = if seven then 0 else 1)

structure Cover.Ok (c : Cover) (m : Message) (k : Nat) (part : List Nat) : Prop where
  smsc : c.smsc.length < 256
  octets : (∀ b ∈ c.smsc, b < 256) ∧ c.deliver < 256 ∧ c.pid < 256 ∧ ∀ b ∈ c.scts, b < 256
  indicator : c.deliver.testBit 6 = true
  dcs : Coded m.seven c.dcs
  scts : c.scts.length = 7
  elements : ∀ e ∈ c.before ++ c.after, e.Ok
  fits : (m.userOctets c k part).length ≤ 140

/-! ## Reading hexadecimal back -/

theorem nibble_digit {n : Nat} (h : n < 16) : nibble (digit n) = n := by
  unfold digit nibble
  split <;> split <;> first | omega | (split <;> first | omega | (split <;> omega))

theorem readbyte_hex {l : List Nat} (hl : ∀ b ∈ l, b < 256) (j : Nat) :
    readbyte (hex l) j = l.getD j 0 := by
  induction l generalizing j with
  | nil => simp [readbyte, hex, nibble]
  | cons b l ih =>
    have hb : b < 256 := hl b mem_cons_self
    cases j with
    | zero =>
      have h1 : nibble (digit (b / 16)) = b / 16 := nibble_digit (by omega)
      have h2 : nibble (digit (b % 16)) = b % 16 := nibble_digit (by omega)
      simp only [readbyte, hex, flatMap_cons, cons_append, getD_cons_zero,
        getD_cons_succ, Nat.mul_zero, h1, h2]
      omega
    | succ j =>
      rw [getD_cons_succ, ← ih (fun b' hb' => hl b' (mem_cons_of_mem b hb')) j]
      rfl

theorem drop_hex (l : List Nat) (p : Nat) : (hex l).drop (2 * p) = hex (l.drop p) := by
  induction l generalizing p with
  | nil => simp [hex]
  | cons b l ih =>
    cases p with
    | zero => rfl
    | succ p =>
      rw [drop_succ_cons, ← ih p]
      rfl

theorem hex_append (l l' : List Nat) : hex (l ++ l') = hex l ++ hex l' := flatMap_append

theorem length_hex (l : List Nat) : (hex l).length = 2 * l.length := by
  induction l with
  | nil => rfl
  | cons b l ih =>
    rw [hex, flatMap_cons, length_append, ← hex, ih]
    simp only [length_cons, length_nil]
    omega

theorem readbyte_at {l : List Nat} (hl : ∀ b ∈ l, b < 256) {a c : List Nat} {b p : Nat}
    (hsplit : l = a ++ b :: c) (hp : a.length = p) : readbyte (hex l) p = b := by
  rw [readbyte_hex hl, hsplit, ← hp, getD_append_right _ _ _ _ (Nat.le_refl _), Nat.sub_self,
    getD_cons_zero]

theorem drop_at {l a c : List Nat} {p : Nat} (hsplit : l = a ++ c) (hp : a.length = p) :
    (hex l).drop (2 * p) = hex c := by
  rw [drop_hex, hsplit, ← hp, drop_left]

/-! ## Septets -/

def bit (buf : Str) (n : Nat) : Bool := (readbyte buf (n / 8)).testBit (n % 8)

/-- The bits of a septet are those of the stream. -/
theorem testBit_read7bits (buf : Str) (p i : Nat) :
    (read7bits buf p).testBit i = (decide (i < 7) && bit buf (p + i)) := by
  have hoctet : ∀ j n : Nat, 8 ≤ n → (readbyte buf j).testBit n = false := by
    intro j n hn
    have hnibble : ∀ c, nibble c < 16 := by
      intro c
      unfold nibble
      split_ifs <;> omega
    have h256 : 2 ^ 8 ≤ 2 ^ n := Nat.pow_le_pow_right (by decide) hn
    refine Nat.testBit_lt_two_pow (Nat.lt_of_lt_of_le ?_ h256)
    have hhigh := hnibble (buf.getD (2 * j) 0)
    have hlow := hnibble (buf.getD (2 * j + 1) 0)
    rw [readbyte]
    omega
  rw [read7bits, Nat.testBit_and, show (0x7F : Nat) = 2 ^ 7 - 1 from rfl,
    Nat.testBit_two_pow_sub_one, Nat.testBit_or, Nat.testBit_shiftRight]
  rcases Nat.lt_or_ge i 7 with hi | hi
  · rw [decide_eq_true hi, Bool.and_true, Bool.true_and, bit]
    rcases Nat.lt_or_ge (p % 8 + i) 8 with hsame | hnext
    · -- the bit is in the first octet, and the second one is shifted above it
      have hdiv : (p + i) / 8 = p / 8 := by omega
      have hmod : (p + i) % 8 = p % 8 + i := by omega
      have hhigh : (if p % 8 > 1 then readbyte buf (p / 8 + 1) <<< (8 - p % 8) else 0).testBit i =
          false := by
        split
        · rw [Nat.testBit_shiftLeft, decide_eq_false (by omega), Bool.false_and]
        · exact Nat.zero_testBit i
      rw [hhigh, Bool.or_false, hdiv, hmod]
    · have hdiv : (p + i) / 8 = p / 8 + 1 := by omega
      have hmod : (p + i) % 8 = i - (8 - p % 8) := by omega
      rw [hoctet _ _ hnext, Bool.false_or, if_pos (by omega), Nat.testBit_shiftLeft,
        decide_eq_true (by omega), Bool.true_and, hdiv, hmod]
  · rw [decide_eq_false (by omega), Bool.and_false, Bool.false_and]

variable {buf : Str}

/-- A septet whose bits are in the buffer is read there. -/
theorem read7bits_bits {s : List Nat} {first k : Nat} (hs : ∀ c ∈ s, c < 128)
    (hk : k < s.length)
    (hbits : ∀ n, 7 * (first + k) ≤ n → n < 7 * (first + k) + 7 → bit buf n = septetBits first s n) :
    read7bits buf ((first + k) * 7) = s[k] := by
  refine Nat.eq_of_testBit_eq fun i => ?_
  rw [testBit_read7bits]
  rcases Nat.lt_or_ge i 7 with hi | hi
  · rw [hbits _ (by omega) (by omega), decide_eq_true hi, Bool.true_and, septetBits,
      if_neg (by omega)]
    have hdiv : ((first + k) * 7 + i - 7 * first) / 7 = k := by omega
    have hmod : ((first + k) * 7 + i - 7 * first) % 7 = i := by omega
    rw [hdiv, hmod, getD_eq_getElem _ _ hk]
  · rw [decide_eq_false (by omega), Bool.false_and]
    have h128 : 2 ^ 7 ≤ 2 ^ i := Nat.pow_le_pow_right (by decide) hi
    have hlt : s[k] < 2 ^ i := Nat.lt_of_lt_of_le (hs _ (getElem_mem hk)) h128
    exact (Nat.testBit_lt_two_pow hlt).symm

/-- A septet read at its place in a packed text. -/
theorem read7bits_packed {l s rest : List Nat} {first m : Nat}
    (hl : ∀ b ∈ l ++ (octetsOf (septetBits first s) l.length m ++ rest), b < 256)
    (hs : ∀ c ∈ s, c < 128) (hfirst : 8 * l.length ≤ 7 * first)
    (hm : 7 * (first + s.length) ≤ 8 * (l.length + m)) {k : Nat} (hk : k < s.length) :
    read7bits (hex (l ++ (octetsOf (septetBits first s) l.length m ++ rest))) ((first + k) * 7) =
      s[k] := by
  refine read7bits_bits hs hk fun n hle hlt => ?_
  rw [bit, readbyte_hex hl]
  exact bitAt_octetsOf rest (by omega) (by omega)

theorem septet_eq {r c : Nat} (h : read7bits buf (r * 7) = c) :
    septet buf r = lookupAscii7to8.getD c 0 := by
  rw [septet, h]

theorem lookup_eq_escape {c : Nat} (hc : c < 128) : lookupAscii7to8.getD c 0 = 27 ↔ c = 27 := by
  revert c
  decide

theorem escaped_lookup {c : Nat} (hc : c < 128) (h : c ≠ 0 ∧ c ≠ 20 ∧ c ≠ 64) :
    escaped (lookupAscii7to8.getD c 0) = extension c := by
  revert c
  decide

/-- What is read as septets is decoded as their text. -/
theorem convert_eq {s : List Nat} (hs : ∀ c ∈ s, c < 128) (hclosed : Closed s)
    (hlegible : Legible s) {r : Nat}
    (hread : ∀ (k : Nat) (hk : k < s.length), read7bits buf ((r + k) * 7) = s[k]) :
    convert7bitToAscii buf r s.length = gsmText s := by
  induction s using gsmText.induct generalizing r with
  | case1 => rfl
  | case2 c =>
    have hc : septet buf r = lookupAscii7to8.getD c 0 := septet_eq (hread 0 (by simp))
    have hne : septet buf r ≠ 27 := by
      rw [hc, ne_eq, lookup_eq_escape (hs c (by simp))]
      exact hclosed
    rw [length_singleton, convert7bitToAscii, if_pos hne, gsmText, hc]
  | case3 c d s hne ih =>
    have hc : septet buf r = lookupAscii7to8.getD c 0 := septet_eq (hread 0 (by simp))
    have hplain : septet buf r ≠ 27 := by
      rw [hc, ne_eq, lookup_eq_escape (hs c (by simp))]
      exact hne
    rw [Closed, if_pos hne] at hclosed
    rw [Legible, if_pos hne] at hlegible
    have hrest : ∀ (k : Nat) (hk : k < (d :: s).length),
        read7bits buf ((r + 1 + k) * 7) = (d :: s)[k] := by
      intro k hk
      rw [Nat.add_assoc, Nat.add_comm 1 k]
      exact hread (k + 1) (Nat.succ_lt_succ hk)
    have htext := ih (fun e he => hs e (mem_cons_of_mem c he)) hclosed hlegible hrest
    rw [length_cons, length_cons, convert7bitToAscii, if_pos hplain, gsmText, if_pos hne,
      hc]
    exact congrArg _ htext
  | case4 c d s hescape ih =>
    have hc27 : c = 27 := not_not.mp hescape
    have hc : septet buf r = 27 := by
      rw [septet_eq (show read7bits buf (r * 7) = c from hread 0 (by simp))]
      exact (lookup_eq_escape (hs c (by simp))).mpr hc27
    have hd : septet buf (r + 1) = lookupAscii7to8.getD d 0 := septet_eq (hread 1 (by simp))
    rw [Closed, if_neg hescape] at hclosed
    rw [Legible, if_neg hescape] at hlegible
    obtain ⟨h0, h20, h64, hlegible⟩ := hlegible
    have hrest : ∀ (k : Nat) (hk : k < s.length), read7bits buf ((r + 2 + k) * 7) = s[k] := by
      intro k hk
      rw [Nat.add_assoc, Nat.add_comm 2 k]
      exact hread (k + 2) (Nat.succ_lt_succ (Nat.succ_lt_succ hk))
    have htext := ih (fun e he => hs e (mem_cons_of_mem c (mem_cons_of_mem d he))) hclosed
      hlegible hrest
    rw [length_cons, length_cons, convert7bitToAscii, if_neg (not_not.mpr hc), gsmText,
      if_neg hescape, hd, escaped_lookup (hs d (by simp)) ⟨h0, h20, h64⟩, htext]

/-! ## The sender -/

theorem length_semiOctets (digits : List Nat) :
    (Sender.semiOctets digits).length = (digits.length + 1) / 2 := by
  induction digits using Sender.semiOctets.induct with
  | case1 => rfl
  | case2 d => simp [Sender.semiOctets]
  | case3 d e digits ih =>
    rw [Sender.semiOctets, length_cons, ih, length_cons, length_cons]
    omega

theorem semiOctets_lt {digits : List Nat} (h : ∀ d ∈ digits, d < 16) :
    ∀ b ∈ Sender.semiOctets digits, b < 256 := by
  induction digits using Sender.semiOctets.induct with
  | case1 => simp [Sender.semiOctets]
  | case2 d =>
    have := h d (by simp)
    simp only [Sender.semiOctets, mem_singleton, forall_eq]
    omega
  | case3 d e digits ih =>
    have hd := h d (by simp)
    have he := h e (by simp)
    rw [Sender.semiOctets]
    intro b hb
    rcases mem_cons.mp hb with rfl | hb
    · omega
    · exact ih (fun x hx => h x (by simp [hx])) b hb

theorem digit_read {digits : List Nat} (h : ∀ d ∈ digits, d < 16) (rest : List Nat) {i : Nat}
    (hi : i < digits.length) :
    (hex (Sender.semiOctets digits ++ rest)).getD (2 * (i / 2) + 1 - i % 2) 0 =
      digit digits[i] := by
  induction digits using Sender.semiOctets.induct generalizing i with
  | case1 => exact absurd hi (Nat.not_lt_zero i)
  | case2 d =>
    have hd := h d (by simp)
    obtain rfl : i = 0 := Nat.lt_one_iff.mp hi
    simp only [Sender.semiOctets, hex, cons_append, flatMap_cons, nil_append]
    exact congrArg digit (show (15 * 16 + d) % 16 = d by omega)
  | case3 d e digits ih =>
    have hd := h d (by simp)
    have he := h e (by simp)
    rw [Sender.semiOctets]
    match i with
    | 0 => exact congrArg digit (show (16 * e + d) % 16 = d by omega)
    | 1 => exact congrArg digit (show (16 * e + d) / 16 = e by omega)
    | i + 2 =>
      have hnext := ih (fun x hx => h x (by simp [hx])) (i := i) (by simpa using hi)
      have hplace : 2 * ((i + 2) / 2) + 1 - (i + 2) % 2 = 2 * (i / 2) + 1 - i % 2 + 2 := by omega
      rw [hplace, getElem_cons_succ, getElem_cons_succ, ← hnext]
      rfl

theorem Sender.length_octets (sender : Sender) : sender.octets.length = (sender.length + 1) / 2 := by
  cases sender with
  | number toa digits => exact length_semiOctets digits
  | name toa septets =>
    rw [Sender.octets, length_octetsOf, Sender.length]
    omega

variable {sender : Sender}

theorem Sender.octets_lt (h : sender.Ok) : ∀ b ∈ sender.octets, b < 256 := by
  cases sender with
  | number toa digits => exact semiOctets_lt h.2.2.2
  | name toa septets => exact fun b hb => octetsOf_lt hb

theorem Sender.octet_fields (h : sender.Ok) :
    sender.toa < 256 ∧ sender.length < 256 := by
  cases sender with
  | number toa digits => exact ⟨h.1, h.2.2.1⟩
  | name toa septets =>
    refine ⟨h.1, ?_⟩
    have := h.2.2.1
    rw [Sender.length]
    omega

theorem senderAddress_eq (h : sender.Ok) (hlegible : sender.Legible)
    {rest : List Nat} (hrest : ∀ b ∈ rest, b < 256) :
    senderAddress (hex (sender.octets ++ rest)) sender.toa sender.length = sender.text := by
  cases sender with
  | number toa digits =>
    obtain ⟨-, hkind, -, hdigits⟩ := h
    have hchars : ((List.range digits.length).map fun i =>
        (hex (Sender.semiOctets digits ++ rest)).getD (2 * (i / 2) + 1 - i % 2) 0) =
        digits.map digit := by
      refine ext_getElem (by simp) fun i hi hi' => ?_
      rw [getElem_map, getElem_map, getElem_range]
      exact digit_read hdigits rest (by simpa using hi')
    show (if toa / 16 % 8 = 5 then _ else _) = _
    rw [if_neg hkind]
    exact congrArg _ hchars
  | name toa septets =>
    obtain ⟨-, hkind, -, hseptets, hclosed⟩ := h
    have hcount : (7 * septets.length + 3) / 4 * 4 / 7 = septets.length := by omega
    have hoctets : ∀ b ∈ [] ++ (octetsOf (septetBits 0 septets) 0 ((7 * septets.length + 7) / 8) ++
        rest), b < 256 := by
      intro b hb
      rcases mem_append.mp (nil_append _ ▸ hb) with hb | hb
      · exact octetsOf_lt hb
      · exact hrest b hb
    show (if toa / 16 % 8 = 5 then _ else _) = _
    rw [if_pos hkind, Sender.length, hcount]
    refine convert_eq hseptets hclosed hlegible fun k hk => ?_
    exact read7bits_packed (l := []) hoctets hseptets (by simp) (by simp; omega) hk

/-! ## The user data -/

def Header.take (h : Header) (e : Element) : Header := h.read (hex e.data) e.id 0

def Element.Full (e : Element) : Prop :=
  (e.id = 0 → e.data.length = 3) ∧ (e.id = 8 → e.data.length = 4) ∧
    (e.id = 4 → e.data.length = 2) ∧ (e.id = 5 → e.data.length = 4)

variable {e : Element}

theorem read_eq_take (hfull : e.Full) {pre post : List Nat}
    (hl : ∀ b ∈ pre ++ (e.octets ++ post), b < 256) (h : Header) :
    h.read (hex (pre ++ (e.octets ++ post))) e.id (pre.length + 2) = h.take e := by
  have hdata : ∀ b ∈ e.data, b < 256 := by
    intro b hb
    exact hl b (by simp [Element.octets, hb])
  have hat : ∀ j < e.data.length,
      readbyte (hex (pre ++ (e.octets ++ post))) (pre.length + 2 + j) = readbyte (hex e.data) j := by
    intro j hj
    rw [readbyte_hex hl, readbyte_hex hdata, getD_append_right _ _ _ _ (by omega),
      show pre.length + 2 + j - pre.length = j + 2 by omega]
    exact getD_append e.octets post 0 (j + 2) (by simp [Element.octets]; omega)
  obtain ⟨h0, h8, h4, h5⟩ := hfull
  unfold Header.take Header.read
  split
  · have hlen := h0 ‹_›
    rw [hat 1 (by omega), hat 2 (by omega), ← hat 0 (by omega)]
  split
  · have hlen := h8 ‹_›
    rw [hat 1 (by omega), hat 2 (by omega), hat 3 (by omega), ← hat 0 (by omega)]
  split
  · have hlen := h4 ‹_›
    rw [hat 1 (by omega), ← hat 0 (by omega)]
  split
  · have hlen := h5 ‹_›
    rw [hat 1 (by omega), hat 2 (by omega), hat 3 (by omega), ← hat 0 (by omega)]
  · rfl

theorem readHeader_eq {es : List Element} (hfull : ∀ e ∈ es, e.Full) {pre post : List Nat}
    (hl : ∀ b ∈ pre ++ (es.flatMap Element.octets ++ post), b < 256) {fuel : Nat}
    (hfuel : (es.flatMap Element.octets).length ≤ fuel) (h : Header) :
    readHeader (hex (pre ++ (es.flatMap Element.octets ++ post))) fuel
        (es.flatMap Element.octets).length pre.length h =
      (es.foldl Header.take h, pre.length + (es.flatMap Element.octets).length) := by
  induction es generalizing pre fuel h with
  | nil => cases fuel <;> simp [readHeader]
  | cons e es ih =>
    rw [flatMap_cons, append_assoc] at hl ⊢
    have hlength : (e.octets ++ es.flatMap Element.octets).length =
        e.data.length + 2 + (es.flatMap Element.octets).length := by
      simp only [length_append, Element.octets, length_cons]
    rw [flatMap_cons, hlength] at hfuel
    obtain ⟨fuel, rfl⟩ : ∃ n, fuel = n + 1 := ⟨fuel - 1, by omega⟩
    have hid : readbyte (hex (pre ++ (e.octets ++ (es.flatMap Element.octets ++ post)))) pre.length =
        e.id := readbyte_at hl rfl rfl
    have hsize : readbyte (hex (pre ++ (e.octets ++ (es.flatMap Element.octets ++ post))))
        (pre.length + 1) = e.data.length := by
      refine readbyte_at hl (a := pre ++ [e.id])
        (c := e.data ++ (es.flatMap Element.octets ++ post)) ?_ (by simp)
      simp [Element.octets]
    rw [readHeader, hlength, if_neg (by omega)]
    simp only [hid, hsize]
    rw [read_eq_take (hfull e mem_cons_self) hl]
    have hpre : (pre ++ e.octets).length = pre.length + 2 + e.data.length := by
      simp only [length_append, Element.octets, length_cons]
      omega
    have hl' : ∀ b ∈ pre ++ e.octets ++ (es.flatMap Element.octets ++ post), b < 256 := by
      rwa [append_assoc]
    have hfuel' : (es.flatMap Element.octets).length ≤ fuel := by omega
    have hrest := ih (fun e' he' => hfull e' (mem_cons_of_mem e he')) hl' hfuel' (h.take e)
    rw [append_assoc, hpre] at hrest
    rw [show e.data.length + 2 + (es.flatMap Element.octets).length - (e.data.length + 2) =
      (es.flatMap Element.octets).length by omega, hrest, foldl_cons]
    exact congrArg _ (by omega)

theorem hextobin_eq {pre text : List Nat} (hl : ∀ b ∈ pre ++ text, b < 256) :
    hextobin (hex (pre ++ text)) pre.length text.length = text := by
  unfold hextobin
  refine ext_getElem (by simp) fun i hi hi' => ?_
  rw [getElem_map, getElem_range, readbyte_hex hl,
    getD_append_right _ _ _ _ (Nat.le_add_right _ _), Nat.add_sub_cancel_left]
  exact getD_eq_getElem _ _ hi'

section UserData

variable {es : List Element} {text : List Nat}

/-- The header as the decoder reads it, its length first. -/
theorem readHeader_user (hfull : ∀ e ∈ es, e.Full)
    (hl : ∀ b ∈ headerOctets es ++ text, b < 256) :
    readbyte (hex (headerOctets es ++ text)) 0 =
        (es.flatMap Element.octets).length ∧
      readHeader (hex (headerOctets es ++ text))
          (es.flatMap Element.octets).length (es.flatMap Element.octets).length 1 {} =
        (es.foldl Header.take {}, 1 + (es.flatMap Element.octets).length) := by
  have hpre : ∀ b ∈ [(es.flatMap Element.octets).length] ++ (es.flatMap Element.octets ++ text),
      b < 256 := hl
  have hfirst : headerOctets es ++ text =
      [] ++ (es.flatMap Element.octets).length :: (es.flatMap Element.octets ++ text) := rfl
  exact ⟨readbyte_at hl hfirst rfl, readHeader_eq hfull hpre (Nat.le_refl _) {}⟩

theorem userData_octets (hfull : ∀ e ∈ es, e.Full) (hpos : 0 < (es.flatMap Element.octets).length)
    (hl : ∀ b ∈ headerOctets es ++ text, b < 256) (udl : Nat) :
    userData (hex (headerOctets es ++ text)) true udl 1 =
      .ok (es.foldl Header.take {}, hextobin (hex (headerOctets es ++ text))
        (headerOctets es).length (udl - (headerOctets es).length)) := by
  obtain ⟨hudhl, hread⟩ := readHeader_user hfull hl
  rw [userData]
  simp only [if_true, hudhl, if_pos (Nat.ne_of_gt hpos), hread]
  rw [Nat.add_comm 1]
  rfl

theorem userData_septets (hfull : ∀ e ∈ es, e.Full)
    (hpos : 0 < (es.flatMap Element.octets).length) (hl : ∀ b ∈ headerOctets es ++ text, b < 256)
    (udl : Nat) :
    userData (hex (headerOctets es ++ text)) true udl 0 =
      if ((udl : Int) * 7 - ((headerOctets es).length : Int) * 8).tdiv 7 ≤ 0 then .error (-11)
      else .ok (es.foldl Header.take {}, convert7bitToAscii (hex (headerOctets es ++ text))
        (((headerOctets es).length * 8 + 6) / 7)
        (((udl : Int) * 7 - ((headerOctets es).length : Int) * 8).tdiv 7).toNat) := by
  obtain ⟨hudhl, hread⟩ := readHeader_user hfull hl
  rw [userData]
  simp only [if_true, hudhl, if_pos (Nat.ne_of_gt hpos), hread, if_neg Nat.zero_ne_one]
  rfl

end UserData

theorem Element.Ok.full (h : e.Ok) : e.Full :=
  ⟨fun h0 => absurd h0 h.id.2.1, fun h8 => absurd h8 h.id.2.2, h.ports⟩

theorem Element.Ok.octets_lt (h : e.Ok) : ∀ b ∈ e.octets, b < 256 := by
  intro b hb
  rcases mem_cons.mp hb with rfl | hb
  · exact h.id.1
  rcases mem_cons.mp hb with rfl | hb
  · exact h.length
  · exact h.octets b hb

theorem Header.take_keeps (he : e.Ok) (h : Header) :
    (h.take e).concatRef = h.concatRef ∧ (h.take e).concatMaxnb = h.concatMaxnb ∧
      (h.take e).concatSeqnb = h.concatSeqnb := by
  unfold Header.take Header.read
  rw [if_neg he.id.2.1, if_neg he.id.2.2]
  split
  · exact ⟨rfl, rfl, rfl⟩
  split <;> exact ⟨rfl, rfl, rfl⟩

theorem Header.foldl_keeps {es : List Element} (hes : ∀ e ∈ es, e.Ok) (h : Header) :
    (es.foldl Header.take h).concatRef = h.concatRef ∧
      (es.foldl Header.take h).concatMaxnb = h.concatMaxnb ∧
      (es.foldl Header.take h).concatSeqnb = h.concatSeqnb := by
  induction es generalizing h with
  | nil => exact ⟨rfl, rfl, rfl⟩
  | cons e es ih =>
    obtain ⟨hr, hm, hs⟩ := ih (fun e' he' => hes e' (mem_cons_of_mem e he')) (h.take e)
    obtain ⟨hr', hm', hs'⟩ := Header.take_keeps (hes e mem_cons_self) h
    rw [foldl_cons]
    exact ⟨hr.trans hr', hm.trans hm', hs.trans hs'⟩

/-! ## The whole PDU -/

theorem encoding_eq {seven : Bool} {dcs : Nat} (h : Coded seven dcs) :
    encoding dcs = .ok (if seven then 0 else 1) := by
  unfold encoding
  rcases h with ⟨hlt, hcode⟩ | ⟨hge, hlt, hcode⟩
  · rw [if_pos (by omega), hcode]
    cases seven <;> rfl
  · rw [if_neg (by omega), if_pos (by omega), hcode]

theorem Coded.lt {seven : Bool} {dcs : Nat} (h : Coded seven dcs) : dcs < 256 := by
  rcases h with ⟨hlt, -⟩ | ⟨-, hlt, -⟩ <;> omega

/-- The fields are read from their places. -/
theorem decodeSmspdu_hex {smsc sender scts user : List Nat} {deliver len toa pid dcs udl : Nat}
    (hl : ∀ b ∈ (smsc.length :: smsc) ++ ([deliver, len, toa] ++ (sender ++ ([pid, dcs] ++
      (scts ++ udl :: user)))), b < 256)
    (hsmsc : smsc ≠ []) (hsender : sender.length = (len + 1) / 2) (hscts : scts.length = 7) :
    decodeSmspdu (hex ((smsc.length :: smsc) ++ ([deliver, len, toa] ++ (sender ++ ([pid, dcs] ++
        (scts ++ udl :: user)))))) =
      match encoding dcs with
      | .error e => .error e
      | .ok encoding =>
        match userData (hex user) (deliver.testBit 6) udl encoding with
        | .error e => .error e
        | .ok (header, message) =>
          .ok ⟨senderAddress (hex (sender ++ ([pid, dcs] ++ (scts ++ udl :: user)))) toa len,
            hex scts, message, header⟩ := by
  have hpos : 0 < smsc.length := length_pos_iff.mpr hsmsc
  have hinfo : readbyte (hex ((smsc.length :: smsc) ++ ([deliver, len, toa] ++ (sender ++
      ([pid, dcs] ++ (scts ++ udl :: user)))))) 0 = smsc.length :=
    readbyte_at (a := []) hl rfl rfl
  have hstart : (if smsc.length > 0 then 2 else 1) + smsc.length - 1 = smsc.length + 1 := by
    rw [if_pos hpos]
    omega
  -- the octets before the address, and those up to its end
  obtain ⟨a, ha⟩ : ∃ a, a = smsc.length :: smsc := ⟨_, rfl⟩
  have halen : a.length = smsc.length + 1 := by rw [ha, length_cons]
  obtain ⟨b, hb⟩ : ∃ b, b = a ++ ([deliver, len, toa] ++ sender) := ⟨_, rfl⟩
  have hblen : b.length = smsc.length + 1 + 3 + (len + 1) / 2 := by
    rw [hb, length_append, length_append, halen, hsender]
    simp only [length_cons, length_nil]
    omega
  have hsplit : a ++ ([deliver, len, toa] ++ (sender ++ ([pid, dcs] ++ (scts ++ udl :: user)))) =
      b ++ ([pid, dcs] ++ (scts ++ udl :: user)) := by
    rw [hb, append_assoc, append_assoc]
  rw [← ha] at hl hinfo ⊢
  have hfirst := readbyte_at (a := a) hl rfl halen
  have hlen := readbyte_at (a := a ++ [deliver]) (b := len) (p := smsc.length + 1 + 1) hl
    (by rw [append_assoc]; rfl) (by simp [halen])
  have htoa := readbyte_at (a := a ++ [deliver, len]) (b := toa) (p := smsc.length + 1 + 2) hl
    (by rw [append_assoc]; rfl) (by simp [halen])
  have haddress := drop_at (a := a ++ [deliver, len, toa]) (p := smsc.length + 1 + 3)
    (l := a ++ ([deliver, len, toa] ++ (sender ++ ([pid, dcs] ++ (scts ++ udl :: user)))))
    (by rw [append_assoc]) (by simp [halen])
  rw [hsplit] at hl hinfo hfirst hlen htoa haddress ⊢
  have hdcs := readbyte_at (a := b ++ [pid]) (b := dcs) (p := b.length + 1) hl
    (by rw [append_assoc]; rfl) (by simp)
  have hstamp := drop_at (a := b ++ [pid, dcs]) (p := b.length + 2)
    (l := b ++ ([pid, dcs] ++ (scts ++ udl :: user))) (by rw [append_assoc]) (by simp)
  have hudl := readbyte_at (a := b ++ ([pid, dcs] ++ scts)) (b := udl) (c := user)
    (p := b.length + 9) hl (by simp) (by simp [hscts])
  have huser := drop_at (a := b ++ ([pid, dcs] ++ (scts ++ [udl]))) (c := user)
    (p := b.length + 10) (l := b ++ ([pid, dcs] ++ (scts ++ udl :: user))) (by simp) (by simp [hscts])
  have htake : (hex (scts ++ udl :: user)).take 14 = hex scts := by
    rw [hex_append]
    exact take_left' (by rw [length_hex, hscts])
  rw [decodeSmspdu]
  simp only [hinfo, hstart, hfirst, hlen, htoa, haddress, ← hblen, hdcs, hstamp, hudl, huser, htake] <;>
    cases encoding dcs with
    | error e => rfl
    | ok encoding => cases userData (hex user) (deliver.testBit 6) udl encoding <;> rfl

namespace Message

variable {m : Message} {c : Cover} {k : Nat} {part : List Nat}

theorem concatElement_full : (m.concatElement k).Full := by
  unfold concatElement
  cases m.wide <;> simp [Element.Full]

theorem concatElement_octets_lt (hm : m.Ok) (hk : k < m.parts.length) :
    ∀ b ∈ (m.concatElement k).octets, b < 256 := by
  have href := hm.ref
  have hfew := hm.few
  unfold concatElement
  cases hwide : m.wide with
  | true =>
    rw [hwide, if_pos rfl] at href
    simp only [if_true, Element.octets, length_cons, length_nil, mem_cons,
      not_mem_nil, or_false]
    omega
  | false =>
    rw [hwide, if_neg Bool.false_ne_true] at href
    simp only [Bool.false_eq_true, if_false, Element.octets, length_cons, length_nil,
      mem_cons, not_mem_nil, or_false]
    omega

theorem take_concatElement (hm : m.Ok) (hk : k < m.parts.length) (h : Header) :
    (h.take (m.concatElement k)).concatRef = m.ref ∧
      (h.take (m.concatElement k)).concatMaxnb = m.parts.length ∧
      (h.take (m.concatElement k)).concatSeqnb = k + 1 := by
  have hdata : ∀ b ∈ (m.concatElement k).data, b < 256 := fun b hb =>
    concatElement_octets_lt hm hk b (mem_cons_of_mem _ (mem_cons_of_mem _ hb))
  unfold Header.take Header.read
  simp only [readbyte_hex hdata]
  unfold concatElement
  cases m.wide with
  | true =>
    refine ⟨?_, rfl, rfl⟩
    show m.ref / 256 * 256 + m.ref % 256 = m.ref
    omega
  | false => exact ⟨rfl, rfl, rfl⟩

/-- The place read from the whole header. -/
theorem header_place (hm : m.Ok) (hk : k < m.parts.length)
    (hes : ∀ e ∈ c.before ++ c.after, e.Ok) (h : Header) :
    ((m.elements c k).foldl Header.take h).concatRef = m.ref ∧
      ((m.elements c k).foldl Header.take h).concatMaxnb = m.parts.length ∧
      ((m.elements c k).foldl Header.take h).concatSeqnb = k + 1 := by
  have hafter : ∀ e ∈ c.after, e.Ok := fun e he => hes e (mem_append_right _ he)
  rw [elements, foldl_append, foldl_cons]
  obtain ⟨hr, hn, hs⟩ := Header.foldl_keeps hafter
    ((c.before.foldl Header.take h).take (m.concatElement k))
  rw [hr, hn, hs]
  exact take_concatElement hm hk _

theorem elements_full (hes : ∀ e ∈ c.before ++ c.after, e.Ok) : ∀ e ∈ m.elements c k, e.Full := by
  intro e he
  rcases mem_append.mp he with he | he
  · exact (hes e (mem_append_left _ he)).full
  rcases mem_cons.mp he with rfl | he
  · exact concatElement_full
  · exact (hes e (mem_append_right _ he)).full

theorem header_lt (hm : m.Ok) (hk : k < m.parts.length) (hc : c.Ok m k part) :
    ∀ b ∈ m.header c k, b < 256 := by
  intro b hb
  rcases mem_cons.mp hb with rfl | hb
  · have hfits := hc.fits
    rw [userOctets, length_append, header, headerOctets, length_cons] at hfits
    omega
  obtain ⟨e, he, hb⟩ := mem_flatMap.mp hb
  rcases mem_append.mp he with he | he
  · exact (hc.elements e (mem_append_left _ he)).octets_lt b hb
  rcases mem_cons.mp he with rfl | he
  · exact concatElement_octets_lt hm hk b hb
  · exact (hc.elements e (mem_append_right _ he)).octets_lt b hb

theorem userOctets_lt (hm : m.Ok) (hk : k < m.parts.length) (hpart : part ∈ m.parts)
    (hc : c.Ok m k part) : ∀ b ∈ m.userOctets c k part, b < 256 := by
  intro b hb
  rcases mem_append.mp hb with hb | hb
  · exact header_lt hm hk hc b hb
  have hchars := hm.characters part hpart
  cases hseven : m.seven with
  | true =>
    rw [hseven, if_pos rfl] at hb
    exact octetsOf_lt hb
  | false =>
    rw [hseven, if_neg Bool.false_ne_true] at hb
    have := hchars b hb
    rwa [hseven, if_neg Bool.false_ne_true] at this

theorem userLength_lt (hc : c.Ok m k part) : m.userLength c k part < 256 := by
  have hfits := hc.fits
  rw [userOctets, length_append] at hfits
  unfold userLength
  cases hseven : m.seven with
  | true =>
    rw [hseven, if_pos rfl, length_octetsOf] at hfits
    rw [if_pos rfl]
    omega
  | false =>
    rw [hseven, if_neg Bool.false_ne_true] at hfits
    rw [if_neg Bool.false_ne_true]
    omega

theorem header_length_pos : 0 < ((m.elements c k).flatMap Element.octets).length := by
  have hmem : (m.concatElement k).id ∈ (m.elements c k).flatMap Element.octets :=
    mem_flatMap.mpr
      ⟨m.concatElement k, mem_append_right _ mem_cons_self, mem_cons_self⟩
  exact length_pos_of_mem hmem

/-- The user data are decoded as the header and the text. -/
theorem userData_eq (hm : m.Ok) (hlegible : m.Legible) (hk : k < m.parts.length)
    (hpart : part ∈ m.parts) (hc : c.Ok m k part) :
    userData (hex (m.userOctets c k part)) true (m.userLength c k part) (if m.seven then 0 else 1) =
      .ok ((m.elements c k).foldl Header.take {}, m.textOf part) := by
  have hl := userOctets_lt hm hk hpart hc
  have hes := elements_full (m := m) (k := k) hc.elements
  have hchars := hm.characters part hpart
  unfold userOctets userLength textOf at *
  cases hseven : m.seven with
  | true =>
    rw [hseven, if_pos rfl] at hl hchars
    have hclosed := hm.closed hseven part hpart
    have hlegible := hlegible.parts hseven part hpart
    have hpos : 0 < part.length := length_pos_iff.mpr (hm.filled part hpart)
    have hfirst : m.firstSeptet c k = ((m.header c k).length * 8 + 6) / 7 := rfl
    have hcount : ((((m.firstSeptet c k + part.length : Nat) : Int) * 7 -
        ((m.header c k).length : Int) * 8).tdiv 7) = part.length := by
      rw [Int.tdiv_eq_ediv_of_nonneg (by omega)]
      omega
    have hread := userData_septets hes header_length_pos hl (m.firstSeptet c k + part.length)
    rw [← header, hcount, if_neg (by omega), Int.toNat_natCast] at hread
    simp only [if_true]
    refine hread.trans (congrArg (fun text => Except.ok (_, text)) ?_)
    refine convert_eq hchars hclosed hlegible fun i hi => ?_
    have hl' := hl
    rw [← append_nil (octetsOf _ _ _)] at hl' ⊢
    exact read7bits_packed hl' hchars (by omega) (by omega) hi
  | false =>
    rw [hseven, if_neg Bool.false_ne_true] at hl hchars
    have hread := userData_octets hes header_length_pos hl ((m.header c k).length + part.length)
    simp only [Bool.false_eq_true, if_false]
    refine hread.trans (congrArg (fun text => Except.ok (_, text)) ?_)
    rw [← header, Nat.add_sub_cancel_left]
    exact hextobin_eq hl

def octets (m : Message) (c : Cover) (k : Nat) (part : List Nat) : List Nat :=
  (c.smsc.length :: c.smsc) ++ ([c.deliver, m.sender.length, m.sender.toa] ++
    (m.sender.octets ++ ([c.pid, c.dcs] ++ (c.scts ++
      (m.userLength c k part :: m.userOctets c k part)))))

theorem octets_lt (hm : m.Ok) (hk : k < m.parts.length) (hpart : part ∈ m.parts)
    (hc : c.Ok m k part) : ∀ b ∈ m.octets c k part, b < 256 := by
  obtain ⟨hsmsc, hdeliver, hpid, hscts⟩ := hc.octets
  obtain ⟨htoa, hlength⟩ := Sender.octet_fields hm.sender
  intro b hb
  simp only [octets, mem_append, mem_cons, not_mem_nil, or_false] at hb
  rcases hb with (rfl | hb) | (rfl | rfl | rfl) | hb | (rfl | rfl) | hb | rfl | hb
  · exact hc.smsc
  · exact hsmsc b hb
  · exact hdeliver
  · exact hlength
  · exact htoa
  · exact Sender.octets_lt hm.sender b hb
  · exact hpid
  · exact hc.dcs.lt
  · exact hscts b hb
  · exact userLength_lt hc
  · exact userOctets_lt hm hk hpart hc b hb

/-- A segment that says its SMSC is decoded as the network meant it. -/
theorem decode_pdu (hm : m.Ok) (hlegible : m.Legible) (hk : k < m.parts.length)
    (hpart : part ∈ m.parts) (hc : c.Ok m k part) (hsmsc : c.smsc ≠ []) :
    decodeSmspdu (m.pdu c k part) =
      .ok ⟨m.sender.text, hex c.scts, m.textOf part, (m.elements c k).foldl Header.take {}⟩ := by
  have hl := octets_lt hm hk hpart hc
  have hrest : ∀ b ∈ [c.pid, c.dcs] ++ (c.scts ++
      m.userLength c k part :: m.userOctets c k part), b < 256 := by
    intro b hb
    exact hl b (mem_append_right _ (mem_append_right _ (mem_append_right _ hb)))
  rw [pdu, decodeSmspdu_hex hl hsmsc (Sender.length_octets m.sender) hc.scts,
    encoding_eq hc.dcs, hc.indicator, senderAddress_eq hm.sender hlegible.sender hrest]
  simp only [userData_eq hm hlegible hk hpart hc]

end Message

end Mihini.Messaging
