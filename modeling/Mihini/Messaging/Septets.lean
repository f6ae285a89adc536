import Mihini.Messaging.Deliver

/-!
# Texts packed into septets

`convert_ascii_to_7bit` and its inverse: the two tables, the escapes, and septets written over
a hexadecimal buffer. Three characters do not come back: `ö`, which the table gives a septet
that is not its own, and `^` and `|`, whose second septet is looked up before the switch on it.
-/

namespace Mihini.Messaging

open Lib List

/-! ## The packing -/

/-- ISO-8859-1 in the default alphabet, 128 added to what needs an escape. -/
def lookupAscii8to7 : List Nat :=
  [63, 63, 63, 63, 63, 63, 63, 63, 63, 63, 10, 63, 138, 13, 63, 63,
   63, 63, 63, 63, 63, 63, 63, 63, 63, 63, 63, 63, 63, 63, 63, 63,
   32, 33, 34, 35, 2, 37, 38, 39, 40, 41, 42, 43, 44, 45, 46, 47,
   48, 49, 50, 51, 52, 53, 54, 55, 56, 57, 58, 59, 60, 61, 62, 63,
   0, 65, 66, 67, 68, 69, 70, 71, 72, 73, 74, 75, 76, 77, 78, 79,
   80, 81, 82, 83, 84, 85, 86, 87, 88, 89, 90, 188, 175, 190, 148, 17,
   217, 97, 98, 99, 100, 101, 102, 103, 104, 105, 106, 107, 108, 109, 110, 111,
   112, 113, 114, 115, 116, 117, 118, 119, 120, 121, 122, 168, 192, 169, 189, 63,
   63, 63, 39, 102, 34, 63, 63, 63, 63, 63, 83, 39, 214, 63, 63, 63,
   63, 39, 39, 34, 34, 42, 45, 45, 39, 63, 115, 39, 111, 63, 63, 89,
   32, 64, 99, 1, 36, 3, 33, 95, 34, 63, 63, 60, 63, 45, 63, 63,
   63, 63, 50, 51, 39, 117, 63, 63, 63, 49, 63, 62, 63, 63, 63, 96,
   65, 65, 65, 65, 91, 14, 28, 9, 31, 31, 31, 31, 73, 73, 73, 73,
   68, 93, 79, 79, 79, 79, 92, 42, 11, 85, 85, 85, 94, 89, 63, 30,
   127, 97, 97, 97, 123, 15, 29, 9, 4, 5, 101, 101, 7, 7, 105, 105,
   63, 125, 8, 111, 111, 111, 24, 47, 12, 6, 117, 117, 126, 121, 63, 121]

def writebyte (val : Nat) (buf : Str) (pos : Nat) : Str :=
  (buf.set (2 * pos) (digit (val / 16 % 16))).set (2 * pos + 1) (digit (val % 16))

def write7bits (buffer : Str) (val pos : Nat) : Str :=
  let val := val &&& 0x7F
  if pos % 8 = 0 then writebyte val buffer (pos / 8)
  else if pos % 8 = 1 then writebyte (readbyte buffer (pos / 8) ||| val <<< 1) buffer (pos / 8)
  else
    writebyte (val >>> (8 - pos % 8))
      (writebyte (readbyte buffer (pos / 8) ||| val <<< (pos % 8)) buffer (pos / 8)) (pos / 8 + 1)

def putChar (s : Nat × Str) (c : Nat) : Nat × Str :=
  let byte := lookupAscii8to7.getD c 0
  if byte < 128 then (s.1 + 1, write7bits s.2 byte (s.1 * 7))
  else (s.1 + 2, write7bits (write7bits s.2 27 (s.1 * 7)) (byte - 128) (s.1 * 7 + 7))

def convertAsciiTo7bit (ascii : Str) (pos length : Nat) (a7bit : Str) : Nat × Str :=
  ((ascii.drop pos).take length).foldl putChar (0, a7bit)

def alphabet : List Nat :=
  lookupAscii7to8.filter (· ≠ 27) ++ [12, 94, 123, 125, 92, 91, 126, 93, 124]

def returned (c : Nat) : Nat := if c = 94 ∨ c = 124 ∨ c = 246 then 63 else c

def septetsOf (c : Nat) : List Nat :=
  if lookupAscii8to7.getD c 0 < 128 then [lookupAscii8to7.getD c 0]
  else [27, lookupAscii8to7.getD c 0 - 128]

def septets (text : Str) : List Nat := text.flatMap septetsOf

/-! ## Bytes and bits of the buffer -/

theorem length_writebyte (val : Nat) (buf : Str) (pos : Nat) :
    (writebyte val buf pos).length = buf.length := by
  rw [writebyte, length_set, length_set]

variable {buf : Str}

theorem readbyte_writebyte {pos : Nat} (hroom : 2 * pos + 1 < buf.length)
    (val j : Nat) :
    readbyte (writebyte val buf pos) j = if j = pos then val % 256 else readbyte buf j := by
  have hget : ∀ i, (writebyte val buf pos).getD i 0 =
      if i = 2 * pos + 1 then digit (val % 16)
      else if i = 2 * pos then digit (val / 16 % 16) else buf.getD i 0 := by
    intro i
    rw [writebyte, getD_eq_getElem?_getD, getElem?_set, getElem?_set, length_set,
      getD_eq_getElem?_getD]
    by_cases hlow : 2 * pos + 1 = i
    · rw [if_pos hlow, if_pos (by omega), if_pos hlow.symm, Option.getD_some]
    · rw [if_neg hlow, if_neg (Ne.symm hlow)]
      by_cases hhigh : 2 * pos = i
      · rw [if_pos hhigh, if_pos (by omega), if_pos hhigh.symm, Option.getD_some]
      · rw [if_neg hhigh, if_neg (Ne.symm hhigh)]
  rw [readbyte, hget, hget]
  by_cases hj : j = pos
  · subst hj
    rw [if_neg (by omega), if_pos rfl, if_pos rfl, if_pos rfl,
      nibble_digit (Nat.mod_lt _ (by decide)), nibble_digit (Nat.mod_lt _ (by decide))]
    omega
  · rw [if_neg (by omega), if_neg (by omega), if_neg (by omega), if_neg (by omega), if_neg hj,
      readbyte]

/-- A septet written sets its own bits, clears those above it in its last byte and leaves the
bits below, where the rest of its first byte was clear. -/
theorem bit_write7bits {val pos : Nat} (hroom : 2 * ((pos + 14) / 8) ≤ buf.length)
    (hclear : ∀ m, pos ≤ m → m < 8 * ((pos + 7) / 8) → bit buf m = false)
    {n : Nat} (hn : n < 8 * ((pos + 14) / 8)) :
    bit (write7bits buf val pos) n =
      if n < pos then bit buf n else (val &&& 0x7F).testBit (n - pos) := by
  have hold : n / 8 = pos / 8 → ¬ n < pos → pos % 8 ≠ 0 →
      (readbyte buf (pos / 8)).testBit (n % 8) = false := by
    intro hbyte hge hne
    rw [← hbyte]
    exact hclear n (Nat.le_of_not_lt hge) (by omega)
  have hmod : ∀ v, (v % 256).testBit (n % 8) = v.testBit (n % 8) := by
    intro v
    rw [show 256 = 2 ^ 8 from rfl, Nat.testBit_mod_two_pow, decide_eq_true (by omega),
      Bool.true_and]
  rw [write7bits]
  generalize val &&& 0x7F = v
  by_cases haligned : pos % 8 = 0
  · rw [if_pos haligned, bit, readbyte_writebyte (by omega)]
    by_cases hlt : n < pos
    · rw [if_pos hlt, if_neg (by omega), bit]
    · rw [if_neg hlt, if_pos (by omega), hmod, show n % 8 = n - pos by omega]
  · rw [if_neg haligned]
    have hfirst : n / 8 = pos / 8 → ((readbyte buf (pos / 8) ||| v <<< (pos % 8)) % 256).testBit
        (n % 8) = if n < pos then bit buf n else v.testBit (n - pos) := by
      intro hbyte
      rw [hmod, Nat.testBit_or, Nat.testBit_shiftLeft]
      by_cases hlt : n < pos
      · rw [decide_eq_false (by omega), Bool.false_and, Bool.or_false, if_pos hlt, bit, hbyte]
      · rw [hold hbyte hlt haligned, decide_eq_true (by omega), Bool.true_and, Bool.false_or,
          if_neg hlt, show n % 8 - pos % 8 = n - pos by omega]
    by_cases hone : pos % 8 = 1
    · rw [if_pos hone, ← hone, bit, readbyte_writebyte (by omega)]
      by_cases hbyte : n / 8 = pos / 8
      · rw [if_pos hbyte, hfirst hbyte]
      · rw [if_neg hbyte, if_pos (by omega), bit]
    · rw [if_neg hone, bit, readbyte_writebyte (by rw [length_writebyte]; omega),
        readbyte_writebyte (by omega)]
      by_cases hbyte : n / 8 = pos / 8
      · rw [if_neg (by omega), if_pos hbyte, hfirst hbyte]
      · rw [if_neg hbyte]
        by_cases hnext : n / 8 = pos / 8 + 1
        · rw [if_pos hnext, hmod, Nat.testBit_shiftRight, if_neg (by omega),
            show 8 - pos % 8 + n % 8 = n - pos by omega]
        · rw [if_neg hnext, if_pos (by omega), bit]

/-! ## The text in the buffer -/

/-- The buffer starts with the septets `s`, and the last of their bytes is filled with zeros. -/
def Packed (buf : Str) (s : List Nat) : Prop :=
  ∀ n < 8 * ((7 * s.length + 7) / 8), bit buf n = septetBits 0 s n

theorem length_write7bits (buf : Str) (val pos : Nat) :
    (write7bits buf val pos).length = buf.length := by
  unfold write7bits
  split_ifs <;> simp only [length_writebyte]

variable {s : List Nat}

theorem Packed.snoc {c : Nat} (h : Packed buf s) (hc : c < 128)
    (hroom : 2 * ((7 * (s.length + 1) + 7) / 8) ≤ buf.length) :
    Packed (write7bits buf c (s.length * 7)) (s ++ [c]) := by
  intro n hn
  rw [length_append, length_singleton] at hn
  have hfilled : ∀ m, s.length * 7 ≤ m → septetBits 0 s m = false := by
    intro m hm
    rw [septetBits, if_neg (by omega), getD_eq_default _ _ (by omega), Nat.zero_testBit]
  rw [bit_write7bits (by omega)
    (fun m hm hlt => (h m (by omega)).trans (hfilled m hm)) (by omega),
    show (0x7F : Nat) = 2 ^ 7 - 1 from rfl, Nat.and_two_pow_sub_one_of_lt_two_pow hc, septetBits,
    if_neg (by omega : ¬ n < 7 * 0)]
  by_cases hold : n < s.length * 7
  · rw [if_pos hold, h n (by omega), septetBits, if_neg (by omega),
      getD_append _ _ _ _ (by omega)]
  · rw [if_neg hold, getD_append_right _ _ _ _ (by omega)]
    by_cases hown : n < s.length * 7 + 7
    · rw [show (n - 7 * 0) / 7 - s.length = 0 by omega,
        show (n - 7 * 0) % 7 = n - s.length * 7 by omega]
      rfl
    · rw [getD_eq_default _ _ (by rw [length_singleton]; omega), Nat.zero_testBit]
      have h128 : 2 ^ 7 ≤ 2 ^ (n - s.length * 7) := Nat.pow_le_pow_right (by decide) (by omega)
      exact Nat.testBit_lt_two_pow (Nat.lt_of_lt_of_le hc h128)

theorem Packed.read (h : Packed buf s) (hs : ∀ c ∈ s, c < 128)
    {k : Nat} (hk : k < s.length) : read7bits buf (k * 7) = s[k] := by
  have hread : read7bits buf ((0 + k) * 7) = s[k] :=
    read7bits_bits hs hk fun n _ hn => h n (by omega)
  rwa [Nat.zero_add] at hread

theorem alphabet_checked : ∀ c ∈ alphabet,
    (∀ d ∈ septetsOf c, d < 128) ∧ returned c ≠ 27 ∧
      if lookupAscii8to7.getD c 0 < 128 then
        lookupAscii7to8.getD (lookupAscii8to7.getD c 0) 0 = returned c
      else escaped (lookupAscii7to8.getD (lookupAscii8to7.getD c 0 - 128) 0) = returned c := by
  decide +kernel

theorem foldl_putChar_fst (text : Str) (n : Nat) (buf : Str) :
    (text.foldl putChar (n, buf)).1 = n + (septets text).length := by
  induction text generalizing n buf with
  | nil => rfl
  | cons c text ih =>
    have hput : (putChar (n, buf) c).1 = n + (septetsOf c).length := by
      simp only [putChar, septetsOf]
      split_ifs <;> rfl
    rw [foldl_cons, ih, hput, septets, septets, flatMap_cons, length_append, Nat.add_assoc]

/-- The loop writes the septets of the text after those that are there. -/
theorem foldl_putChar_packed {text : Str} (htext : ∀ c ∈ text, c ∈ alphabet)
    (hs : Packed buf s)
    (hroom : 2 * ((7 * (s ++ septets text).length + 7) / 8) ≤ buf.length) :
    Packed (text.foldl putChar (s.length, buf)).2 (s ++ septets text) := by
  induction text generalizing s buf with
  | nil => rwa [septets, flatMap_nil, append_nil]
  | cons c text ih =>
    have hlt := (alphabet_checked c (htext c mem_cons_self)).1
    have hsplit : septets (c :: text) = septetsOf c ++ septets text := flatMap_cons
    rw [hsplit, ← append_assoc] at hroom ⊢
    have hput : ∃ buf', putChar (s.length, buf) c = ((s ++ septetsOf c).length, buf') ∧
        buf'.length = buf.length ∧ Packed buf' (s ++ septetsOf c) := by
      rw [length_append] at hroom
      unfold putChar septetsOf at *
      by_cases hplain : lookupAscii8to7.getD c 0 < 128
      · simp only [if_pos hplain, length_append, length_singleton] at hroom ⊢
        exact ⟨_, rfl, length_write7bits _ _ _, hs.snoc hplain (by omega)⟩
      · simp only [if_neg hplain, mem_cons, forall_eq_or_imp, length_append, length_cons,
          length_nil] at hroom hlt ⊢
        have hescape := hs.snoc (show 27 < 128 by decide) (by omega)
        have hcode := hescape.snoc hlt.2.1
          (by rw [length_append, length_singleton, length_write7bits]; omega)
        rw [length_append, length_singleton, Nat.add_mul, append_assoc] at hcode
        exact ⟨_, rfl, by rw [length_write7bits, length_write7bits], hcode⟩
    obtain ⟨buf', hput, hlength, hpacked⟩ := hput
    rw [foldl_cons, hput]
    exact ih (fun d hd => htext d (mem_cons_of_mem c hd)) hpacked (by rwa [hlength])

theorem convert_plain {r : Nat} (h : septet buf r ≠ 27) (n : Nat) :
    convert7bitToAscii buf r (n + 1) = septet buf r :: convert7bitToAscii buf (r + 1) n := by
  cases n with
  | zero => rw [Nat.zero_add, convert7bitToAscii, convert7bitToAscii, if_pos h]
  | succ n => rw [convert7bitToAscii, if_pos h]

/-- Septets read where they were put give each character back, or a question mark. -/
theorem convert_septets {text : Str} (htext : ∀ c ∈ text, c ∈ alphabet) {r : Nat}
    (hread : ∀ k (hk : k < (septets text).length),
      read7bits buf ((r + k) * 7) = (septets text)[k]) :
    convert7bitToAscii buf r (septets text).length = text.map returned := by
  induction text generalizing r with
  | nil => rfl
  | cons c text ih =>
    obtain ⟨hne, hback⟩ := (alphabet_checked c (htext c mem_cons_self)).2
    have hrest := fun d hd => htext d (mem_cons_of_mem c hd)
    have hsplit : septets (c :: text) = septetsOf c ++ septets text := flatMap_cons
    rw [hsplit] at hread ⊢
    rw [septetsOf] at hread ⊢
    rw [map_cons]
    by_cases hplain : lookupAscii8to7.getD c 0 < 128
    · simp only [if_pos hplain, singleton_append] at hback hread ⊢
      have hfirst : septet buf r = returned c :=
        (septet_eq (hread 0 (Nat.succ_pos _))).trans hback
      have htail := ih hrest (r := r + 1) fun k hk => by
        rw [Nat.add_assoc, Nat.add_comm 1 k]
        exact hread (k + 1) (Nat.succ_lt_succ hk)
      rw [length_cons, convert_plain (by rwa [hfirst]), hfirst, htail]
    · simp only [if_neg hplain, cons_append, nil_append] at hback hread ⊢
      have hescape : septet buf r = 27 := septet_eq (hread 0 (Nat.succ_pos _))
      have hcode : escaped (septet buf (r + 1)) = returned c := by
        rw [septet_eq (hread 1 (Nat.succ_lt_succ (Nat.succ_pos _)))]
        exact hback
      have htail := ih hrest (r := r + 2) fun k hk => by
        rw [Nat.add_assoc, Nat.add_comm 2 k]
        exact hread (k + 2) (Nat.succ_lt_succ (Nat.succ_lt_succ hk))
      rw [length_cons, length_cons, convert7bitToAscii, if_neg (not_not.mpr hescape), hcode, htail]

/-! ## The round trip -/

/-- A text packed after another comes back, with as many septets, exactly when it has none of
the three characters. -/
theorem septets_round_trip (before start text after a7bit : Str)
    (htext : ∀ c ∈ start ++ text, c ∈ alphabet)
    (hroom : 2 * ((7 * (septets (start ++ text)).length + 7) / 8) ≤ a7bit.length) :
    let packed := convertAsciiTo7bit (before ++ (start ++ text) ++ after) before.length
      (start ++ text).length a7bit
    let first := (convertAsciiTo7bit start 0 start.length a7bit).1
    let back := convert7bitToAscii packed.2 first (packed.1 - first)
    back = text ∧ (convertAsciiTo7bit back 0 back.length a7bit).1 = packed.1 - first ↔
      94 ∉ text ∧ 124 ∉ text ∧ 246 ∉ text := by
  intro packed first back
  have hpacked : packed = (start ++ text).foldl putChar (0, a7bit) := by
    simp only [packed, convertAsciiTo7bit, append_assoc _ _ after, drop_left]
    rw [← append_assoc, take_left]
  have hcount : ∀ t : Str, (convertAsciiTo7bit t 0 t.length a7bit).1 = (septets t).length := by
    intro t
    rw [convertAsciiTo7bit, drop_zero, take_length, foldl_putChar_fst, Nat.zero_add]
  have hsplit : septets (start ++ text) = septets start ++ septets text := flatMap_append
  have hfirst : first = (septets start).length := hcount start
  have hlength : packed.1 - first = (septets text).length := by
    rw [hpacked, foldl_putChar_fst, hfirst, hsplit, length_append]
    omega
  have hbits : Packed packed.2 (septets start ++ septets text) := by
    rw [hpacked, ← hsplit]
    exact foldl_putChar_packed htext (s := []) (fun n hn => absurd hn (by simp)) hroom
  have hlt : ∀ d ∈ septets start ++ septets text, d < 128 := by
    intro d hd
    rw [← hsplit] at hd
    obtain ⟨c, hc, hd⟩ := mem_flatMap.mp hd
    exact (alphabet_checked c (htext c hc)).1 d hd
  have hback : back = text.map returned := by
    simp only [back, hlength]
    refine convert_septets (fun c hc => htext c (mem_append_right start hc)) fun k hk => ?_
    rw [hfirst, hbits.read hlt (by rw [length_append]; omega), getElem_append_right (Nat.le_add_right _ _)]
    simp only [Nat.add_sub_cancel_left]
  have hsame : back = text ↔ ∀ c ∈ text, returned c = c := by
    rw [hback]
    conv_lhs => rhs; rw [← map_id text]
    exact map_inj_left
  rw [hcount, hlength, and_iff_left_of_imp (congrArg fun t => (septets t).length), hsame]
  constructor
  · intro h
    exact ⟨fun hc => absurd (h _ hc) (by decide), fun hc => absurd (h _ hc) (by decide),
      fun hc => absurd (h _ hc) (by decide)⟩
  · intro ⟨hcaret, hbar, hdieresis⟩ c hc
    refine if_neg ?_
    rintro (rfl | rfl | rfl)
    · exact hcaret hc
    · exact hbar hc
    · exact hdieresis hc

theorem septets_round_trip_bracket :
    convert7bitToAscii (convertAsciiTo7bit [66, 65, 91] 0 3 (replicate 8 48)).2 1 3 = [65, 91] :=
  ((septets_round_trip [] [66] [65, 91] [] (replicate 8 48) (by decide +kernel) (by decide)).mpr
    (by decide)).1

/-- A caret, a bar and an `ö` come back as question marks. -/
theorem packed_character_lost : [94, 124, 246] ⊆ alphabet ∧
    ([94, 124, 246].map fun c =>
      let packed := convertAsciiTo7bit [c] 0 1 (replicate 4 48)
      convert7bitToAscii packed.2 0 packed.1) = [[63], [63], [63]] := by
  decide +kernel

end Mihini.Messaging
