import Mihini.Messaging.Deliver

/-!
# SMS PDUs to send

`encode_smspdu` cuts a message into SMS-SUBMIT PDUs. The decoder is for SMS-DELIVER PDUs, whose
fields are at other places; its readings of an address and of user data are right on these too.
-/

namespace Mihini.Messaging

open List

/-! ## The encoder -/

structure Pdu where
  size : Nat
  buffer : Str

/-- A phone number as it is written, the characters of each pair exchanged. -/
def semiOctetChars (number : Str) (n : Nat) : Str :=
  (List.range n).map fun i => number.getD (2 * (i / 2) + 1 - i % 2) 0

/-- One turn of the loop, for the part of the message in the PDU `n`. -/
def submitPdu (nbOfSms concatRefLb concatRefHb : Nat) (number : Str) (toa n : Nat) (part : Str) : Pdu :=
  let addressLen := number.length
  let padded := if addressLen % 2 = 1 then number ++ [70] else number
  let header := if nbOfSms > 1 then [6, 8, 4, concatRefLb, concatRefHb, nbOfSms, n + 1] else []
  let buffer :=
    hex [0, (if nbOfSms > 1 then 64 else 0) + 0x11, 0, addressLen, toa] ++
      (semiOctetChars padded (2 * ((addressLen + 1) / 2)) ++
        hex ([0, 4, 0xAD, part.length + 7 * (if nbOfSms > 1 then 1 else 0)] ++ (header ++ part)))
  ⟨buffer.length / 2 - 1, buffer⟩

/-- The loop, from the PDU `n` on. -/
def segments (write : Nat → Str → Pdu) (maxSmsLength : Nat) : (count n : Nat) → Str → List Pdu
  | 0, _, _ => []
  | count + 1, n, message =>
    write n (message.take maxSmsLength) ::
      segments write maxSmsLength count (n + 1) (message.drop maxSmsLength)

/-- `concatRefLb` and `concatRefHb` are what `rand` gives. There is enough memory. -/
def encodeSmspdu (concatRefLb concatRefHb : Nat) (message address : Str) : Except Int (List Pdu) :=
  if message.length > 255 * 133 then .error (-100)
  else
    let long := message.length > 140
    let maxSmsLength := if long then 140 - 7 else 140
    let nbOfSms := if long then (message.length + maxSmsLength - 1) / maxSmsLength else 1
    if address.length > 20 then .error (-1)
    else
      let (number, toa) := if address.head? = some 43 then (address.tail, 0x91) else (address, 0x81)
      .ok (segments (submitPdu nbOfSms concatRefLb concatRefHb number toa) maxSmsLength nbOfSms 0
        message)

/-! ## Reading a PDU -/

structure Submit where
  address : Str
  header : Header
  message : Str
  udl : Nat
  user : Str

def readSubmit (pdu : Str) : Except Int Submit :=
  let len := readbyte pdu 3
  let pos := 5 + (len + 1) / 2
  let udl := readbyte pdu (pos + 3)
  let user := pdu.drop (2 * (pos + 4))
  match encoding (readbyte pdu (pos + 1)) with
  | .error e => .error e
  | .ok encoding =>
    match userData user ((readbyte pdu 1).testBit 6) udl encoding with
    | .error e => .error e
    | .ok (header, message) =>
      .ok ⟨senderAddress (pdu.drop 10) (readbyte pdu 4) len, header, message, udl, user⟩

theorem readbyte_append {x y : Str} {p : Nat} (h : 2 * p + 1 < x.length) :
    readbyte (x ++ y) p = readbyte x p := by
  rw [readbyte, getD_append _ _ _ _ (by omega), getD_append _ _ _ _ h, readbyte]

theorem readbyte_drop (l : Str) (p j : Nat) : readbyte (l.drop (2 * p)) j = readbyte l (p + j) := by
  rw [readbyte, readbyte]
  simp only [getD_eq_getElem?_getD, getElem?_drop]
  rw [show 2 * p + 2 * j = 2 * (p + j) by omega, show 2 * p + (2 * j + 1) = 2 * (p + j) + 1 by omega]

/-- The pairs of characters are exchanged back. -/
theorem senderAddress_chars {number padded : Str} {toa : Nat}
    (hpadded : ∀ i < number.length, padded.getD i 0 = number.getD i 0) (rest : Str)
    (htoa : toa / 16 % 8 ≠ 5) :
    senderAddress (semiOctetChars padded (2 * ((number.length + 1) / 2)) ++ rest) toa number.length =
      (if toa / 16 % 8 = 1 then [43] else []) ++ number := by
  have hchars : ((List.range number.length).map fun i =>
      (semiOctetChars padded (2 * ((number.length + 1) / 2)) ++ rest).getD
        (2 * (i / 2) + 1 - i % 2) 0) = number := by
    refine ext_getElem (by simp) fun i hi hi' => ?_
    have hj : 2 * (i / 2) + 1 - i % 2 < 2 * ((number.length + 1) / 2) := by omega
    have hlength : (semiOctetChars padded (2 * ((number.length + 1) / 2))).length =
        2 * ((number.length + 1) / 2) := by rw [semiOctetChars, length_map, length_range]
    rw [getElem_map, getElem_range, getD_append _ _ _ _ (by rwa [hlength]),
      getD_eq_getElem _ _ (by rwa [hlength])]
    simp only [semiOctetChars, getElem_map, getElem_range]
    rw [show 2 * ((2 * (i / 2) + 1 - i % 2) / 2) + 1 - (2 * (i / 2) + 1 - i % 2) % 2 = i by omega,
      hpadded i hi', getD_eq_getElem _ _ hi']
  simp only [senderAddress, if_neg htoa, hchars]

section

variable {nb lb hb n toa : Nat} {number part : Str}

/-- What a PDU of the encoder is read as. -/
theorem readSubmit_submitPdu (hnb : nb < 256) (hn : n < nb) (hlb : lb < 256) (hhb : hb < 256)
    (hnumber : number.length ≤ 20) (htoa : toa = 0x81 ∨ toa = 0x91) (hpart : ∀ b ∈ part, b < 256)
    (hfit : part.length + 7 * (if nb > 1 then 1 else 0) ≤ 140) :
    ∃ s, readSubmit (submitPdu nb lb hb number toa n part).buffer = .ok s ∧
      s.address = (if toa = 0x91 then [43] else []) ++ number ∧
      s.header = { concatRef := if nb > 1 then lb * 256 + hb else 0, concatMaxnb := nb, concatSeqnb := n + 1 } ∧
      s.message = part ∧ s.user.length = 2 * s.udl ∧ s.udl ≤ 140 := by
  obtain ⟨udl, hudl⟩ : ∃ udl, udl = part.length + 7 * (if nb > 1 then 1 else 0) := ⟨_, rfl⟩
  obtain ⟨header, hheader⟩ : ∃ l, l = if nb > 1 then [6, 8, 4, lb, hb, nb, n + 1] else [] := ⟨_, rfl⟩
  obtain ⟨first, hfirst⟩ : ∃ x, x = (if nb > 1 then 64 else 0) + 0x11 := ⟨_, rfl⟩
  obtain ⟨chars, hchars⟩ : ∃ l, l = semiOctetChars (if number.length % 2 = 1 then number ++ [70]
    else number) (2 * ((number.length + 1) / 2)) := ⟨_, rfl⟩
  have hbuffer : (submitPdu nb lb hb number toa n part).buffer =
      hex [0, first, 0, number.length, toa] ++
        (chars ++ hex ([0, 4, 0xAD, udl] ++ (header ++ part))) := by
    rw [hudl, hheader, hfirst, hchars]
    rfl
  have hlength : chars.length = 2 * ((number.length + 1) / 2) := by
    rw [hchars, semiOctetChars, length_map, length_range]
  have huser : ∀ b ∈ header ++ part, b < 256 := by
    intro b hb
    rcases mem_append.mp hb with hb | hb
    · rw [hheader] at hb
      split_ifs at hb
      · simp only [mem_cons, not_mem_nil, or_false] at hb
        omega
      · nomatch hb
    · exact hpart b hb
  have hhead : ∀ b ∈ [0, first, 0, number.length, toa], b < 256 := by
    have : first < 256 := by rw [hfirst]; split_ifs <;> decide
    simp only [mem_cons, not_mem_nil, or_false]
    omega
  have htail : ∀ b ∈ [0, 4, 0xAD, udl] ++ (header ++ part), b < 256 := by
    intro b hb
    rcases mem_append.mp hb with hb | hb
    · simp only [mem_cons, not_mem_nil, or_false] at hb
      omega
    · exact huser b hb
  have hbefore : ∀ p < 5, readbyte (submitPdu nb lb hb number toa n part).buffer p =
      [0, first, 0, number.length, toa].getD p 0 := by
    intro p hp
    rw [hbuffer, readbyte_append (by rw [length_hex, length_cons]; simp only [length_cons, length_nil]; omega),
      readbyte_hex hhead]
  have hdrop : (submitPdu nb lb hb number toa n part).buffer.drop 10 =
      chars ++ hex ([0, 4, 0xAD, udl] ++ (header ++ part)) := by
    rw [hbuffer]
    exact drop_left' (length_hex _)
  have hbehind : (submitPdu nb lb hb number toa n part).buffer.drop
      (2 * (5 + (number.length + 1) / 2)) = hex ([0, 4, 0xAD, udl] ++ (header ++ part)) := by
    rw [Nat.mul_add, ← drop_drop, hdrop]
    exact drop_left' hlength
  have hafter : ∀ j, readbyte (submitPdu nb lb hb number toa n part).buffer
      (5 + (number.length + 1) / 2 + j) = ([0, 4, 0xAD, udl] ++ (header ++ part)).getD j 0 := by
    intro j
    rw [← readbyte_drop, hbehind, readbyte_hex htail]
  have hdata : (submitPdu nb lb hb number toa n part).buffer.drop
      (2 * (5 + (number.length + 1) / 2 + 4)) = hex (header ++ part) := by
    rw [Nat.mul_add 2 _ 4, ← drop_drop, hbehind, drop_hex _ 4]
    rfl
  have haddress : senderAddress (chars ++ hex ([0, 4, 0xAD, udl] ++ (header ++ part))) toa
      number.length = (if toa = 0x91 then [43] else []) ++ number := by
    rw [hchars, senderAddress_chars (fun i hi => ?_) _ (by rcases htoa with rfl | rfl <;> decide)]
    · rcases htoa with rfl | rfl <;> rfl
    · split_ifs
      · exact getD_append _ _ _ _ hi
      · rfl
  have hread : userData (hex (header ++ part)) (first.testBit 6) udl 1 =
      .ok ({ concatRef := if nb > 1 then lb * 256 + hb else 0, concatMaxnb := nb, concatSeqnb := n + 1 },
        part) := by
    by_cases hlong : nb > 1
    · rw [if_pos hlong] at hudl hheader hfirst ⊢
      have hoctets : header = headerOctets [⟨8, [lb, hb, nb, n + 1]⟩] := hheader
      have hdata : ∀ b ∈ [lb, hb, nb, n + 1], b < 256 := by
        simp only [mem_cons, not_mem_nil, or_false]
        omega
      rw [hfirst, hudl, hoctets]
      rw [hoctets] at huser
      show userData _ true _ 1 = _
      rw [userData_octets (by simp [Element.Full]) (by simp [Element.octets]) huser,
        show part.length + 7 * 1 - (headerOctets [⟨8, [lb, hb, nb, n + 1]⟩]).length = part.length from
          Nat.add_sub_cancel .., hextobin_eq huser]
      simp only [foldl_cons, foldl_nil, Header.take, Header.read, readbyte_hex hdata]
      rfl
    · have hone : nb = 1 ∧ n = 0 := by omega
      rw [if_neg hlong] at hudl hheader hfirst ⊢
      have htext : hextobin (hex ([] ++ part)) 0 part.length = part := hextobin_eq hpart
      rw [hudl, hheader, hfirst, hone.1, hone.2]
      exact congrArg (fun t => (.ok ({}, t) : Except Int (Header × Str))) htext
  refine ⟨⟨_, _, part, udl, hex (header ++ part)⟩, ?_, rfl, rfl, rfl, ?_, hudl ▸ hfit⟩
  · have hlen : readbyte (submitPdu nb lb hb number toa n part).buffer 3 = number.length :=
      hbefore 3 (by decide)
    have htoa' : readbyte (submitPdu nb lb hb number toa n part).buffer 4 = toa :=
      hbefore 4 (by decide)
    have hfirst' : readbyte (submitPdu nb lb hb number toa n part).buffer 1 = first :=
      hbefore 1 (by decide)
    rw [readSubmit]
    rw [← haddress]
    simp only [hlen, htoa', hfirst', hafter, hdrop, hdata, cons_append, nil_append,
      getD_cons_succ, getD_cons_zero]
    rw [show encoding 4 = .ok 1 from rfl]
    simp only [hread]
  · rw [length_hex, length_append, hudl, hheader]
    split_ifs <;> simp only [length_cons, length_nil] <;> omega

end

/-! ## The whole message -/

theorem segments_getElem? (write : Nat → Str → Pdu) (max count n : Nat) (message : Str) (k : Nat) :
    (segments write max count n message)[k]? =
      if k < count then some (write (n + k) ((message.drop (k * max)).take max)) else none := by
  induction count generalizing n message k with
  | zero => rfl
  | succ count ih =>
    rw [segments]
    cases k with
    | zero => simp
    | succ k =>
      rw [getElem?_cons_succ, ih, drop_drop, Nat.succ_mul, Nat.add_comm max, Nat.add_right_comm]
      simp only [Nat.succ_lt_succ_iff, Nat.add_assoc]

theorem length_segments (write : Nat → Str → Pdu) (max count n : Nat) (message : Str) :
    (segments write max count n message).length = count := by
  induction count generalizing n message with
  | zero => rfl
  | succ count ih => rw [segments, length_cons, ih]

theorem flatten_parts (max count : Nat) (message : Str) :
    ((List.range count).map fun k => (message.drop (k * max)).take max).flatten =
      message.take (count * max) := by
  induction count with
  | zero => simp
  | succ count ih =>
    rw [List.range_succ, map_append, flatten_append, ih, map_singleton, flatten_singleton,
      Nat.succ_mul, take_add]

/-- The PDUs of a message give its address, its parts in order and their places. -/
theorem encodeSmspdu_lossless (lb hb : Nat) (message address : Str) {pdus : List Pdu}
    (hlb : lb < 256) (hhb : hb < 256) (hmessage : ∀ b ∈ message, b < 256)
    (h : encodeSmspdu lb hb message address = .ok pdus) :
    ∃ (ref : Nat) (parts : List Str), parts.length = pdus.length ∧ parts.flatten = message ∧
      ∀ k < pdus.length, ∃ p s, pdus[k]? = some p ∧ readSubmit p.buffer = .ok s ∧
        s.address = address ∧ parts[k]? = some s.message ∧
        s.header = { concatRef := ref, concatMaxnb := pdus.length, concatSeqnb := k + 1 } ∧
        s.user.length = 2 * s.udl ∧ s.udl ≤ 140 := by
  rw [encodeSmspdu] at h
  by_cases hmax : message.length > 255 * 133
  · rw [if_pos hmax] at h
    cases h
  by_cases haddress : address.length > 20
  · simp only [if_neg hmax, if_pos haddress] at h
    cases h
  simp only [if_neg hmax, if_neg haddress] at h
  obtain ⟨max, hmaxlen⟩ : ∃ m, m = if message.length > 140 then 140 - 7 else 140 := ⟨_, rfl⟩
  obtain ⟨nb, hnb⟩ : ∃ n, n = if message.length > 140 then (message.length + max - 1) / max else 1 :=
    ⟨_, rfl⟩
  obtain ⟨number, toa, haddr, htoa, hnumber, hpdus⟩ : ∃ number toa,
      (if toa = 0x91 then [43] else []) ++ number = address ∧ (toa = 0x81 ∨ toa = 0x91) ∧
      number.length ≤ 20 ∧ pdus = segments (submitPdu nb lb hb number toa) max nb 0 message := by
    rw [hnb, hmaxlen]
    by_cases hplus : address.head? = some 43
    · simp only [if_pos hplus, Except.ok.injEq] at h
      obtain ⟨tail, rfl⟩ := head?_eq_some_iff.mp hplus
      exact ⟨tail, 0x91, rfl, .inr rfl, by simp at haddress; omega, h.symm⟩
    · simp only [if_neg hplus, Except.ok.injEq] at h
      exact ⟨address, 0x81, rfl, .inl rfl, by omega, h.symm⟩
  have hfits : 0 < nb ∧ nb < 256 ∧ message.length ≤ nb * max ∧ (nb > 1 → max = 133) ∧ max ≤ 140 := by
    rw [hnb, hmaxlen]
    split_ifs <;> omega
  obtain ⟨hpos, hsmall, hwhole, hlong, hroom⟩ := hfits
  have hlength : pdus.length = nb := by rw [hpdus, length_segments]
  refine ⟨if nb > 1 then lb * 256 + hb else 0,
    (List.range nb).map fun k => (message.drop (k * max)).take max, by rw [hlength, length_map, length_range], ?_,
    fun k hk => ?_⟩
  · rw [flatten_parts, take_of_length_le hwhole]
  · rw [hlength] at hk ⊢
    obtain ⟨part, hpart⟩ : ∃ part, part = (message.drop (k * max)).take max := ⟨_, rfl⟩
    obtain ⟨s, hs, hsaddr, hheader, htext, hudl⟩ := @readSubmit_submitPdu nb lb hb k toa number part
      hsmall hk hlb hhb hnumber htoa (fun b hb => hmessage b (drop_subset _ _ (take_subset _ _ (hpart ▸ hb)))) (by
        have hle : part.length ≤ max := hpart ▸ length_take_le _ _
        split_ifs <;> omega)
    refine ⟨_, s, ?_, hs, hsaddr.trans haddr, ?_, hheader, hudl⟩
    · rw [hpdus, segments_getElem?, if_pos hk, Nat.zero_add, hpart]
    · rw [getElem?_map, getElem?_range hk, htext, hpart]
      rfl

theorem encodeSmspdu_lossless_letter : ∃ p s, encodeSmspdu 0 0 [65] [43, 49] = .ok [p] ∧
    readSubmit p.buffer = .ok s ∧ s.address = [43, 49] := by
  obtain ⟨_, _, -, -, hparts⟩ := encodeSmspdu_lossless 0 0 [65] [43, 49] (by decide) (by decide)
    (by decide) rfl
  obtain ⟨p, s, hp, hs, haddress, -⟩ := hparts 0 Nat.one_pos
  cases hp
  exact ⟨_, s, rfl, hs, haddress⟩

/-- The decoder takes a PDU of the encoder for one of another kind: here it refuses the text `A`
that is sent to `+1`. -/
theorem submit_not_deliver : ¬ ∀ (lb hb : Nat) (message address : Str) (pdus : List Pdu),
    encodeSmspdu lb hb message address = .ok pdus →
      ∀ p ∈ pdus, ∃ sms, decodeSmspdu p.buffer = .ok sms ∧ sms.address = address := by
  intro h
  obtain ⟨sms, hsms, -⟩ := h 0 0 [65] [43, 49] _ rfl _ mem_cons_self
  have hrefused :
      (decodeSmspdu (submitPdu 1 0 0 [49] 0x91 0 [65]).buffer).toOption.isNone = true := by
    decide +kernel
  have hread := congrArg (fun r => r.toOption.isNone) hsms
  exact Bool.false_ne_true (hread.symm.trans hrefused)

end Mihini.Messaging
