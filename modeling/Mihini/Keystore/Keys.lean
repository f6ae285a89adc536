import Mihini.Keystore.File

/-!
# The keys of the file

What writing does to the lines of the file, and which keys are read after any calls that succeed.
-/

namespace Mihini.Keystore

open List

/-! ## Writing a key -/

theorem poke_append (pre : List UInt8) (x : UInt8) (rest : List UInt8) (v : UInt8) :
    poke (pre ++ x :: rest) pre.length v = some (pre ++ v :: rest) := by
  have hlt : (pre.length : Int) < ((pre ++ x :: rest).length : Nat) := by
    rw [length_append, length_cons]
    omega
  rw [poke, if_pos ⟨Int.natCast_nonneg _, hlt⟩, Int.toNat_natCast, set_append_right _ _ (Nat.le_refl _),
    Nat.sub_self]
  rfl

theorem printHex_append (pre : List UInt8) (x y z : UInt8) (rest : List UInt8) (b : UInt8) :
    printHex (pre ++ x :: y :: z :: rest) pre.length b = some (pre ++ hexOf b ++ 0 :: rest) := by
  have hsecond := poke_append (pre ++ [digit (b / 16)]) y (z :: rest) (digit (b % 16))
  have hthird := poke_append (pre ++ hexOf b) z rest 0
  rw [length_append] at hsecond hthird
  rw [append_assoc] at hsecond
  rw [printHex, poke_append]
  show (poke (pre ++ ([digit (b / 16)] ++ y :: z :: rest)) (pre.length + 1) _).bind _ = _
  rw [show (pre.length : Int) + 1 = ((pre.length + [digit (b / 16)].length : Nat) : Int) from rfl, hsecond]
  show poke (pre ++ [digit (b / 16)] ++ digit (b % 16) :: z :: rest) (pre.length + 2) 0 = _
  rw [show (pre.length : Int) + 2 = ((pre.length + (hexOf b).length : Nat) : Int) from rfl,
    show pre ++ [digit (b / 16)] ++ digit (b % 16) :: z :: rest = pre ++ hexOf b ++ z :: rest by simp [hexOf],
    hthird]

theorem writeBytes_append (bytes pre rest : List UInt8) (h : 2 * bytes.length < rest.length) :
    ∃ x, writeBytes (pre ++ rest) pre.length bytes =
      some (pre ++ bytes.flatMap hexOf ++ x :: rest.drop (2 * bytes.length + 1)) := by
  induction bytes generalizing pre rest with
  | nil =>
    obtain ⟨x, rest, rfl⟩ := exists_cons_of_length_pos h
    exact ⟨x, by simp [writeBytes]⟩
  | cons b bytes ih =>
    rw [length_cons] at h
    match rest, h with
    | x :: y :: z :: rest, h =>
      simp only [length_cons] at h
      obtain ⟨w, hw⟩ := ih (pre ++ hexOf b) (0 :: rest) (by rw [length_cons]; omega)
      refine ⟨w, ?_⟩
      rw [writeBytes, printHex_append]
      show writeBytes (pre ++ hexOf b ++ 0 :: rest) (pre.length + 2) bytes = _
      rw [show (pre.length : Int) + 2 = ((pre ++ hexOf b).length : Nat) by
        rw [length_append]; rfl, hw]
      simp [flatMap_cons, Nat.mul_add]
    | [], h | [_], h | [_, _], h => simp at h <;> omega

theorem writeKeys_cons (key : Key) (keys : List Key) (before after l : List UInt8) (i : Nat)
    (hbefore : before.length = 33 * i) (hl : l.length = 33) :
    writeKeys (before ++ l ++ after) i (key :: keys) =
      writeKeys (before ++ line key ++ after) ((i + 1 : Nat) : Int) keys := by
  obtain ⟨x, hx⟩ := writeBytes_append key.bytes before (l ++ after)
    (by rw [key.size, length_append, hl]; omega)
  have hdrop : (l ++ after).drop (2 * key.bytes.length + 1) = after := by
    rw [key.size, drop_append, drop_eq_nil_of_le (by omega), hl]
    rfl
  have htarget : (33 * (i : Int)) = (before.length : Nat) := by rw [hbefore]; omega
  have hpoke := poke_append (before ++ key.bytes.flatMap hexOf) x after newline
  have hend : 33 * (i : Int) + 32 = ((before ++ key.bytes.flatMap hexOf).length : Nat) := by
    rw [length_append, length_hexOf, key.size, hbefore]
    omega
  rw [writeKeys, htarget, append_assoc, hx, hdrop]
  show (poke _ _ _).bind _ = _
  rw [← htarget, hend, hpoke]
  show writeKeys (before ++ key.bytes.flatMap hexOf ++ newline :: after) _ keys = _
  rw [line]
  simp

/-! ## Writing keys -/

def putKeys (ks : List Key) (i : Nat) : List Key → List Key
  | [] => ks
  | key :: keys => putKeys (ks.set i key) (i + 1) keys

theorem length_putKeys (ks : List Key) (i : Nat) (keys : List Key) : (putKeys ks i keys).length = ks.length := by
  induction keys generalizing ks i with
  | nil => rfl
  | cons key keys ih => rw [putKeys, ih, length_set]

variable {ks : List Key} {keys : List Key}

theorem getElem?_putKeys {i : Nat} (h : i + keys.length ≤ ks.length) (j : Nat) :
    (putKeys ks i keys)[j]? = if i ≤ j ∧ j < i + keys.length then keys[j - i]? else ks[j]? := by
  induction keys generalizing ks i with
  | nil => rw [putKeys, if_neg (by rw [length_nil]; omega)]
  | cons key keys ih =>
    rw [length_cons] at h
    rw [putKeys, ih (by rw [length_set]; omega), length_cons]
    rcases Nat.lt_trichotomy j i with hlt | rfl | hgt
    · rw [if_neg (by omega), if_neg (by omega), List.getElem?_set_ne (by omega)]
    · rw [if_neg (by omega), if_pos (by omega), List.getElem?_set_self (by omega), Nat.sub_self]
      rfl
    · by_cases hj : j < i + 1 + keys.length
      · rw [if_pos (by omega), if_pos (by omega), show j - i = (j - (i + 1)) + 1 by omega]
        rfl
      · rw [if_neg (by omega), if_neg (by omega), List.getElem?_set_ne (by omega)]

theorem writeKeys_lines {i : Nat} (h : i + keys.length ≤ ks.length) :
    writeKeys (ks.flatMap line) i keys = some ((putKeys ks i keys).flatMap line) := by
  induction keys generalizing ks i with
  | nil => rfl
  | cons key keys ih =>
    rw [length_cons] at h
    have hi : i < ks.length := by omega
    have hsplit : ks.flatMap line =
        (ks.take i).flatMap line ++ line ks[i] ++ (ks.drop (i + 1)).flatMap line := by
      conv_lhs => rw [← take_append_drop i ks, drop_eq_getElem_cons hi]
      rw [flatMap_append, flatMap_cons, append_assoc]
    have hset : (ks.set i key).flatMap line =
        (ks.take i).flatMap line ++ line key ++ (ks.drop (i + 1)).flatMap line := by
      rw [set_eq_take_append_cons_drop, if_pos hi, flatMap_append, flatMap_cons, append_assoc]
    have hbefore : ((ks.take i).flatMap line).length = 33 * i := by
      rw [length_lines, length_take, Nat.min_eq_left (Nat.le_of_lt hi)]
    rw [hsplit, writeKeys_cons key keys _ _ _ i hbefore (length_line _), ← hset,
      ih (by rw [length_set]; omega), putKeys]

theorem map_range_lines (d : Nat) :
    ((List.range (33 * d)).map fun k => if k % 33 = 32 then newline else 48) =
      (List.replicate d filler).flatMap line := by
  induction d with
  | zero => rfl
  | succ d ih =>
    have hlast : ((List.range 33).map fun k => if (33 * d + k) % 33 = 32 then newline else 48) = line filler := by
      have hmod : ∀ k, (33 * d + k) % 33 = k % 33 := fun k => Nat.mul_add_mod 33 d k
      simp only [hmod]
      decide
    rw [Nat.mul_succ, range_add, map_append, ih, map_map, replicate_succ', flatMap_append]
    exact congrArg _ hlast

theorem lengthen_lines (ks : List Key) (m : Nat) :
    lengthen (ks.flatMap line) (33 * m) = (ks ++ List.replicate (m - ks.length) filler).flatMap line := by
  rw [lengthen, length_lines, ← Nat.mul_sub, map_range_lines, flatMap_append]

variable {i : Int}

theorem writeKeys_neg (content : List UInt8) (hi : i < 0) (key : Key) (keys : List Key) :
    writeKeys content i (key :: keys) = none := by
  obtain ⟨b, bytes, hb⟩ := exists_cons_of_length_pos (show 0 < key.bytes.length by rw [key.size]; decide)
  have hpoke : ∀ v, poke content (33 * i) v = none := fun v => if_neg (by omega)
  rw [writeKeys, hb, writeBytes, printHex, hpoke]
  rfl

theorem offsetOf_eq_some {i offset : Int} :
    offsetOf i = some offset ↔ 33 * i = offset ∧ -2 ^ 31 ≤ 33 * i ∧ 33 * i < 2 ^ 31 := by
  rw [offsetOf]
  split
  · next hfits =>
    rw [Option.some_inj, and_iff_left hfits]
  · next hnot => exact iff_of_false nofun fun h => hnot h.2

variable {content : List UInt8} {file : Option (List UInt8)}

theorem setObfuscatedBinKeys_lines
    (hfile : file.getD [] = ks.flatMap line) {firstIndex : Int}
    (h : setObfuscatedBinKeys file firstIndex keys = some content) :
    ∃ i : Nat, firstIndex = i ∧ 33 * (firstIndex + keys.length) < 2 ^ 31 ∧
      content = (putKeys (ks ++ List.replicate (i + keys.length - ks.length) filler) i keys).flatMap line := by
  obtain ⟨needed, hneeded, h⟩ := Option.bind_eq_some_iff.mp h
  obtain ⟨rfl, -, hsmall⟩ := offsetOf_eq_some.mp hneeded
  split at h
  · nomatch h
  · next hnonneg =>
    have hfirst : 0 ≤ firstIndex := by
      by_contra hneg
      cases keys with
      | nil =>
        simp only [length_nil] at hnonneg
        omega
      | cons key keys =>
        rw [writeKeys_neg _ (by omega)] at h
        nomatch h
    obtain ⟨i, rfl⟩ := Int.eq_ofNat_of_zero_le hfirst
    refine ⟨i, rfl, hsmall, ?_⟩
    rw [hfile, show (33 * ((i : Int) + keys.length)).toNat = 33 * (i + keys.length) by omega, lengthen_lines,
      writeKeys_lines (by rw [length_append, length_replicate]; omega)] at h
    exact (Option.some.inj h).symm

theorem obfuscateKeys_some {obfuscate : Int → Key → Option Key} {keys keys' : List Key}
    (h : obfuscateKeys obfuscate i keys = some keys') :
    keys'.length = keys.length ∧
      ∀ (j : Nat) k, keys[j]? = some k → ∃ k', keys'[j]? = some k' ∧ obfuscate (i + j) k = some k' := by
  induction keys generalizing i keys' with
  | nil =>
    obtain rfl := Option.some.inj h
    exact ⟨rfl, nofun⟩
  | cons key keys ih =>
    obtain ⟨key', hkey, h⟩ := Option.bind_eq_some_iff.mp h
    obtain ⟨rest, hrest, h⟩ := Option.bind_eq_some_iff.mp h
    obtain rfl := Option.some.inj h
    obtain ⟨hlength, hall⟩ := ih hrest
    refine ⟨congrArg (· + 1) hlength, fun j k hj => ?_⟩
    cases j with
    | zero =>
      obtain rfl := Option.some.inj hj
      exact ⟨key', rfl, by rw [Int.natCast_zero, Int.add_zero]; exact hkey⟩
    | succ j =>
      obtain ⟨k', hk', hobf⟩ := hall j k hj
      refine ⟨k', hk', ?_⟩
      rw [← hobf]
      congr 1
      omega

/-! ## All calls -/

structure Call where
  firstIndex : Int
  keys : List Key

def record (m : Int → Option Key) (c : Call) : Int → Option Key := fun i =>
  (if c.firstIndex ≤ i then c.keys[(i - c.firstIndex).toNat]? else none).or (m i)

def stored (calls : List Call) : Int → Option Key := calls.foldl record fun _ => none

def extent (calls : List Call) : Int := calls.foldl (fun n c => max n (c.firstIndex + c.keys.length)) 0

section

variable (obfuscate deobfuscate : Int → Key → Option Key)

def setAll (file : Option (List UInt8)) : List Call → Option (Option (List UInt8))
  | [] => some file
  | c :: calls => do
    let content ← setPlainBinKeys obfuscate file c.firstIndex c.keys
    setAll (some content) calls

def expected (key : Option Key) : Read := key.elim .error .ok

def Holds (file : Option (List UInt8)) (m : Int → Option Key) (n : Int) : Prop :=
  ∃ ks : List Key, file.getD [] = ks.flatMap line ∧ (ks.length : Int) = n ∧ 33 * n < 2 ^ 31 ∧
    (∀ i k, m i = some k → ∃ (j : Nat) (k' : Key), i = j ∧ ks[j]? = some k' ∧ obfuscate i k = some k') ∧
    ∀ (j : Nat) k', m j = none → ks[j]? = some k' → k' = filler

end

variable {obfuscate deobfuscate : Int → Key → Option Key}

variable {m : Int → Option Key} {n : Int}

theorem Holds.set (h : Holds obfuscate file m n)
    {c : Call} (hset : setPlainBinKeys obfuscate file c.firstIndex c.keys = some content) :
    Holds obfuscate (some content) (record m c) (max n (c.firstIndex + c.keys.length)) := by
  obtain ⟨ks, hfile, hlength, hsmall, hstored, hfiller⟩ := h
  obtain ⟨keys, hkeys, hset⟩ := Option.bind_eq_some_iff.mp hset
  obtain ⟨hsame, hobf⟩ := obfuscateKeys_some hkeys
  obtain ⟨i, hi, hneeded, rfl⟩ := setObfuscatedBinKeys_lines hfile hset
  have hlong : i + keys.length ≤ (ks ++ List.replicate (i + keys.length - ks.length) filler).length := by
    rw [length_append, length_replicate]
    omega
  refine ⟨_, rfl, ?_, ?_, ?_, ?_⟩
  · rw [length_putKeys, length_append, length_replicate, ← hlength, hi, ← hsame]
    omega
  · rw [hsame] at hneeded
    omega
  · intro u k hu
    rcases Option.or_eq_some_iff.mp hu with hnew | ⟨hnone, hold⟩
    · split at hnew
      · next hle =>
        obtain ⟨k', hk', hobfk⟩ := hobf _ k hnew
        have hlt : (u - c.firstIndex).toNat < keys.length := by
          by_contra hge
          rw [List.getElem?_eq_none (Nat.le_of_not_lt hge)] at hk'
          nomatch hk'
        refine ⟨u.toNat, k', by omega, ?_, ?_⟩
        · rw [getElem?_putKeys hlong, if_pos (by omega), ← hk']
          congr 1
          omega
        · rw [← hobfk]
          congr 1
          omega
      · nomatch hnew
    · obtain ⟨j, k', rfl, hk', hobfk⟩ := hstored u k hold
      refine ⟨j, k', rfl, ?_, hobfk⟩
      have hj : j < ks.length := by
        by_contra hge
        rw [List.getElem?_eq_none (Nat.le_of_not_lt hge)] at hk'
        nomatch hk'
      have hout : ¬ (i ≤ j ∧ j < i + keys.length) := by
        intro hin
        rw [if_pos (by omega), List.getElem?_eq_none_iff] at hnone
        omega
      rw [getElem?_putKeys hlong, if_neg hout, List.getElem?_append_left hj]
      exact hk'
  · intro j k' hnone hk'
    obtain ⟨hnew, hold⟩ := Option.or_eq_none_iff.mp hnone
    have hout : ¬ (i ≤ j ∧ j < i + keys.length) := by
      intro hin
      rw [if_pos (by omega), List.getElem?_eq_none_iff] at hnew
      omega
    rw [getElem?_putKeys hlong, if_neg hout, List.getElem?_append] at hk'
    split at hk'
    · exact hfiller j k' hold hk'
    · rw [List.getElem?_replicate] at hk'
      split at hk'
      · exact (Option.some.inj hk').symm
      · nomatch hk'

theorem holds_setAll {calls : List Call} {file file' : Option (List UInt8)}
    (h : Holds obfuscate file m n) (hset : setAll obfuscate file calls = some file') :
    Holds obfuscate file' (calls.foldl record m)
      (calls.foldl (fun n c => max n (c.firstIndex + c.keys.length)) n) := by
  induction calls generalizing file m n with
  | nil =>
    obtain rfl := Option.some.inj hset
    exact h
  | cons c calls ih =>
    obtain ⟨content, hcontent, hset⟩ := Option.bind_eq_some_iff.mp hset
    exact ih (h.set hcontent) hset

theorem holds_none : Holds obfuscate none (fun _ => none) 0 :=
  ⟨[], rfl, rfl, by decide, nofun, nofun⟩

theorem setAll_some {calls : List Call}
    (h : setAll obfuscate (some content) calls = some file) : file ≠ none := by
  induction calls generalizing content with
  | nil =>
    obtain rfl := Option.some.inj h
    nofun
  | cons c calls ih =>
    obtain ⟨content, -, h⟩ := Option.bind_eq_some_iff.mp h
    exact ih h

theorem getObfuscatedBinKey_lines (hfile : content = ks.flatMap line)
    (j : Nat) : getObfuscatedBinKey (some content) j =
      if offsetOf j = none then .undefined else expected ks[j]? := by
  rw [getObfuscatedBinKey]
  cases hoffset : offsetOf j with
  | none => rfl
  | some offset =>
    obtain ⟨rfl, -⟩ := offsetOf_eq_some.mp hoffset
    have htoNat : (33 * (j : Int)).toNat = 33 * j := by omega
    simp only [if_neg (show ¬ 33 * (j : Int) < 0 by omega), htoNat, reduceCtorEq, if_false]
    by_cases hj : j < ks.length
    · have hsplit : content.drop (33 * j) = line ks[j] ++ (ks.drop (j + 1)).flatMap line := by
        have hbefore : ((ks.take j).flatMap line).length = 33 * j := by
          rw [length_lines, length_take, Nat.min_eq_left (Nat.le_of_lt hj)]
        have hlines : content = (ks.take j).flatMap line ++ (line ks[j] ++ (ks.drop (j + 1)).flatMap line) := by
          rw [hfile, ← flatMap_cons, ← drop_eq_getElem_cons hj, ← flatMap_append,
            take_append_drop]
        rw [hlines, drop_left' hbefore]
      have htake : (content.drop (33 * j)).take 33 = line ks[j] := by
        rw [hsplit, take_left' (length_line _)]
      rw [htake, if_pos (length_line _), keyOf_line, List.getElem?_eq_getElem hj]
      rfl
    · have hnil : content.drop (33 * j) = [] := by
        rw [hfile, drop_eq_nil_iff, length_lines]
        omega
      rw [hnil, List.getElem?_eq_none (Nat.le_of_not_lt hj)]
      rfl

/-- A key that has been set is read. -/
theorem Holds.read_stored (hinv : ∀ i k k', obfuscate i k = some k' → deobfuscate i k' = some k)
    (h : Holds obfuscate file m n)
    {k : Key} (hk : m i = some k) : getPlainBinKey deobfuscate file i = .ok k := by
  obtain ⟨ks, hfile, hlength, hsmall, hstored, -⟩ := h
  obtain ⟨j, k', rfl, hk', hobf⟩ := hstored i k hk
  have hj : j < ks.length := by
    by_contra hge
    rw [List.getElem?_eq_none (Nat.le_of_not_lt hge)] at hk'
    nomatch hk'
  have hoffset : offsetOf j ≠ none := by
    rw [offsetOf_eq_some.mpr ⟨rfl, by omega, by omega⟩]
    nofun
  cases file with
  | none =>
    have hempty := congrArg List.length hfile
    rw [length_lines] at hempty
    simp only [Option.getD_none, length_nil] at hempty
    omega
  | some content =>
    rw [getPlainBinKey, getObfuscatedBinKey_lines (show content = ks.flatMap line from hfile),
      if_neg hoffset, hk']
    show (deobfuscate j k').elim _ _ = _
    rw [hinv _ _ _ hobf]
    rfl

/-- What is read at an index that has not been set. -/
theorem Holds.read_unset
    (h : Holds obfuscate (some content) m n) (hi : m i = none) :
    getPlainBinKey deobfuscate (some content) i = .error ↔
      offsetOf i ≠ none ∧ (i < 0 ∨ n ≤ i ∨ deobfuscate i filler = none) := by
  obtain ⟨ks, hfile, hlength, -, -, hfiller⟩ := h
  by_cases hneg : i < 0
  · rw [getPlainBinKey, getObfuscatedBinKey]
    cases hoffset : offsetOf i with
    | none => exact iff_of_false nofun fun h => h.1 rfl
    | some offset =>
      obtain ⟨rfl, -⟩ := offsetOf_eq_some.mp hoffset
      simp only [if_pos (show 33 * i < 0 by omega)]
      exact iff_of_true trivial ⟨nofun, Or.inl hneg⟩
  · obtain ⟨j, rfl⟩ := Int.eq_ofNat_of_zero_le (Int.not_lt.mp hneg)
    rw [getPlainBinKey, getObfuscatedBinKey_lines (show content = ks.flatMap line from hfile)]
    by_cases hoffset : offsetOf j = none
    · rw [if_pos hoffset]
      exact iff_of_false nofun fun h => h.1 hoffset
    rw [if_neg hoffset]
    cases hk : ks[j]? with
    | none =>
      have hj := List.getElem?_eq_none_iff.mp hk
      exact iff_of_true rfl ⟨hoffset, Or.inr (Or.inl (by omega))⟩
    | some k =>
      obtain rfl := hfiller j k hi hk
      have hj : j < ks.length := by
        by_contra hge
        rw [List.getElem?_eq_none (Nat.le_of_not_lt hge)] at hk
        nomatch hk
      show (deobfuscate j filler).elim _ _ = _ ↔ _
      cases hdeobf : deobfuscate j filler with
      | none => exact iff_of_true rfl ⟨hoffset, Or.inr (Or.inr rfl)⟩
      | some k' =>
        refine iff_of_false nofun fun h => ?_
        rcases h.2 with h | h | h
        · exact hneg h
        · omega
        · nomatch h

/-- After any calls that succeed the last key set at an index is read there, whatever is set elsewhere;
and where none has been set reading fails if and only if the index is not in a gap, whose keys are
fillers. -/
theorem key_store_map (hinv : ∀ i k k', obfuscate i k = some k' → deobfuscate i k' = some k)
    {calls : List Call} {file : Option (List UInt8)} (h : setAll obfuscate none calls = some file) (i : Int) :
    (getPlainBinKey deobfuscate file i = expected (stored calls i) ↔
      (stored calls i).isSome = true ∨ calls = [] ∨
        offsetOf i ≠ none ∧ (i < 0 ∨ extent calls ≤ i ∨ deobfuscate i filler = none)) ∧
    ∀ (c : Call) content, setPlainBinKeys obfuscate file c.firstIndex c.keys = some content →
      (stored calls i).isSome = true → i < c.firstIndex ∨ c.firstIndex + c.keys.length ≤ i →
      getPlainBinKey deobfuscate (some content) i = getPlainBinKey deobfuscate file i := by
  have hholds : Holds obfuscate file (stored calls) (extent calls) := holds_setAll holds_none h
  constructor
  · cases hstored : stored calls i with
    | some k => exact iff_of_true (hholds.read_stored hinv hstored) (Or.inl rfl)
    | none =>
      cases calls with
      | nil =>
        obtain rfl := Option.some.inj h
        exact iff_of_true rfl (Or.inr (Or.inl rfl))
      | cons c calls =>
        obtain ⟨content, -, hrest⟩ := Option.bind_eq_some_iff.mp h
        obtain ⟨content', rfl⟩ := Option.ne_none_iff_exists'.mp (setAll_some hrest)
        show getPlainBinKey deobfuscate (some content') i = .error ↔ _
        rw [hholds.read_unset hstored]
        simp
  · intro c content hset hsome hout
    obtain ⟨k, hk⟩ := Option.isSome_iff_exists.mp hsome
    have hrecord : record (stored calls) c i = some k := by
      rw [record, hk]
      split
      · rw [List.getElem?_eq_none (by omega)]
        rfl
      · rfl
    rw [hholds.read_stored hinv hk, (hholds.set hset).read_stored hinv hrecord]

def ones : Key := ⟨List.replicate 16 1, rfl⟩

theorem key_store_map_ones :
    (setAll (fun _ k => some k) none [⟨1, [ones]⟩]).map (fun file => getPlainBinKey (fun _ k => some k) file 1) =
      some (.ok ones) := by
  cases h : setAll (fun _ k => some k) none [⟨1, [ones]⟩] with
  | none => exact absurd h (by decide +kernel)
  | some file =>
    have hread := (@key_store_map (fun _ k => some k) (fun _ k => some k)
      (fun _ _ _ h => congrArg some (Option.some.inj h).symm) _ _ h 1).1
    exact congrArg some (hread.mpr (Or.inl (by decide +kernel)))

/-- The line before the only key that has been set is read as a key of zeros. -/
theorem gap_is_read :
    (setAll (fun _ k => some k) none [⟨1, [ones]⟩]).map (fun file => getPlainBinKey (fun _ k => some k) file 0) =
      some (.ok filler) ∧ stored [⟨1, [ones]⟩] 0 = none := by
  decide +kernel

end Mihini.Keystore
