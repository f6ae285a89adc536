import Mathlib.Data.List.Chain
import Mathlib.Data.Fin.Basic
import Mihini.Lib.LuaTable

/-!
# URL encoding

`web.url.encode` and `web.url.decode` of `src/luafwk/web/server.lua`, over the bytes of Lua strings.
-/

namespace Mihini.Web.Url

open Mihini.Lib List

abbrev Byte := Fin 256

abbrev Bytes := List Byte

/-! ## Encoding -/

/-- `%w` -/
def isAlnum (b : Byte) : Bool :=
  (48 ≤ b && b ≤ 57) || (65 ≤ b && b ≤ 90) || (97 ≤ b && b ≤ 122)

/-- A digit of the format `%x`. -/
def hexDigit (n : Fin 16) : Byte :=
  if n.val < 10 then ⟨48 + n, by omega⟩ else ⟨87 + n, by omega⟩

/-- `string.format("%%%x", string.byte(x))` -/
def esc (b : Byte) : Bytes :=
  if h : b.val < 16 then [37, hexDigit ⟨b, h⟩]
  else [37, hexDigit ⟨b / 16, by omega⟩, hexDigit ⟨b % 16, by omega⟩]

def escape (s : Bytes) : Bytes := s.flatMap fun b => if isAlnum b then [b] else esc b

/-- What `encode` can be given: `items` are the fields of a table that have the keys 1, 2, … -/
inductive Argument where
  | number (text : Bytes)
  | string (s : Bytes)
  | table (named : LuaTable Bytes Bytes) (items : List Bytes)

/-- `web.url.encode`.  The loop is over `ipairs`, and its keys are numbers, for which `k:gsub` is an
error. -/
def encode : Argument → Option Bytes
  | .number text => some text
  | .string s => some (escape s)
  | .table _ [] => some []
  | .table _ (_ :: _) => none

/-! ## Decoding -/

/-- `%x`, and what `tonumber (h, 16)` makes of it. -/
def hexValue (b : Byte) : Option (Fin 16) :=
  if h : 48 ≤ b.val ∧ b.val ≤ 57 then some ⟨b - 48, by omega⟩
  else if h : 97 ≤ b.val ∧ b.val ≤ 102 then some ⟨b - 87, by omega⟩
  else if h : 65 ≤ b.val ∧ b.val ≤ 70 then some ⟨b - 55, by omega⟩
  else none

def byteOfHex (x y : Fin 16) : Byte := ⟨16 * x + y, by omega⟩

def unescHex : Bytes → Bytes
  | [] => []
  | [b] => [b]
  | [b, h] =>
    if b = 37 then
      match hexValue h with
      | some x => [byteOfHex 0 x]
      | none => [b, h]
    else b :: unescHex [h]
  | b :: h :: l :: rest =>
    if b = 37 then
      match hexValue h, hexValue l with
      | some x, some y => byteOfHex x y :: unescHex rest
      | some x, none => byteOfHex 0 x :: unescHex (l :: rest)
      | none, _ => b :: unescHex (h :: l :: rest)
    else b :: unescHex (h :: l :: rest)

def unesc (x : Bytes) : Bytes := unescHex (x.map fun b => if b = 43 then 32 else b)

/-- `[^&=]` -/
def isField (b : Byte) : Bool := b ≠ 38 && b ≠ 61

/-- Where `gmatch` is: in what may be a name, or in what may be the value of a name. -/
inductive Scan where
  | name (k : Bytes)
  | value (k v : Bytes)

/-- The matches of `([^&=]+)=([^&=]+)`.  A separator that comes where none can be ends the attempts at
all the places before it. -/
def fields : Scan → Bytes → List (Bytes × Bytes)
  | .name _, [] => []
  | .value k v, [] => if v = [] then [] else [(k, v)]
  | .name k, c :: cs =>
    if isField c then fields (.name (k ++ [c])) cs
    else if c = 61 ∧ k ≠ [] then fields (.value k []) cs
    else fields (.name []) cs
  | .value k v, c :: cs =>
    if isField c then fields (.value k (v ++ [c])) cs
    else if v = [] then fields (.name []) cs
    else (k, v) :: fields (.name []) cs

def decode (txt : Bytes) : LuaTable Bytes Bytes :=
  LuaTable.assign ∅ ((fields (.name []) txt).map fun x => (unesc x.1, unesc x.2))

/-! ## One byte after the other -/

theorem hexValue_hexDigit (n : Fin 16) : hexValue (hexDigit n) = some n := by
  revert n
  decide

variable {b : Byte}

theorem isAlnum_iff : isAlnum b = true ↔
    48 ≤ b.val ∧ b.val ≤ 57 ∨ 65 ≤ b.val ∧ b.val ≤ 90 ∨ 97 ≤ b.val ∧ b.val ≤ 122 := by
  simp only [isAlnum, Bool.or_eq_true, Bool.and_eq_true, decide_eq_true_eq, Fin.le_def, or_assoc]
  rfl

theorem isAlnum_of_hexValue {n : Fin 16} (h : hexValue b = some n) :
    isAlnum b = true := by
  rw [isAlnum_iff]
  unfold hexValue at h
  split_ifs at h <;> omega

theorem hexValue_percent : hexValue 37 = none := rfl

theorem escape_cons (b : Byte) (s : Bytes) :
    escape (b :: s) = (if isAlnum b then [b] else esc b) ++ escape s := rfl

theorem escape_of_alnum (h : isAlnum b = true) (s : Bytes) :
    escape (b :: s) = b :: escape s := by
  rw [escape_cons, if_pos h]
  rfl

theorem escape_of_lt (h : b.val < 16) (s : Bytes) :
    escape (b :: s) = 37 :: hexDigit ⟨b, h⟩ :: escape s := by
  have hb : ¬ isAlnum b = true := by
    rw [isAlnum_iff]
    omega
  rw [escape_cons, if_neg hb, esc, dif_pos h]
  rfl

theorem escape_of_le (hb : ¬ isAlnum b = true) (h : 16 ≤ b.val) (s : Bytes) :
    escape (b :: s) =
      37 :: hexDigit ⟨b / 16, by omega⟩ :: hexDigit ⟨b % 16, by omega⟩ :: escape s := by
  rw [escape_cons, if_neg hb, esc, dif_neg (Nat.not_lt.mpr h)]
  rfl

theorem unescHex_cons_of_ne (h : b ≠ 37) (s : Bytes) :
    unescHex (b :: s) = b :: unescHex s := by
  match s with
  | [] => rfl
  | [c] => exact if_neg h
  | c :: d :: rest => rw [unescHex, if_neg h]

theorem unescHex_two {h l : Byte} {x y : Fin 16} (hh : hexValue h = some x)
    (hl : hexValue l = some y) (s : Bytes) :
    unescHex (37 :: h :: l :: s) = byteOfHex x y :: unescHex s := by
  rw [unescHex, if_pos rfl, hh, hl]

variable {s : Bytes}

theorem unescHex_one {h : Byte} {x : Fin 16} (hh : hexValue h = some x)
    (hs : ∀ l ∈ s.head?, hexValue l = none) :
    unescHex (37 :: h :: s) = byteOfHex 0 x :: unescHex s := by
  match s, hs with
  | [], _ =>
    show (match hexValue h with
      | some x => [byteOfHex 0 x]
      | none => [37, h]) = _
    rw [hh]
    rfl
  | l :: rest, hs => rw [unescHex, if_pos rfl, hh, hs l rfl]

theorem head_escape (s : Bytes) :
    (escape s).head? = s.head?.map fun b => if isAlnum b then b else 37 := by
  cases s with
  | nil => rfl
  | cons b s =>
    rw [escape_cons, List.head?_cons, Option.map_some]
    by_cases hb : isAlnum b = true
    · rw [if_pos hb, if_pos hb]
      rfl
    · rw [if_neg hb, if_neg hb, esc]
      split_ifs <;> rfl

def Apart (b c : Byte) : Prop := 16 ≤ b.val ∨ hexValue c = none

instance (b c : Byte) : Decidable (Apart b c) :=
  inferInstanceAs (Decidable (16 ≤ b.val ∨ hexValue c = none))

/-- A byte is read back, unless its only digit and a digit that follows are read as one byte. -/
theorem unescHex_escape_cons (h : ∀ d ∈ s.head?, Apart b d) :
    unescHex (escape (b :: s)) = b :: unescHex (escape s) := by
  by_cases hb : isAlnum b = true
  · rw [escape_of_alnum hb, unescHex_cons_of_ne]
    rintro rfl
    exact absurd hb (by decide)
  by_cases hlt : b.val < 16
  · rw [escape_of_lt hlt, unescHex_one (hexValue_hexDigit _)]
    · have hbyte : byteOfHex 0 ⟨b, hlt⟩ = b := Fin.ext (Nat.zero_add _)
      rw [hbyte]
    · intro l hl
      rw [head_escape] at hl
      obtain ⟨c, hc, rfl⟩ := Option.map_eq_some_iff.mp hl
      by_cases hc' : isAlnum c = true
      · rw [if_pos hc']
        exact (h c hc).resolve_left (Nat.not_le.mpr hlt)
      · rw [if_neg hc']
        exact hexValue_percent
  · rw [escape_of_le hb (Nat.not_lt.mp hlt),
      unescHex_two (hexValue_hexDigit _) (hexValue_hexDigit _)]
    have hbyte : byteOfHex ⟨b / 16, by omega⟩ ⟨b % 16, by omega⟩ = b :=
      Fin.ext (Nat.div_add_mod b.val 16)
    rw [hbyte]

theorem unescHex_escape_not_apart {b c : Byte} (h : ¬ Apart b c) :
    ∃ d, unescHex (escape (b :: c :: s)) = d :: unescHex (escape s) := by
  obtain ⟨hlt, hc⟩ := not_or.mp h
  obtain ⟨y, hy⟩ := Option.ne_none_iff_exists'.mp hc
  refine ⟨byteOfHex ⟨b, Nat.lt_of_not_le hlt⟩ y, ?_⟩
  rw [escape_of_lt (Nat.lt_of_not_le hlt), escape_of_alnum (isAlnum_of_hexValue hy)]
  exact unescHex_two (hexValue_hexDigit _) hy _

abbrev Faithful (s : Bytes) : Prop := s.IsChain Apart

theorem unescHex_escape (h : Faithful s) : unescHex (escape s) = s := by
  induction s with
  | nil => rfl
  | cons b s ih =>
    rw [unescHex_escape_cons, ih h.tail]
    intro c hc
    cases s with
    | nil => cases hc
    | cons d s =>
      obtain rfl := Option.some.inj hc
      exact h.rel

theorem length_unescHex_escape_le (s : Bytes) : (unescHex (escape s)).length ≤ s.length := by
  match s with
  | [] => exact Nat.le_refl _
  | [b] =>
    rw [unescHex_escape_cons (by intro c hc; cases hc)]
    exact Nat.le_refl _
  | b :: c :: s =>
    by_cases h : Apart b c
    · rw [unescHex_escape_cons (by rintro _ ⟨⟩; exact h)]
      exact Nat.succ_le_succ (length_unescHex_escape_le (c :: s))
    · obtain ⟨d, hd⟩ := unescHex_escape_not_apart (s := s) h
      rw [hd]
      exact Nat.succ_le_succ (Nat.le_succ_of_le (length_unescHex_escape_le s))

theorem length_unescHex_escape_lt (h : ¬ Faithful s) :
    (unescHex (escape s)).length < s.length := by
  induction s with
  | nil => exact absurd .nil h
  | cons b s ih =>
    cases s with
    | nil => exact absurd (.singleton b) h
    | cons c s =>
      by_cases hbc : Apart b c
      · rw [unescHex_escape_cons (by rintro _ ⟨⟩; exact hbc)]
        exact Nat.succ_lt_succ (ih fun hs => h (.cons_cons hbc hs))
      · obtain ⟨d, hd⟩ := unescHex_escape_not_apart (s := s) hbc
        rw [hd]
        exact Nat.succ_lt_succ (Nat.lt_succ_of_le (length_unescHex_escape_le s))

theorem unescHex_escape_iff : unescHex (escape s) = s ↔ Faithful s := by
  constructor
  · intro heq
    by_contra h
    have hlt := length_unescHex_escape_lt h
    rw [heq] at hlt
    exact Nat.lt_irrefl _ hlt
  · exact unescHex_escape

/-! ## Whole texts -/

theorem mem_escape {c : Byte} (h : c ∈ escape s) : isAlnum c = true ∨ c = 37 := by
  obtain ⟨b, -, hc⟩ := mem_flatMap.mp h
  by_cases hb : isAlnum b = true
  · rw [if_pos hb] at hc
    exact .inl (mem_singleton.mp hc ▸ hb)
  rw [if_neg hb, esc] at hc
  have hdigit : ∀ n, isAlnum (hexDigit n) = true :=
    fun n => isAlnum_of_hexValue (hexValue_hexDigit n)
  split_ifs at hc
  · rcases mem_cons.mp hc with rfl | hc
    · exact .inr rfl
    · exact .inl (mem_singleton.mp hc ▸ hdigit _)
  · rcases mem_cons.mp hc with rfl | hc
    · exact .inr rfl
    · rcases mem_cons.mp hc with rfl | hc
      · exact .inl (hdigit _)
      · exact .inl (mem_singleton.mp hc ▸ hdigit _)

theorem isField_of_mem_escape {c : Byte} (h : c ∈ escape s) : isField c = true := by
  have hne : c ≠ 38 ∧ c ≠ 61 := by
    rcases mem_escape h with hc | rfl
    · constructor <;> rintro rfl <;> exact absurd hc (by decide)
    · decide
  simp [isField, hne]

theorem unesc_escape (s : Bytes) : unesc (escape s) = unescHex (escape s) := by
  have hmap : (escape s).map (fun b => if b = 43 then 32 else b) = escape s := by
    conv_rhs => rw [← map_id (escape s)]
    refine map_congr_left fun c hc => if_neg ?_
    rcases mem_escape hc with hc | rfl
    · rintro rfl
      exact absurd hc (by decide)
    · decide
  rw [unesc, hmap]

theorem escape_eq_nil : escape s = [] ↔ s = [] := by
  constructor
  · intro h
    have hhead := head_escape s
    rw [h] at hhead
    exact List.head?_eq_none_iff.mp (Option.map_eq_none_iff.mp hhead.symm)
  · rintro rfl
    rfl

theorem fields_name {l : Bytes} (h : ∀ c ∈ l, isField c = true) (k rest : Bytes) :
    fields (.name k) (l ++ rest) = fields (.name (k ++ l)) rest := by
  induction l generalizing k with
  | nil => rw [append_nil, nil_append]
  | cons c l ih =>
    rw [cons_append, fields, if_pos (h c mem_cons_self),
      ih fun d hd => h d (mem_cons_of_mem _ hd), append_assoc]
    rfl

theorem fields_value {l : Bytes} (h : ∀ c ∈ l, isField c = true) (k v : Bytes) :
    fields (.value k v) l = if v ++ l = [] then [] else [(k, v ++ l)] := by
  induction l generalizing v with
  | nil => rw [append_nil, fields]
  | cons c l ih =>
    rw [fields, if_pos (h c mem_cons_self), ih fun d hd => h d (mem_cons_of_mem _ hd),
      append_assoc]
    rfl

def field (k s : Bytes) : Bytes := escape k ++ 61 :: escape s

theorem fields_field (k s : Bytes) : fields (.name []) (field k s) =
    if k = [] ∨ s = [] then [] else [(escape k, escape s)] := by
  have hk : ∀ c ∈ escape k, isField c = true := fun c hc => isField_of_mem_escape hc
  have hs : ∀ c ∈ escape s, isField c = true := fun c hc => isField_of_mem_escape hc
  rw [field, fields_name hk, nil_append, fields, if_neg (by decide)]
  by_cases hknil : k = []
  · have hesc : escape k = [] := escape_eq_nil.mpr hknil
    rw [hesc, if_neg (fun h => h.2 rfl), if_pos (.inl hknil), ← append_nil (escape s),
      fields_name hs]
    rfl
  · rw [if_pos ⟨rfl, fun h => hknil (escape_eq_nil.mp h)⟩, fields_value hs, nil_append]
    by_cases hsnil : s = []
    · rw [if_pos (escape_eq_nil.mpr hsnil), if_pos (.inr hsnil)]
    · rw [if_neg fun h => hsnil (escape_eq_nil.mp h), if_neg (by simp [hknil, hsnil])]

/-- The string comes back: it is not empty, and no byte below 16 is directly followed by a hexadecimal
digit. -/
def Clean (s : Bytes) : Prop := s ≠ [] ∧ Faithful s

instance (s : Bytes) : Decidable (Clean s) := inferInstanceAs (Decidable (s ≠ [] ∧ Faithful s))

theorem decode_field_iff (k s : Bytes) :
    (∀ n, (decode (field k s)).lookup n = if n = k then some s else none) ↔ Clean k ∧ Clean s := by
  unfold decode
  rw [fields_field]
  by_cases hnil : k = [] ∨ s = []
  · rw [if_pos hnil]
    constructor
    · intro h
      have hk := h k
      rw [if_pos rfl] at hk
      cases hk
    · intro h
      exact absurd hnil (not_or.mpr ⟨h.1.1, h.2.1⟩)
  · rw [if_neg hnil]
    obtain ⟨hk, hs⟩ := not_or.mp hnil
    show (∀ n, ((∅ : LuaTable Bytes Bytes).insert (unesc (escape k)) (unesc (escape s))).lookup n =
      _) ↔ _
    rw [unesc_escape, unesc_escape]
    constructor
    · intro h
      have hkey := h k
      rw [if_pos rfl] at hkey
      by_cases heq : k = unescHex (escape k)
      · rw [← heq, AList.lookup_insert] at hkey
        exact ⟨⟨hk, unescHex_escape_iff.mp heq.symm⟩, hs,
          unescHex_escape_iff.mp (Option.some.inj hkey)⟩
      · rw [AList.lookup_insert_ne heq] at hkey
        cases hkey
    · intro h n
      rw [unescHex_escape h.1.2, unescHex_escape h.2.2]
      by_cases hn : n = k
      · rw [if_pos hn, hn, AList.lookup_insert]
      · rw [if_neg hn, AList.lookup_insert_ne hn]
        rfl

/-- A table with names comes back from its encoding exactly when it is empty; a field whose name and
value are encoded gives them back exactly when both are clean. -/
theorem url_roundtrip (t : LuaTable Bytes Bytes) (k s : Bytes) :
    ((∃ txt, encode (.table t []) = some txt ∧ ∀ n, (decode txt).lookup n = t.lookup n) ↔
      ∀ n, t.lookup n = none) ∧
    ((∀ n, (decode (field k s)).lookup n = if n = k then some s else none) ↔
      Clean k ∧ Clean s) := by
  refine ⟨⟨?_, ?_⟩, decode_field_iff k s⟩
  · rintro ⟨txt, htxt, h⟩ n
    obtain rfl := Option.some.inj htxt
    rw [← h n]
    rfl
  · intro h
    exact ⟨[], rfl, fun n => (h n).symm⟩

/-- The table with the field `a` whose value is `b` becomes the empty string, and of a line feed and a
`0` a field keeps one byte. -/
theorem encoding_loses :
    encode (.table (AList.singleton [97] [98]) []) = some [] ∧
      (decode []).lookup [97] = none ∧
      encode (.string [10, 48]) = some [37, 97, 48] ∧
      (decode (97 :: 61 :: [37, 97, 48])).lookup [97] = some [160] ∧
      (decode (97 :: 61 :: [])).lookup [97] = none := by
  decide

end Mihini.Web.Url
