import Mathlib.Data.List.Basic

/-!
# Pointer lists

`src/libs/common/pointer_list.c`.  The operations are those of a list, but `PointerList_Remove` goes on
with the second slot when it has filled the last one from the first.
-/

namespace Mihini.Appmon

open List

/-- `struct PointerList`; a slot is `none` until something is written to it. -/
structure PointerList (α : Type) where
  buffer : List (Option α)
  nbOfElements : Nat
  readIdx : Nat
  writeIdx : Nat

namespace PointerList

variable {α : Type}

def allocatedSize (l : PointerList α) : Nat := l.buffer.length

def create (prealloc : Nat) : PointerList α :=
  ⟨List.replicate (if prealloc = 0 then 8 else prealloc) none, 0, 0, 0⟩

/-- The slots that `PointerList_PushLast` copies to a larger buffer. -/
def used (l : PointerList α) : List (Option α) :=
  if l.readIdx < l.writeIdx then (l.buffer.drop l.readIdx).take (l.writeIdx - l.readIdx)
  else l.buffer.drop l.readIdx ++ l.buffer.take l.writeIdx

def grow (l : PointerList α) : PointerList α :=
  { l with
    buffer := l.used ++ List.replicate (l.allocatedSize * 2 - l.used.length) none
    readIdx := 0
    writeIdx := l.nbOfElements }

def pushLast (l : PointerList α) (x : α) : PointerList α :=
  let l := if l.nbOfElements = l.allocatedSize - 1 then l.grow else l
  { l with
    buffer := l.buffer.set l.writeIdx (some x)
    writeIdx := (l.writeIdx + 1) % l.allocatedSize
    nbOfElements := l.nbOfElements + 1 }

def slot (l : PointerList α) (i : Nat) : Option α := (l.buffer[i]?).join

/-- `PointerList_Peek`, with `none` for the null pointer. -/
def peek (l : PointerList α) (index : Nat) : Option α :=
  if l.nbOfElements ≤ index then none else l.slot ((index + l.readIdx) % l.allocatedSize)

/-- The loop of `PointerList_Remove`; after the last slot it goes on with the second one. -/
def shift : Nat → Nat → List (Option α) → List (Option α)
  | 0, _, buffer => buffer
  | n + 1, i, buffer =>
    if i = buffer.length - 1 then shift n 1 (buffer.set i (buffer[0]?).join)
    else shift n (i + 1) (buffer.set i (buffer[i + 1]?).join)

/-- `PointerList_Remove`; the pointer that it gives out is the one `peek` finds. -/
def remove (l : PointerList α) (index : Nat) : PointerList α :=
  if l.nbOfElements ≤ index then l
  else
    { l with
      buffer := shift (l.nbOfElements - 1 - index) ((index + l.readIdx) % l.allocatedSize) l.buffer
      nbOfElements := l.nbOfElements - 1
      writeIdx := (l.writeIdx + l.allocatedSize - 1) % l.allocatedSize }

/-- `PointerList_PopFirst`; the pointer that it gives out is the one `peek` finds. -/
def popFirst (l : PointerList α) : PointerList α :=
  if l.nbOfElements = 0 then l
  else
    { l with
      readIdx := (l.readIdx + 1) % l.allocatedSize
      nbOfElements := l.nbOfElements - 1 }

def poke (l : PointerList α) (index : Nat) (x : α) : PointerList α :=
  if l.nbOfElements ≤ index then l
  else { l with buffer := l.buffer.set ((index + l.readIdx) % l.allocatedSize) (some x) }

/-- The loop of `find_by_pid` and `find_by_id` in `appmon_daemon.c`, from an index, with the rounds that
are left. -/
def findFrom (l : PointerList α) (p : α → Bool) : Nat → Nat → Option Nat
  | 0, _ => none
  | n + 1, i =>
    match l.peek i with
    | none => findFrom l p n (i + 1)
    | some x => if p x then some i else findFrom l p n (i + 1)

def find (l : PointerList α) (p : α → Bool) : Option Nat := l.findFrom p l.nbOfElements 0

/-- The loop of the command `remove`, which ends at the first element that it removes. -/
def removeFirst (l : PointerList α) (p : α → Bool) : PointerList α :=
  match l.find p with
  | none => l
  | some i => l.remove i

inductive Op (α : Type) where
  | pushLast (x : α)
  | popFirst
  | poke (index : Nat) (x : α)
  | peek (index : Nat)
  | remove (index : Nat)
  | getSize

inductive ReturnCode where
  | ok
  | notFound
  | outOfRange

structure Answer (α : Type) where
  code : ReturnCode
  pointer : Option α
  nbOfElements : Option Nat

def inRange (size index : Nat) (pointer : Option α) : Answer α :=
  if size ≤ index then ⟨.outOfRange, none, none⟩ else ⟨.ok, pointer, none⟩

def apply (l : PointerList α) : Op α → PointerList α × Answer α
  | .pushLast x => (l.pushLast x, ⟨.ok, none, none⟩)
  | .popFirst => (l.popFirst,
      if l.nbOfElements = 0 then ⟨.notFound, none, none⟩ else ⟨.ok, l.slot l.readIdx, none⟩)
  | .poke index x => (l.poke index x, inRange l.nbOfElements index none)
  | .peek index => (l, inRange l.nbOfElements index (l.peek index))
  | .remove index => (l.remove index, inRange l.nbOfElements index (l.peek index))
  | .getSize => (l, ⟨.ok, none, some l.nbOfElements⟩)

/-! ## Lists -/

def listApply (xs : List α) : Op α → List α × Answer α
  | .pushLast x => (xs ++ [x], ⟨.ok, none, none⟩)
  | .popFirst => (xs.tail, if xs.isEmpty then ⟨.notFound, none, none⟩ else ⟨.ok, xs[0]?, none⟩)
  | .poke index x => (xs.set index x, inRange xs.length index none)
  | .peek index => (xs, inRange xs.length index xs[index]?)
  | .remove index => (xs.eraseIdx index, inRange xs.length index xs[index]?)
  | .getSize => (xs, ⟨.ok, none, some xs.length⟩)

/-- The elements of a list, from `readIdx` on and around the end of the buffer. -/
structure Holds (l : PointerList α) (xs : List α) : Prop where
  nbOfElements : l.nbOfElements = xs.length
  room : xs.length < l.allocatedSize
  readIdx : l.readIdx < l.allocatedSize
  writeIdx : l.writeIdx = (xs.length + l.readIdx) % l.allocatedSize
  slots : ∀ i < xs.length, l.slot ((i + l.readIdx) % l.allocatedSize) = xs[i]?

theorem holds_create (prealloc : Nat) : (create prealloc : PointerList α).Holds [] := by
  have hsize : 0 < (create prealloc : PointerList α).allocatedSize := by
    simp only [allocatedSize, create, length_replicate]
    split_ifs with h <;> omega
  exact ⟨rfl, hsize, hsize, (Nat.zero_mod _).symm, fun i hi => absurd hi (Nat.not_lt_zero i)⟩

theorem wrap_eq {n r i : Nat} (hr : r < n) (hi : i ≤ n) :
    (i + r) % n = if i + r < n then i + r else i + r - n := by
  split_ifs with h
  · exact Nat.mod_eq_of_lt h
  · rw [Nat.mod_eq_sub_mod (Nat.le_of_not_lt h), Nat.mod_eq_of_lt (by omega)]

variable {l : PointerList α} {xs : List α}

theorem slot_set {b : List (Option α)} {i j : Nat} {v : Option α} (hi : i < b.length) :
    ((b.set i v)[j]?).join = if i = j then v else (b[j]?).join := by
  split_ifs with h
  · rw [← h, List.getElem?_set_self hi]
    rfl
  · rw [List.getElem?_set_ne h]

namespace Holds

variable {b : List (Option α)}

theorem of_buffer {n r : Nat} (hsize : b.length = n) (hroom : xs.length < n)
    (hread : r < n) (hslots : ∀ i < xs.length, (b[(i + r) % n]?).join = xs[i]?) :
    Holds ⟨b, xs.length, r, (xs.length + r) % n⟩ xs := by
  subst hsize
  exact ⟨rfl, hroom, hread, rfl, hslots⟩

theorem peek (h : l.Holds xs) (index : Nat) : l.peek index = xs[index]? := by
  rw [PointerList.peek, h.nbOfElements]
  split_ifs with hindex
  · exact (List.getElem?_eq_none hindex).symm
  · exact h.slots index (Nat.lt_of_not_le hindex)

theorem first (h : l.Holds xs) (hne : xs ≠ []) : l.slot l.readIdx = xs[0]? := by
  have hslot := h.slots 0 (length_pos_of_ne_nil hne)
  rwa [Nat.zero_add, Nat.mod_eq_of_lt h.readIdx] at hslot

theorem used (h : l.Holds xs) : xs.length ≤ l.used.length ∧ l.used.length ≤ l.allocatedSize ∧
    ∀ i < xs.length, (l.used[i]?).join = xs[i]? := by
  have hroom := h.room
  have hread := h.readIdx
  have hwrite := h.writeIdx
  have hlen : l.buffer.length = l.allocatedSize := rfl
  rw [wrap_eq hread (Nat.le_of_lt hroom)] at hwrite
  rw [PointerList.used]
  split_ifs at hwrite ⊢ with hfits hlt hlt
  · refine ⟨by simp; omega, by simp; omega, fun i hi => ?_⟩
    rw [← h.slots i hi, wrap_eq hread (by omega), if_pos (by omega), List.getElem?_take_of_lt (by omega),
      List.getElem?_drop, Nat.add_comm]
    rfl
  · omega
  · refine ⟨by simp; omega, by simp; omega, fun i hi => by omega⟩
  · refine ⟨by simp; omega, by simp; omega, fun i hi => ?_⟩
    rw [← h.slots i hi, wrap_eq hread (by omega)]
    by_cases hfirst : i + l.readIdx < l.allocatedSize
    · rw [if_pos hfirst, List.getElem?_append_left (by rw [length_drop]; omega), List.getElem?_drop,
        Nat.add_comm]
      rfl
    · rw [if_neg hfirst, List.getElem?_append_right (by rw [length_drop]; omega), length_drop,
        List.getElem?_take_of_lt (by omega), slot]
      congr 2
      omega

theorem grow (h : l.Holds xs) : l.grow.Holds xs ∧ l.grow.allocatedSize = l.allocatedSize * 2 := by
  have hroom := h.room
  obtain ⟨hge, hle, hslots⟩ := h.used
  have hsize : l.grow.allocatedSize = l.allocatedSize * 2 := by
    simp only [PointerList.grow, allocatedSize, length_append, length_replicate] at hle ⊢
    omega
  refine ⟨?_, hsize⟩
  have hholds : Holds ⟨l.grow.buffer, xs.length, 0, (xs.length + 0) % (l.allocatedSize * 2)⟩ xs := by
    refine of_buffer hsize (by omega) (by omega) fun i hi => ?_
    rw [Nat.add_zero, Nat.mod_eq_of_lt (by omega), PointerList.grow,
      List.getElem?_append_left (by omega), hslots i hi]
  rw [Nat.add_zero, Nat.mod_eq_of_lt (by omega), ← h.nbOfElements] at hholds
  exact hholds

theorem push (h : l.Holds xs) (hroom : xs.length + 1 < l.allocatedSize) (x : α) :
    Holds ⟨l.buffer.set l.writeIdx (some x), l.nbOfElements + 1, l.readIdx,
      (l.writeIdx + 1) % l.allocatedSize⟩ (xs ++ [x]) := by
  have hread := h.readIdx
  have hwrite := h.writeIdx
  rw [wrap_eq hread (by omega)] at hwrite
  have hlast : (xs ++ [x]).length = xs.length + 1 := length_append
  have hlt : l.writeIdx < l.buffer.length := by
    show _ < l.allocatedSize
    split_ifs at hwrite <;> omega
  rw [h.nbOfElements, h.writeIdx, Nat.mod_add_mod, Nat.add_right_comm, ← h.writeIdx, ← hlast]
  refine of_buffer length_set (by omega) hread fun i hi => ?_
  rw [slot_set hlt]
  show (if _ then _ else l.slot ((i + l.readIdx) % l.allocatedSize)) = _
  by_cases hi' : i = xs.length
  · rw [hi', ← h.writeIdx, if_pos rfl, List.getElem?_append_right (Nat.le_refl _), Nat.sub_self]
    rfl
  have hlt' : i < xs.length := by omega
  rw [if_neg, h.slots i hlt', List.getElem?_append_left hlt']
  show ¬ l.writeIdx = (i + l.readIdx) % l.allocatedSize
  rw [hwrite, wrap_eq hread (by omega)]
  split_ifs <;> omega

theorem pushLast (h : l.Holds xs) (x : α) : (l.pushLast x).Holds (xs ++ [x]) := by
  have hroom := h.room
  have hnb := h.nbOfElements
  unfold PointerList.pushLast
  split_ifs with hfull
  · exact h.grow.1.push (by rw [h.grow.2]; omega) x
  · exact h.push (by omega) x

theorem popFirst (h : l.Holds xs) : l.popFirst.Holds xs.tail := by
  rw [PointerList.popFirst, h.nbOfElements]
  cases xs with
  | nil => exact h
  | cons x xs =>
    have hroom := h.room
    have hpos : 0 < l.allocatedSize := by omega
    rw [if_neg (by simp)]
    refine ⟨rfl, Nat.lt_of_succ_lt hroom, Nat.mod_lt _ hpos, ?_, ?_⟩
    · show l.writeIdx = (xs.length + (l.readIdx + 1) % l.allocatedSize) % l.allocatedSize
      rw [Nat.add_mod_mod, h.writeIdx, length_cons]
      congr 1
      omega
    · intro i hi
      show l.slot ((i + (l.readIdx + 1) % l.allocatedSize) % l.allocatedSize) = xs[i]?
      rw [Nat.add_mod_mod, ← List.getElem?_cons_succ (a := x), ← h.slots (i + 1) (Nat.succ_lt_succ hi)]
      congr 2
      omega

theorem poke (h : l.Holds xs) (index : Nat) (x : α) : (l.poke index x).Holds (xs.set index x) := by
  rw [PointerList.poke]
  split_ifs with hindex
  · rwa [set_eq_of_length_le (h.nbOfElements ▸ hindex)]
  · have hroom := h.room
    have hread := h.readIdx
    have hlt : index < xs.length := by rw [← h.nbOfElements]; omega
    have hlen : (xs.set index x).length = xs.length := length_set
    rw [h.nbOfElements, h.writeIdx, ← hlen]
    refine of_buffer length_set (by omega) hread fun i hi => ?_
    have hlt' : (index + l.readIdx) % l.allocatedSize < l.buffer.length := Nat.mod_lt _ (by omega)
    rw [slot_set hlt', List.getElem?_set]
    show (if _ then _ else l.slot ((i + l.readIdx) % l.allocatedSize)) = _
    by_cases heq : index = i
    · subst heq
      rw [if_pos rfl, if_pos rfl, if_pos hlt]
    · rw [if_neg heq, ← h.slots i (by omega), if_neg]
      show ¬ (index + l.readIdx) % l.allocatedSize = (i + l.readIdx) % l.allocatedSize
      rw [wrap_eq hread (by omega), wrap_eq hread (by omega)]
      split_ifs <;> omega

/-! ## Removal -/

omit l xs in
theorem slot_shift {n i : Nat} (h : i + n < b.length) (j : Nat) :
    ((shift n i b)[j]?).join = ((if i ≤ j ∧ j < i + n then b[j + 1]? else b[j]?)).join := by
  induction n generalizing i b with
  | zero =>
    rw [if_neg (by omega)]
    rfl
  | succ n ih =>
    rw [shift, if_neg (by omega), ih (by rw [length_set]; omega)]
    rcases Nat.lt_trichotomy i j with hij | rfl | hij
    · rw [List.getElem?_set_ne (by omega), List.getElem?_set_ne (by omega)]
      by_cases hjn : j < i + 1 + n
      · rw [if_pos (by omega), if_pos (by omega)]
      · rw [if_neg (by omega), if_neg (by omega)]
    · rw [if_neg (by omega), if_pos (by omega), slot_set (by omega), if_pos rfl]
    · rw [if_neg (by omega), if_neg (by omega), List.getElem?_set_ne (by omega)]

/-- Beyond the end of the buffer the first slot keeps what was copied to the last one. -/
theorem slot_shift_wrap {n i : Nat} (hi : i < b.length) (hwrap : b.length ≤ i + n)
    (hn : n + 1 < b.length) {j : Nat} (hj : j < b.length) :
    ((shift n i b)[j]?).join = (if j + 1 = b.length then b[0]?
      else if i ≤ j ∨ 1 ≤ j ∧ j + b.length ≤ i + n then b[j + 1]? else b[j]?).join := by
  induction n generalizing i b with
  | zero => omega
  | succ n ih =>
    rw [shift]
    by_cases hlast : i = b.length - 1
    · rw [if_pos hlast, slot_shift (by rw [length_set]; omega)]
      by_cases hj' : 1 ≤ j ∧ j < 1 + n
      · rw [if_pos hj', if_neg (by omega), if_pos (by omega), List.getElem?_set_ne (by omega)]
      · rw [if_neg hj', slot_set hi]
        by_cases hji : i = j
        · rw [if_pos hji, if_pos (by omega)]
        · rw [if_neg hji, if_neg (by omega), if_neg (by omega)]
    · have hlen : (b.set i (b[i + 1]?).join).length = b.length := length_set
      rw [if_neg hlast, ih (by omega) (by omega) (by omega) (by omega), hlen,
        List.getElem?_set_ne (by omega)]
      by_cases hji : i = j
      · subst hji
        rw [if_neg (by omega), if_neg (by omega), if_neg (by omega), if_pos (by omega), slot_set hi,
          if_pos rfl]
      rw [List.getElem?_set_ne hji]
      by_cases hj' : j + 1 = b.length
      · rw [if_pos hj', if_pos hj']
      · rw [if_neg hj', if_neg hj']
        by_cases hmoved : i + 1 ≤ j ∨ 1 ≤ j ∧ j + b.length ≤ i + 1 + n
        · rw [if_pos hmoved, if_pos (by omega), List.getElem?_set_ne (by omega)]
        · rw [if_neg hmoved, if_neg (by omega)]

theorem length_shift (n i : Nat) (b : List (Option α)) : (shift n i b).length = b.length := by
  induction n generalizing i b with
  | zero => rfl
  | succ n ih =>
    rw [shift]
    split_ifs <;> rw [ih, length_set]

variable {index : Nat}

/-- What stands at the places of the list, all right but for the one that comes to the first slot. -/
theorem slot_remove (h : l.Holds xs) (hindex : index < xs.length) {j : Nat} (hj : j + 1 < xs.length) :
    ((shift (xs.length - 1 - index) ((index + l.readIdx) % l.allocatedSize)
      l.buffer)[(j + l.readIdx) % l.allocatedSize]?).join =
    if index + l.readIdx < l.allocatedSize ∧ j + l.readIdx = l.allocatedSize then l.slot 0
    else (xs.eraseIdx index)[j]? := by
  have hroom := h.room
  have hread := h.readIdx
  have hlen : l.buffer.length = l.allocatedSize := rfl
  have hold : l.slot ((j + l.readIdx) % l.allocatedSize) = xs[j]? := h.slots j (by omega)
  have hnext : l.slot ((j + 1 + l.readIdx) % l.allocatedSize) = xs[j + 1]? := h.slots (j + 1) hj
  rw [List.getElem?_eraseIdx, ← hold, ← hnext, slot, slot, slot]
  rw [wrap_eq hread (by omega), wrap_eq hread (by omega), wrap_eq hread (by omega)]
  -- The place is before the removed one or not, and on one or the other side of the end.
  by_cases hwrap : index + l.readIdx < l.allocatedSize ∧ l.allocatedSize + 1 ≤ xs.length + l.readIdx
  · rw [if_pos hwrap.1, slot_shift_wrap (by omega) (by omega) (by omega) (by split_ifs <;> omega), hlen]
    split_ifs <;> first | omega | rfl | (congr 2; omega)
  · rw [slot_shift (by split_ifs <;> omega)]
    split_ifs <;> first | omega | rfl | (congr 2; omega)

end Holds

/-- Nothing is removed around the end of the buffer from before the last slot, unless it makes no
difference. -/
def Sound (l : PointerList α) : Op α → Prop
  | .remove index => index < l.nbOfElements → index + l.readIdx < l.allocatedSize →
      l.allocatedSize + 1 < l.nbOfElements + l.readIdx → l.slot 0 = l.slot 1
  | _ => True

theorem Holds.remove_iff (h : l.Holds xs) (index : Nat) :
    (l.remove index).Holds (xs.eraseIdx index) ↔ l.Sound (.remove index) := by
  have hroom := h.room
  have hread := h.readIdx
  by_cases hindex : xs.length ≤ index
  · have hsound : l.Sound (.remove index) := fun hlt => absurd (h.nbOfElements ▸ hlt) (by omega)
    rw [remove, if_pos (by rw [h.nbOfElements]; exact hindex), eraseIdx_of_length_le hindex]
    exact iff_of_true h hsound
  have hlt : index < xs.length := Nat.lt_of_not_le hindex
  have herase : (xs.eraseIdx index).length = xs.length - 1 := length_eraseIdx_of_lt hlt
  -- the slot after the first one, where it is in use
  have hone : l.allocatedSize + 1 < xs.length + l.readIdx →
      l.slot 1 = xs[l.allocatedSize - l.readIdx + 1]? := by
    intro hlong
    rw [← h.slots _ (by omega), wrap_eq hread (by omega), if_neg (by omega)]
    congr 1
    omega
  have hmod : (xs.length - 1 + l.readIdx) % l.allocatedSize =
      (l.writeIdx + l.allocatedSize - 1) % l.allocatedSize := by
    rw [h.writeIdx, Nat.add_sub_assoc (by omega), Nat.mod_add_mod,
      show xs.length + l.readIdx + (l.allocatedSize - 1) =
        xs.length - 1 + l.readIdx + l.allocatedSize by omega, Nat.add_mod_right]
  rw [Sound, h.nbOfElements, remove, if_neg (by rw [h.nbOfElements]; exact hindex), h.nbOfElements,
    ← hmod, ← herase, herase]
  constructor
  · intro hholds _ hbefore hlong
    have hslot := hholds.slots (l.allocatedSize - l.readIdx) (by rw [herase]; omega)
    change ((shift _ _ l.buffer)[_ % (shift _ _ l.buffer).length]?).join = _ at hslot
    have hfirst := h.slot_remove hlt (j := l.allocatedSize - l.readIdx) (by omega)
    rw [if_pos ⟨hbefore, by omega⟩] at hfirst
    rw [length_shift] at hslot
    rw [← hfirst, hone hlong]
    refine hslot.trans ?_
    rw [List.getElem?_eraseIdx, if_neg (by omega)]
  · intro hsound
    have hslots : ∀ j < (xs.eraseIdx index).length, ((shift (xs.length - 1 - index)
        ((index + l.readIdx) % l.allocatedSize) l.buffer)[(j + l.readIdx) % l.allocatedSize]?).join =
        (xs.eraseIdx index)[j]? := by
      intro j hj
      rw [herase] at hj
      rw [h.slot_remove hlt (by omega)]
      split_ifs with hwrong
      · rw [hsound hlt hwrong.1 (by omega), hone (by omega), List.getElem?_eraseIdx, if_neg (by omega)]
        congr 1
        omega
      · rfl
    have hholds := Holds.of_buffer (n := l.allocatedSize) (length_shift _ _ _) (by rw [herase]; omega) hread hslots
    rw [herase] at hholds
    exact hholds

theorem Holds.answer (h : l.Holds xs) (op : Op α) : (l.apply op).2 = (listApply xs op).2 := by
  cases op with
  | pushLast x => rfl
  | popFirst =>
    simp only [apply, listApply, h.nbOfElements, List.isEmpty_iff, List.length_eq_zero_iff]
    split_ifs with hnil
    · rfl
    · rw [h.first hnil]
  | poke index x => simp only [apply, listApply, h.nbOfElements]
  | peek index => simp only [apply, listApply, h.nbOfElements, h.peek]
  | remove index => simp only [apply, listApply, h.nbOfElements, h.peek]
  | getSize => simp only [apply, listApply, h.nbOfElements]

theorem Holds.apply_iff (h : l.Holds xs) (op : Op α) :
    (l.apply op).1.Holds (listApply xs op).1 ↔ l.Sound op := by
  cases op with
  | pushLast x => exact iff_of_true (h.pushLast x) trivial
  | popFirst => exact iff_of_true h.popFirst trivial
  | poke index x => exact iff_of_true (h.poke index x) trivial
  | peek index => exact iff_of_true h trivial
  | remove index => exact h.remove_iff index
  | getSize => exact iff_of_true h trivial

def Refines : PointerList α → List α → List (Op α) → Prop
  | _, _, [] => True
  | l, xs, op :: ops => (l.apply op).2 = (listApply xs op).2 ∧
      (l.apply op).1.Holds (listApply xs op).1 ∧ Refines (l.apply op).1 (listApply xs op).1 ops

def SoundRun : PointerList α → List (Op α) → Prop
  | _, [] => True
  | l, op :: ops => l.Sound op ∧ SoundRun (l.apply op).1 ops

theorem Holds.refines_iff (h : l.Holds xs) (ops : List (Op α)) : l.Refines xs ops ↔ l.SoundRun ops := by
  induction ops generalizing l xs with
  | nil => exact Iff.rfl
  | cons op ops ih =>
    rw [Refines, SoundRun, h.apply_iff, and_iff_right (h.answer op)]
    exact and_congr_right fun hsound => ih ((h.apply_iff op).mpr hsound)

theorem refines_list (prealloc : Nat) (ops : List (Op α)) :
    (create prealloc).Refines [] ops ↔ (create prealloc).SoundRun ops :=
  (holds_create prealloc).refines_iff ops

def wrapped : List (Op Nat) :=
  [.pushLast 1, .pushLast 2, .pushLast 3, .popFirst, .popFirst, .popFirst, .pushLast 5, .pushLast 6,
    .pushLast 7, .remove 0]

theorem remove_loses_element : ¬ ∀ (prealloc : Nat) (ops : List (Op Nat)),
    (create prealloc).Refines [] ops := by
  intro h
  obtain ⟨-, -, -, -, -, -, -, -, -, hsound, -⟩ := ((holds_create 4).refines_iff wrapped).mp (h 4 wrapped)
  exact absurd (hsound (by decide) (by decide) (by decide)) (by decide)

/-! ## Searches -/

theorem Holds.findFrom (h : l.Holds xs) (p : α → Bool) {n i : Nat}
    (hn : n = xs.length - i) :
    l.findFrom p n i = ((xs.drop i).findIdx? p).map (· + i) := by
  induction n generalizing i with
  | zero =>
    rw [drop_eq_nil_of_le (by omega)]
    rfl
  | succ n ih =>
    have hi : i < xs.length := by omega
    rw [PointerList.findFrom, h.peek, List.getElem?_eq_getElem hi, drop_eq_getElem_cons hi,
      List.findIdx?_cons]
    dsimp only
    split_ifs with hp
    · simp
    · rw [ih (by omega), Option.map_map]
      congr 1
      funext k
      simp only [Function.comp_apply]
      omega

theorem Holds.find (h : l.Holds xs) (p : α → Bool) :
    l.find p = xs.findIdx? p := by
  rw [PointerList.find, h.findFrom p (by rw [h.nbOfElements]; rfl), drop_zero]
  simp

theorem Holds.sound (h : l.Holds xs) (hread : l.readIdx = 0) (op : Op α) : l.Sound op := by
  cases op with
  | remove index =>
    intro _ _ hlong
    have hroom := h.room
    rw [h.nbOfElements, hread] at hlong
    omega
  | _ => trivial

theorem Holds.removeFirst (h : l.Holds xs) (hread : l.readIdx = 0) (p : α → Bool) :
    (l.removeFirst p).Holds (xs.eraseP p) := by
  rw [PointerList.removeFirst, h.find, eraseP_eq_eraseIdx]
  cases hfind : xs.findIdx? p with
  | none => exact h
  | some i => exact (h.remove_iff i).mpr (h.sound hread (.remove i))

/-! ## Lists from which nothing is popped -/

def run (l : PointerList α) (ops : List (Op α)) : PointerList α :=
  ops.foldl (fun l op => (l.apply op).1) l

def listRun (xs : List α) (ops : List (Op α)) : List α :=
  ops.foldl (fun xs op => (listApply xs op).1) xs

theorem readIdx_apply {op : Op α} (hop : op ≠ .popFirst) (hread : l.readIdx = 0) :
    (l.apply op).1.readIdx = 0 := by
  cases op with
  | popFirst => exact absurd rfl hop
  | pushLast x =>
    show (if l.nbOfElements = l.allocatedSize - 1 then l.grow else l).readIdx = 0
    split
    · rfl
    · exact hread
  | poke index x =>
    show (if l.nbOfElements ≤ index then l else _).readIdx = 0
    split <;> exact hread
  | remove index =>
    show (if l.nbOfElements ≤ index then l else _).readIdx = 0
    split <;> exact hread
  | peek | getSize => exact hread

theorem Holds.run (h : l.Holds xs) (hread : l.readIdx = 0) {ops : List (Op α)}
    (hops : .popFirst ∉ ops) :
    l.Refines xs ops ∧ (l.run ops).Holds (listRun xs ops) ∧ (l.run ops).readIdx = 0 := by
  induction ops generalizing l xs with
  | nil => exact ⟨trivial, h, hread⟩
  | cons op ops ih =>
    obtain ⟨hop, hops⟩ := not_or.mp (mem_cons.not.mp hops)
    have hholds := (h.apply_iff op).mpr (h.sound hread op)
    obtain ⟨hrefines, hend⟩ := ih hholds (readIdx_apply (Ne.symm hop) hread) hops
    exact ⟨⟨h.answer op, hholds, hrefines⟩, hend⟩

/-- The list of the daemon, from which nothing is popped, and its loops are those of a list. -/
theorem never_popped (prealloc : Nat) {ops : List (Op α)} (hops : .popFirst ∉ ops) (p : α → Bool) :
    (create prealloc).Refines [] ops ∧
      ((create prealloc).run ops).find p = (listRun [] ops).findIdx? p ∧
      (((create prealloc).run ops).removeFirst p).Holds ((listRun [] ops).eraseP p) := by
  obtain ⟨hrefines, hholds, hread⟩ := (holds_create prealloc).run rfl hops
  exact ⟨hrefines, hholds.find p, hholds.removeFirst hread p⟩

theorem never_popped_two :
    ((create 0).run [.pushLast 1, .pushLast 2]).find (· = 2) = some 1 := by
  have hops : (.popFirst : Op Nat) ∉ [.pushLast 1, .pushLast 2] := by simp
  exact (never_popped 0 hops (· = 2)).2.1

end PointerList

end Mihini.Appmon
