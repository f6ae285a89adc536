import Mathlib.Data.List.Chain
import Mihini.Lib.Ring
import Mihini.Lib.Run

/-!
# The history of the line editor

`src/luafwk/shell/telnet/history.c`, the actions that browse it (`actions.c`) and the change of state
after an action (`teel.c`).  The edited text is taken without the rows in which it is displayed.
-/

namespace Mihini.Teel

open Mihini.Lib List

abbrev Str := List Char

/-! ## The edited line -/

inductive Item where
  | char (c : Char) (h : c ≠ '\n')
  | lineBreak
  deriving DecidableEq

structure Editor where
  text : List Item
  cursor : Nat
  deriving DecidableEq

/-- The text that `tl_editor_insertchars` puts for some bytes, which `tl_detectlinebreak` cuts. -/
def items : Str → List Item
  | [] => []
  | '\r' :: '\n' :: rest => .lineBreak :: items rest
  | c :: rest => (if h : c = '\n' then .lineBreak else .char c h) :: items rest

def getline (text : List Item) : Str :=
  text.flatMap fun
    | .char c _ => [c]
    | .lineBreak => ['\r', '\n']

def seteditcontent (line : Str) : Editor := ⟨items line, (items line).length⟩

/-- `tl_editor_movecursor`, from the start of the text. -/
def Editor.move (e : Editor) (n : Nat) : Editor := { e with cursor := min n e.text.length }

/-! ## The history -/

structure History where
  list : List (Option Str)
  widx : Nat
  idx : Nat
  curline : Option (Str × Nat)
  deriving DecidableEq

namespace History

def size (h : History) : Nat := h.list.length

def cell (h : History) (i : Nat) : Option Str := h.list[i]?.join

def addhistory (h : History) (line : Str) : History :=
  if h.size = 0 then h
  else if h.cell (Ring.back h.size h.widx 1) = some line then h
  else { h with list := h.list.set h.widx (some line), widx := Ring.next h.size h.widx }

def sethistorysize (h : History) (size : Nat) : History :=
  if size = 0 then h
  else
    let s := min size h.size
    { h with
      list := (List.range size).map fun j =>
        if j < s then h.cell (Ring.back h.size h.widx (s - j - 1)) else none
      idx := 0
      widx := 0 }

def getentry (h : History) (pos : Nat) : Option Str :=
  if h.size < pos ∨ pos = 0 then none else h.cell (Ring.back h.size h.widx pos)

def resetcontext (h : History) : History := { h with curline := none, idx := 0 }

end History

/-! ## The editor -/

inductive TeelState where
  | characterInput
  | historyBrowse
  | editlineDone
  | completionDisp
  deriving DecidableEq

structure TeelInstance where
  history : History
  editor : Editor
  state : TeelState
  failed : Bool
  deriving DecidableEq

def TeelInstance.statechanged (ti : TeelInstance) (laststate : TeelState) : TeelInstance :=
  if ti.state = laststate then ti
  else
    match laststate with
    | .historyBrowse => { ti with history := ti.history.resetcontext }
    | _ => ti

def TeelInstance.preventry (ti : TeelInstance) : TeelInstance :=
  let ti := { ti with state := .historyBrowse }
  let pos := ti.history.idx + 1
  match ti.history.getentry pos with
  | none => ti
  | some e =>
    let curline := if pos = 1 then some (getline ti.editor.text, ti.editor.cursor) else ti.history.curline
    { ti with
      history := { ti.history with curline := curline, idx := pos }
      editor := seteditcontent e }

def TeelInstance.nextentry (ti : TeelInstance) : TeelInstance :=
  let ti := { ti with state := .historyBrowse }
  match ti.history.idx with
  | 0 => ti
  | 1 =>
    let (line, pos) := ti.history.curline.getD ([], 0)
    { ti with
      history := { ti.history with curline := none, idx := 0 }
      editor := (seteditcontent line).move pos }
  | pos + 1 =>
    match ti.history.getentry pos with
    | none => { ti with history := { ti.history with idx := pos }, failed := true }
    | some e => { ti with history := { ti.history with idx := pos }, editor := seteditcontent e }

def TeelInstance.act (ti : TeelInstance) (func : TeelInstance → TeelInstance) : TeelInstance :=
  (func { ti with state := .characterInput }).statechanged ti.state

/-! ## Runs -/

inductive Event where
  | addhistory (line : Str)
  | sethistorysize (size : Nat)
  | previous
  | next
  | edit (editor : Editor) (state : TeelState)
  deriving DecidableEq

structure World where
  ti : TeelInstance
  size : Nat
  kept : List Str
  deriving DecidableEq

def World.init : World := ⟨⟨⟨[], 0, 0, none⟩, ⟨[], 0⟩, .characterInput, false⟩, 0, []⟩

def addLine (size : Nat) (line : Str) (kept : List Str) : List Str :=
  if kept.head? = some line then kept else (line :: kept).take size

def step (w : World) : Event → World
  | .addhistory line =>
    { w with
      ti := { w.ti with history := w.ti.history.addhistory line }
      kept := addLine w.size line w.kept }
  | .sethistorysize size =>
    ⟨{ w.ti with history := w.ti.history.sethistorysize size }, size, w.kept.take size⟩
  | .previous => { w with ti := w.ti.act TeelInstance.preventry }
  | .next => { w with ti := w.ti.act TeelInstance.nextentry }
  | .edit editor state => { w with ti := w.ti.act fun ti => { ti with editor := editor, state := state } }

/-- The cursor is in the text, and only the actions of the history browse it.  A size is positive. -/
def Enabled : Event → Prop
  | .edit editor state => editor.cursor ≤ editor.text.length ∧ state ≠ .historyBrowse
  | .sethistorysize size => 0 < size
  | _ => True

instance : DecidablePred Enabled
  | .edit _ _ => inferInstanceAs (Decidable (_ ∧ _))
  | .sethistorysize _ => inferInstanceAs (Decidable (_ < _))
  | .addhistory _ | .previous | .next => inferInstanceAs (Decidable True)

/-- The size is set to a history without lines; or it is set to 1 while the ring is full, and the oldest
line is the same as the last one. -/
def SoundResize (h : History) (size : Nat) : Prop :=
  h.getentry 1 = none ∨ (size = 1 ∧ h.getentry h.size = h.getentry 1)

instance (h : History) (size : Nat) : Decidable (SoundResize h size) :=
  inferInstanceAs (Decidable (_ ∨ _))

def Sound (w : World) : Event → Prop
  | .sethistorysize size => SoundResize w.ti.history size
  | _ => True

instance (w : World) : DecidablePred (Sound w)
  | .sethistorysize _ => inferInstanceAs (Decidable (SoundResize _ _))
  | .addhistory _ | .previous | .next | .edit _ _ => inferInstanceAs (Decidable True)

structure Lists (h : History) (size : Nat) (kept : List Str) : Prop where
  size_eq : h.size = size
  bounded : kept.length ≤ size
  entries : ∀ pos, h.getentry pos = if pos = 0 then none else kept[pos - 1]?

def Browses : Event → Prop
  | .addhistory _ | .previous | .next => True
  | .sethistorysize _ | .edit _ _ => False

/-- The lines are listed; and from the edited line, going up some entries and down as many gives the
line and its cursor again, as does every way back to it. -/
structure Correct (w : World) : Prop where
  lists : Lists w.ti.history w.size w.kept
  asserted : w.ti.failed = false
  edited : w.ti.state ≠ .historyBrowse → w.ti.history.idx = 0
  restored : w.ti.history.idx = 0 → ∀ k : Nat,
    ((List.replicate k Event.previous ++ List.replicate k Event.next).foldl step w).ti.editor =
      w.ti.editor
  back : w.ti.history.idx = 0 → ∀ events : List Event, (∀ e ∈ events, Browses e) →
    (events.foldl step w).ti.history.idx = 0 → (events.foldl step w).ti.editor = w.ti.editor

/-! ## The edited line -/

theorem getline_cons (i : Item) (text : List Item) :
    getline (i :: text) = (match i with
      | .char c _ => [c]
      | .lineBreak => ['\r', '\n']) ++ getline text := rfl

theorem head_getline (text : List Item) : (getline text).head? ≠ some '\n' := by
  cases text with
  | nil => nofun
  | cons i text =>
    cases i with
    | char c h =>
      intro heq
      exact h (Option.some.inj heq)
    | lineBreak =>
      intro heq
      exact absurd (Option.some.inj heq) (by decide)

theorem items_cons {c : Char} (hc : c ≠ '\n') {rest : Str} (hrest : rest.head? ≠ some '\n') :
    items (c :: rest) = .char c hc :: items rest := by
  rw [items, dif_neg hc]
  intro rest' _ heq
  rw [heq] at hrest
  exact hrest rfl

theorem items_getline (text : List Item) : items (getline text) = text := by
  induction text with
  | nil => rfl
  | cons i text ih =>
    rw [getline_cons]
    cases i with
    | char c h =>
      show items (c :: getline text) = _
      rw [items_cons h (head_getline text), ih]
    | lineBreak =>
      show items ('\r' :: '\n' :: getline text) = _
      rw [items, ih]

theorem move_getline {e : Editor} (h : e.cursor ≤ e.text.length) :
    (seteditcontent (getline e.text)).move e.cursor = e := by
  obtain ⟨text, cursor⟩ := e
  rw [seteditcontent, Editor.move, items_getline, Nat.min_eq_left h]

/-! ## The ring -/

namespace Lists

variable {h : History} {size : Nat} {kept : List Str}

theorem entry (hl : Lists h size kept) {pos : Nat} (hpos : 0 < pos) :
    h.getentry pos = kept[pos - 1]? := by
  rw [hl.entries, if_neg (by omega)]

theorem of_cells (hsize : h.size = size) (hbounded : kept.length ≤ size)
    (hcells : ∀ pos, 0 < pos → pos ≤ size → h.cell (Ring.back size h.widx pos) = kept[pos - 1]?) :
    Lists h size kept where
  size_eq := hsize
  bounded := hbounded
  entries pos := by
    rw [History.getentry, hsize]
    by_cases hzero : pos = 0
    · rw [if_pos (.inr hzero), if_pos hzero]
    · rw [if_neg hzero]
      by_cases hlt : size < pos
      · rw [if_pos (.inl hlt), List.getElem?_eq_none (by omega)]
      · rw [if_neg (by omega), hcells pos (by omega) (by omega)]

theorem cell (hl : Lists h size kept) {pos : Nat} (hpos : 0 < pos) (hle : pos ≤ size) :
    h.cell (Ring.back size h.widx pos) = kept[pos - 1]? := by
  have hentry := hl.entry hpos
  rw [History.getentry, hl.size_eq, if_neg (by omega)] at hentry
  exact hentry

theorem kept_nil (hl : Lists h size kept) (hnone : h.getentry 1 = none) : kept = [] := by
  rw [hl.entry (by omega)] at hnone
  exact length_eq_zero_iff.mp (by simpa using hnone)

end Lists

variable {size : Nat} {kept : List Str} {line : Str}

theorem length_addLine (h : kept.length ≤ size) :
    (addLine size line kept).length ≤ size := by
  unfold addLine
  split
  · exact h
  · rw [length_take]
    exact Nat.min_le_left _ _

theorem length_le_addLine (h : kept.length ≤ size) :
    kept.length ≤ (addLine size line kept).length := by
  unfold addLine
  split
  · exact Nat.le_refl _
  · rw [length_take, length_cons]
    omega

theorem isChain_addLine (h : kept.IsChain (· ≠ ·)) :
    (addLine size line kept).IsChain (· ≠ ·) := by
  unfold addLine
  split
  · exact h
  · rename_i hne
    refine List.IsChain.take (isChain_cons.mpr ⟨?_, h⟩) _
    rintro last hlast rfl
    exact hne hlast

namespace Lists

variable {h : History} {size : Nat} {kept : List Str}

theorem size_addhistory (h : History) (line : Str) : (h.addhistory line).size = h.size := by
  unfold History.addhistory
  split
  · rfl
  · split
    · rfl
    · exact length_set

/-- A line is the first entry, and all others are one further. -/
theorem addhistory (hl : Lists h size kept) (hw : 0 < size → h.widx < size) (line : Str) :
    Lists (h.addhistory line) size (addLine size line kept) := by
  rcases Nat.eq_zero_or_pos size with hzero | hpos
  · subst hzero
    have hkept : kept = [] := length_eq_zero_iff.mp (Nat.le_zero.mp hl.bounded)
    have hadd : h.addhistory line = h := if_pos hl.size_eq
    rw [hadd, hkept]
    rwa [hkept] at hl
  · have hwidx := hw hpos
    have hlast : h.cell (Ring.back size h.widx 1) = kept.head? := by
      rw [hl.cell (by omega) hpos, List.head?_eq_getElem?]
    refine of_cells ((size_addhistory h line).trans hl.size_eq) (length_addLine hl.bounded) ?_
    intro pos hpos' hle
    unfold History.addhistory addLine
    rw [hl.size_eq, if_neg (by omega), hlast]
    by_cases heq : kept.head? = some line
    · rw [if_pos heq, if_pos heq]
      exact hl.cell hpos' hle
    rw [if_neg heq, if_neg heq]
    obtain ⟨k, rfl⟩ : ∃ k, pos = k + 1 := ⟨pos - 1, by omega⟩
    rw [Nat.add_sub_cancel, List.getElem?_take_of_lt (by omega)]
    have hlen : h.list.length = size := hl.size_eq
    rcases Nat.eq_zero_or_pos k with hk | hk
    · subst hk
      show (h.list.set h.widx (some line))[Ring.back size (Ring.next size h.widx) 1]?.join = _
      rw [Ring.back_next_one hwidx, List.getElem?_set_self (by omega)]
      rfl
    · show (h.list.set h.widx (some line))[Ring.back size (Ring.next size h.widx) (k + 1)]?.join = _
      rw [Ring.back_next hwidx hk (by omega),
        List.getElem?_set_ne (Ring.back_ne hwidx hk (by omega)).symm,
        List.getElem?_cons, if_neg (by omega)]
      exact hl.cell hk (by omega)

end Lists

/-! ## The size -/

theorem getentry_sethistorysize (h : History) {n pos : Nat} (hpos : 0 < pos) (hle : pos ≤ n) :
    (h.sethistorysize n).getentry pos =
      if n - pos < min n h.size then
        h.cell (Ring.back h.size h.widx (min n h.size - (n - pos) - 1))
      else none := by
  have hset : h.sethistorysize n = { h with
      list := (List.range n).map fun j =>
        if j < min n h.size then h.cell (Ring.back h.size h.widx (min n h.size - j - 1)) else none
      idx := 0
      widx := 0 } := if_neg (by omega)
  have hsize : (h.sethistorysize n).size = n := by
    rw [hset, History.size, length_map, length_range]
  rw [History.getentry, hsize, if_neg (by omega), hset]
  show ((List.range n).map _)[Ring.back n 0 pos]?.join = _
  rw [Ring.back_zero hpos hle, List.getElem?_map, List.getElem?_range (by omega)]
  rfl

namespace Lists

variable {h : History} {size : Nat} {kept : List Str}

theorem size_sethistorysize (h : History) {n : Nat} (hn : 0 < n) : (h.sethistorysize n).size = n := by
  unfold History.sethistorysize
  rw [if_neg (by omega), History.size, length_map, length_range]

theorem of_getentry (hsize : h.size = size) (hbounded : kept.length ≤ size)
    (hentry : ∀ pos, 0 < pos → pos ≤ size → h.getentry pos = kept[pos - 1]?) :
    Lists h size kept := by
  refine of_cells hsize hbounded fun pos hpos hle => ?_
  have heq := hentry pos hpos hle
  rwa [History.getentry, hsize, if_neg (by omega)] at heq

theorem cell_zero (hl : Lists h size kept) (hw : h.widx < size) :
    h.cell (Ring.back size h.widx 0) = h.getentry size := by
  rw [History.getentry, hl.size_eq, if_neg (by omega), Ring.back_size hw, Ring.back,
    Nat.sub_zero, Nat.add_mod_right, Nat.mod_eq_of_lt hw]

theorem sethistorysize (hl : Lists h size kept) (hw : 0 < size → h.widx < size) {n : Nat} (hn : 0 < n)
    (hs : SoundResize h n) : Lists (h.sethistorysize n) n (kept.take n) := by
  refine of_getentry (size_sethistorysize h hn) (length_take_le _ _) fun pos hpos hle => ?_
  rw [getentry_sethistorysize h hpos hle, hl.size_eq, List.getElem?_take_of_lt (by omega)]
  rcases hs with hnone | ⟨rfl, hone⟩
  · have hkept := hl.kept_nil hnone
    rw [hkept, List.getElem?_nil]
    split
    · rename_i hlt
      rcases Nat.eq_zero_or_pos (min n size - (n - pos) - 1) with hzero | hback
      · rw [hzero, hl.cell_zero (hw (by omega)), hl.entry (by omega), hkept, List.getElem?_nil]
      · rw [hl.cell hback (by omega), hkept, List.getElem?_nil]
    · rfl
  · obtain rfl : pos = 1 := by omega
    rcases Nat.eq_zero_or_pos size with hzero | hsize
    · rw [if_neg (by omega), ← hl.entry (by omega), ← hone, hl.size_eq, hl.entries, if_pos hzero]
    · rw [if_pos (by omega), show min 1 size - (1 - 1) - 1 = 0 by omega, hl.cell_zero (hw hsize),
        ← hl.entry (by omega), ← hone, hl.size_eq]

/-- In all other cases some line is lost, or is not where it belongs. -/
theorem sound_of_sethistorysize (hl : Lists h size kept) (hw : 0 < size → h.widx < size)
    (hd : kept.IsChain (· ≠ ·)) {n : Nat} (hn : 0 < n)
    (h' : Lists (h.sethistorysize n) n (kept.take n)) : SoundResize h n := by
  have hone : (h.sethistorysize n).getentry 1 = h.getentry 1 := by
    rw [h'.entry (by omega), hl.entry (by omega), List.getElem?_take_of_lt (by omega)]
  rw [getentry_sethistorysize h (by omega) (by omega), hl.size_eq] at hone
  rcases Nat.lt_or_ge size n with hgrow | hshrink
  · left
    rw [← hone, if_neg (by omega)]
  have holdest : h.getentry size = h.getentry 1 := by
    rw [if_pos (by omega), show min n size - (n - 1) - 1 = 0 by omega,
      hl.cell_zero (hw (by omega))] at hone
    exact hone
  rcases Nat.lt_or_ge 1 n with htwo | hle
  · left
    have hsecond := h'.entry (show 0 < 2 by omega)
    rw [getentry_sethistorysize h (by omega) (by omega), hl.size_eq, if_pos (by omega),
      show min n size - (n - 2) - 1 = 1 by omega, hl.cell (by omega) (by omega),
      List.getElem?_take_of_lt (by omega)] at hsecond
    rw [hl.entry (by omega)]
    cases kept with
    | nil => rfl
    | cons first rest =>
      cases rest with
      | nil => exact absurd hsecond (by simp)
      | cons second rest =>
        have hne := (isChain_cons_cons.mp hd).1
        exact absurd (by simpa using hsecond) hne
  · exact .inr ⟨by omega, by rw [hl.size_eq, holdest]⟩

end Lists

/-! ## Browsing -/

variable {ti : TeelInstance}

theorem statechanged_browse (h : ti.state = .historyBrowse)
    (laststate : TeelState) : ti.statechanged laststate = ti := by
  unfold TeelInstance.statechanged
  split
  · rfl
  · cases laststate with
    | historyBrowse => exact absurd h (by assumption)
    | characterInput | editlineDone | completionDisp => rfl

theorem statechanged_other {laststate : TeelState} (h : laststate ≠ .historyBrowse)
    (ti : TeelInstance) : ti.statechanged laststate = ti := by
  unfold TeelInstance.statechanged
  split
  · rfl
  · cases laststate with
    | historyBrowse => exact absurd rfl h
    | characterInput | editlineDone | completionDisp => rfl

theorem statechanged_reset (h : ti.state ≠ .historyBrowse) :
    ti.statechanged .historyBrowse = { ti with history := ti.history.resetcontext } := if_neg h

theorem state_preventry (ti : TeelInstance) : ti.preventry.state = .historyBrowse := by
  unfold TeelInstance.preventry
  simp only
  split <;> rfl

theorem state_nextentry (ti : TeelInstance) : ti.nextentry.state = .historyBrowse := by
  unfold TeelInstance.nextentry
  simp only
  split
  · rfl
  · rfl
  · split <;> rfl

theorem step_previous (w : World) : step w .previous = { w with ti := w.ti.preventry } := by
  show World.mk (TeelInstance.statechanged _ _) _ _ = _
  rw [statechanged_browse (state_preventry _)]
  rfl

theorem step_next (w : World) : step w .next = { w with ti := w.ti.nextentry } := by
  show World.mk (TeelInstance.statechanged _ _) _ _ = _
  rw [statechanged_browse (state_nextentry _)]
  rfl

/-- The editor `e` is the edited line: it is shown, or it is saved while entries are. -/
def Origin (e : Editor) (ti : TeelInstance) : Prop :=
  (ti.history.idx = 0 ∧ ti.editor = e) ∨
    (0 < ti.history.idx ∧ ti.history.curline = some (getline e.text, e.cursor))

structure Inv (w : World) : Prop where
  lists : Lists w.ti.history w.size w.kept
  written : 0 < w.size → w.ti.history.widx < w.size
  distinct : w.kept.IsChain (· ≠ ·)
  asserted : w.ti.failed = false
  edited : w.ti.state ≠ .historyBrowse → w.ti.history.idx = 0
  browsed : w.ti.history.idx ≤ w.kept.length
  cursor : w.ti.editor.cursor ≤ w.ti.editor.text.length

theorem cursor_seteditcontent (line : Str) :
    (seteditcontent line).cursor ≤ (seteditcontent line).text.length := Nat.le_refl _

theorem cursor_move (e : Editor) (n : Nat) : (e.move n).cursor ≤ (e.move n).text.length :=
  Nat.min_le_right _ _

theorem preventry_none (h : ti.history.getentry (ti.history.idx + 1) = none) :
    ti.preventry = { ti with state := .historyBrowse } := by
  unfold TeelInstance.preventry
  simp only [h]

theorem preventry_some {e : Str}
    (h : ti.history.getentry (ti.history.idx + 1) = some e) :
    ti.preventry =
      { ti with
        state := .historyBrowse
        history := { ti.history with
          curline := if ti.history.idx = 0 then some (getline ti.editor.text, ti.editor.cursor)
            else ti.history.curline
          idx := ti.history.idx + 1 }
        editor := seteditcontent e } := by
  unfold TeelInstance.preventry
  simp only [h, Nat.add_eq_right]

theorem nextentry_zero (h : ti.history.idx = 0) :
    ti.nextentry = { ti with state := .historyBrowse } := by
  unfold TeelInstance.nextentry
  simp only [h]

theorem nextentry_one (h : ti.history.idx = 1) :
    ti.nextentry =
      { ti with
        state := .historyBrowse
        history := { ti.history with curline := none, idx := 0 }
        editor := (seteditcontent (ti.history.curline.getD ([], 0)).1).move
          (ti.history.curline.getD ([], 0)).2 } := by
  unfold TeelInstance.nextentry
  simp only [h]

theorem nextentry_some {pos : Nat} (hpos : 0 < pos)
    (h : ti.history.idx = pos + 1) {e : Str} (he : ti.history.getentry pos = some e) :
    ti.nextentry =
      { ti with
        state := .historyBrowse
        history := { ti.history with idx := pos }
        editor := seteditcontent e } := by
  obtain ⟨k, rfl⟩ : ∃ k, pos = k + 1 := ⟨pos - 1, by omega⟩
  unfold TeelInstance.nextentry
  simp only [h, he]

/-! ## Other changes of the history -/

theorem idx_addhistory (h : History) (line : Str) : (h.addhistory line).idx = h.idx := by
  unfold History.addhistory
  split
  · rfl
  · split <;> rfl

theorem curline_addhistory (h : History) (line : Str) : (h.addhistory line).curline = h.curline := by
  unfold History.addhistory
  split
  · rfl
  · split <;> rfl

theorem widx_addhistory {h : History} (hw : h.widx < size) (hsize : h.size = size)
    (line : Str) : (h.addhistory line).widx < size := by
  unfold History.addhistory
  split
  · exact hw
  · split
    · exact hw
    · rw [hsize]
      exact Ring.next_lt (by omega)

theorem idx_sethistorysize (h : History) {n : Nat} (hn : 0 < n) : (h.sethistorysize n).idx = 0 := by
  rw [History.sethistorysize, if_neg (by omega)]

/-! ## The invariant -/

namespace Inv

variable {w : World}

theorem init : Inv World.init where
  lists := .of_cells rfl (Nat.le_refl _) fun _ hpos hle => absurd hpos (Nat.not_lt.mpr hle)
  written := nofun
  distinct := .nil
  asserted := rfl
  edited _ := rfl
  browsed := Nat.le_refl _
  cursor := Nat.le_refl _

theorem entry (h : Inv w) {pos : Nat} (hpos : 0 < pos) (hle : pos ≤ w.kept.length) :
    ∃ e, w.ti.history.getentry pos = some e :=
  ⟨w.kept[pos - 1], by rw [h.lists.entry hpos, List.getElem?_eq_getElem]⟩

theorem previous (h : Inv w) : Inv (step w .previous) := by
  rw [step_previous]
  cases he : w.ti.history.getentry (w.ti.history.idx + 1) with
  | none =>
    rw [preventry_none he]
    exact ⟨h.lists, h.written, h.distinct, h.asserted, fun hne => absurd rfl hne, h.browsed, h.cursor⟩
  | some e =>
    rw [preventry_some he]
    refine ⟨⟨h.lists.size_eq, h.lists.bounded, h.lists.entries⟩, h.written, h.distinct, h.asserted,
      fun hne => absurd rfl hne, ?_, cursor_seteditcontent e⟩
    rw [h.lists.entry (by omega), Nat.add_sub_cancel] at he
    exact (List.getElem?_eq_some_iff.mp he).1

theorem next (h : Inv w) : Inv (step w .next) := by
  rw [step_next]
  have hbrowsed := h.browsed
  match hidx : w.ti.history.idx with
  | 0 =>
    rw [nextentry_zero hidx]
    exact ⟨h.lists, h.written, h.distinct, h.asserted, fun hne => absurd rfl hne, h.browsed, h.cursor⟩
  | 1 =>
    rw [nextentry_one hidx]
    exact ⟨⟨h.lists.size_eq, h.lists.bounded, h.lists.entries⟩, h.written, h.distinct, h.asserted,
      fun hne => absurd rfl hne, Nat.zero_le _, cursor_move _ _⟩
  | pos + 2 =>
    obtain ⟨e, he⟩ := h.entry (Nat.succ_pos pos) (by omega)
    rw [nextentry_some (by omega) hidx he]
    refine ⟨⟨h.lists.size_eq, h.lists.bounded, h.lists.entries⟩, h.written, h.distinct, h.asserted,
      fun hne => absurd rfl hne, ?_, cursor_seteditcontent e⟩
    show pos + 1 ≤ w.kept.length
    omega

theorem idx_previous (h : Inv w) :
    (step w .previous).ti.history.idx = min (w.ti.history.idx + 1) w.kept.length := by
  have hbrowsed := h.browsed
  rw [step_previous]
  cases he : w.ti.history.getentry (w.ti.history.idx + 1) with
  | none =>
    rw [preventry_none he]
    rw [h.lists.entry (by omega), Nat.add_sub_cancel, List.getElem?_eq_none_iff] at he
    show w.ti.history.idx = _
    omega
  | some e =>
    rw [preventry_some he]
    rw [h.lists.entry (by omega), Nat.add_sub_cancel, List.getElem?_eq_some_iff] at he
    obtain ⟨hlt, -⟩ := he
    show w.ti.history.idx + 1 = _
    omega

theorem idx_next (h : Inv w) : (step w .next).ti.history.idx = w.ti.history.idx - 1 := by
  have hbrowsed := h.browsed
  rw [step_next]
  match hidx : w.ti.history.idx with
  | 0 =>
    rw [nextentry_zero hidx]
    exact hidx
  | 1 =>
    rw [nextentry_one hidx]
  | pos + 2 =>
    obtain ⟨e, he⟩ := h.entry (Nat.succ_pos pos) (by omega)
    rw [nextentry_some (by omega) hidx he]
    rfl

theorem addhistory (h : Inv w) (line : Str) : Inv (step w (.addhistory line)) where
  lists := h.lists.addhistory h.written line
  written hpos := widx_addhistory (h.written hpos) h.lists.size_eq line
  distinct := isChain_addLine h.distinct
  asserted := h.asserted
  edited hstate := (idx_addhistory _ line).trans (h.edited hstate)
  browsed := by
    show (w.ti.history.addhistory line).idx ≤ _
    rw [idx_addhistory]
    exact Nat.le_trans h.browsed (length_le_addLine h.lists.bounded)
  cursor := h.cursor

theorem sethistorysize (h : Inv w) {n : Nat} (hn : 0 < n) (hs : SoundResize w.ti.history n) :
    Inv (step w (.sethistorysize n)) where
  lists := h.lists.sethistorysize h.written hn hs
  written _ := by
    show (w.ti.history.sethistorysize n).widx < n
    rw [History.sethistorysize, if_neg (by omega)]
    exact hn
  distinct := h.distinct.take n
  asserted := h.asserted
  edited _ := idx_sethistorysize _ hn
  browsed := by
    show (w.ti.history.sethistorysize n).idx ≤ _
    rw [idx_sethistorysize _ hn]
    exact Nat.zero_le _
  cursor := h.cursor

theorem edit (h : Inv w) {editor : Editor} {state : TeelState}
    (he : Enabled (.edit editor state)) : Inv (step w (.edit editor state)) := by
  obtain ⟨hcursor, hstate⟩ := he
  have hact : step w (.edit editor state) =
      { w with ti := { w.ti with editor := editor, state := state }.statechanged w.ti.state } := rfl
  by_cases hlast : w.ti.state = .historyBrowse
  · rw [hact, hlast, statechanged_reset hstate]
    exact ⟨⟨h.lists.size_eq, h.lists.bounded, h.lists.entries⟩, h.written, h.distinct, h.asserted,
      fun _ => rfl, Nat.zero_le _, hcursor⟩
  · rw [hact, statechanged_other hlast]
    exact ⟨h.lists, h.written, h.distinct, h.asserted, fun _ => h.edited hlast, h.browsed, hcursor⟩

theorem step {e : Event} (h : Inv w) (he : Enabled e) (hs : Sound w e) : Inv (step w e) := by
  cases e with
  | addhistory line => exact h.addhistory line
  | sethistorysize n => exact h.sethistorysize he hs
  | previous => exact h.previous
  | next => exact h.next
  | edit editor state => exact h.edit he

theorem browse {e : Event} (h : Inv w) (he : Browses e) : Inv (Teel.step w e) := by
  cases e with
  | addhistory line => exact h.addhistory line
  | previous => exact h.previous
  | next => exact h.next
  | sethistorysize _ | edit _ _ => exact he.elim

end Inv

/-! ## The edited line is kept -/

namespace Origin

variable {w : World} {e : Editor}

theorem previous (h : Origin e w.ti) : Origin e (step w .previous).ti := by
  rw [step_previous]
  cases he : w.ti.history.getentry (w.ti.history.idx + 1) with
  | none =>
    rw [preventry_none he]
    exact h
  | some line =>
    rw [preventry_some he]
    refine .inr ⟨Nat.succ_pos _, ?_⟩
    rcases h with ⟨hidx, rfl⟩ | ⟨hidx, hline⟩
    · exact if_pos hidx
    · exact (if_neg (by omega)).trans hline

theorem next (hinv : Inv w) (hcursor : e.cursor ≤ e.text.length) (h : Origin e w.ti) :
    Origin e (step w .next).ti := by
  have hbrowsed := hinv.browsed
  rw [step_next]
  rcases h with ⟨hidx, heditor⟩ | ⟨hidx, hline⟩
  · rw [nextentry_zero hidx]
    exact .inl ⟨hidx, heditor⟩
  match hpos : w.ti.history.idx with
  | 0 => omega
  | 1 =>
    rw [nextentry_one hpos, hline]
    exact .inl ⟨rfl, move_getline hcursor⟩
  | pos + 2 =>
    obtain ⟨line, he⟩ := hinv.entry (Nat.succ_pos pos) (by omega)
    rw [nextentry_some (by omega) hpos he]
    exact .inr ⟨Nat.succ_pos _, hline⟩

theorem addhistory (h : Origin e w.ti) (line : Str) : Origin e (step w (.addhistory line)).ti := by
  have hidx := idx_addhistory w.ti.history line
  have hcurline := curline_addhistory w.ti.history line
  rcases h with ⟨hzero, heditor⟩ | ⟨hpos, hline⟩
  · exact .inl ⟨hidx.trans hzero, heditor⟩
  · exact .inr ⟨by rwa [← hidx] at hpos, hcurline.trans hline⟩

/-- While the history is browsed, whatever entries are shown, the edited line is kept. -/
theorem run {events : List Event} (hinv : Inv w) (hcursor : e.cursor ≤ e.text.length)
    (h : Origin e w.ti) (hb : ∀ event ∈ events, Browses event) :
    Origin e (events.foldl step w).ti := by
  induction events generalizing w with
  | nil => exact h
  | cons event events ih =>
    have hbrowses := hb event (mem_cons_self ..)
    refine ih (hinv.browse hbrowses) ?_ fun other hmem => hb other (mem_cons_of_mem _ hmem)
    cases event with
    | addhistory line => exact h.addhistory line
    | previous => exact h.previous
    | next => exact h.next hinv hcursor
    | sethistorysize _ | edit _ _ => exact hbrowses.elim

theorem editor_eq {ti : TeelInstance} (h : Origin e ti) (hidx : ti.history.idx = 0) : ti.editor = e := by
  rcases h with ⟨-, heditor⟩ | ⟨hpos, -⟩
  · exact heditor
  · omega

end Origin

namespace Inv

variable {w : World}

theorem run {events : List Event} (h : Inv w) (hb : ∀ event ∈ events, Browses event) :
    Inv (events.foldl Teel.step w) := by
  induction events generalizing w with
  | nil => exact h
  | cons event events ih =>
    exact ih (h.browse (hb event (mem_cons_self ..)))
      fun other hmem => hb other (mem_cons_of_mem _ hmem)

theorem idx_up (h : Inv w) (k : Nat) :
    ((List.replicate k Event.previous).foldl Teel.step w).ti.history.idx ≤ w.ti.history.idx + k := by
  induction k generalizing w with
  | zero => exact Nat.le_refl _
  | succ k ih =>
    have hone := h.idx_previous
    have hrest := ih h.previous
    rw [replicate_succ, foldl_cons]
    omega

theorem idx_down (h : Inv w) (k : Nat) :
    ((List.replicate k Event.next).foldl Teel.step w).ti.history.idx = w.ti.history.idx - k := by
  induction k generalizing w with
  | zero => rfl
  | succ k ih =>
    rw [replicate_succ, foldl_cons, ih h.next, h.idx_next]
    omega

theorem correct (h : Inv w) : Correct w where
  lists := h.lists
  asserted := h.asserted
  edited := h.edited
  restored hidx k := by
    have hbrowses : ∀ e ∈ List.replicate k Event.previous ++ List.replicate k Event.next,
        Browses e := by
      intro e he
      rcases mem_append.mp he with hup | hdown
      · rw [eq_of_mem_replicate hup]
        trivial
      · rw [eq_of_mem_replicate hdown]
        trivial
    have hup := h.idx_up k
    have hinv : Inv ((List.replicate k Event.previous).foldl Teel.step w) :=
      h.run fun e he => hbrowses e (mem_append_left _ he)
    refine (Origin.run h h.cursor (.inl ⟨hidx, rfl⟩) hbrowses).editor_eq ?_
    rw [foldl_append, hinv.idx_down]
    omega
  back hidx events hb hback := (Origin.run h h.cursor (.inl ⟨hidx, rfl⟩) hb).editor_eq hback

end Inv

/-! ## Every run -/

/-- The history is the bounded list of the lines added, in every run whose changes of size are sound;
and a change of size keeps the last lines in no other case. -/
theorem history_bounded {w : World}
    (h : Runs step (fun w e => Enabled e ∧ Sound w e) World.init w) :
    Correct w ∧ ∀ n, 0 < n →
      (Lists (w.ti.history.sethistorysize n) n (w.kept.take n) ↔ SoundResize w.ti.history n) := by
  have hinv : Inv w := h.invariant (fun _ _ he hi => hi.step he.1 he.2) .init
  exact ⟨hinv.correct, fun n hn =>
    ⟨hinv.lists.sound_of_sethistorysize hinv.written hinv.distinct hn,
      hinv.lists.sethistorysize hinv.written hn⟩⟩

theorem history_bounded_two : Correct
    ([.sethistorysize 2, .addhistory ['a'], .addhistory ['b'], .addhistory ['b'], .addhistory ['c'],
      .edit ⟨[.char 'x' (by decide), .lineBreak], 1⟩ .characterInput,
      .previous, .previous, .next].foldl step World.init) :=
  (history_bounded (Along.runs (by decide))).1

/-- A line is added to a history of two lines, which then is set to three. -/
theorem grown_history_lost :
    let w := [Event.sethistorysize 2, .addhistory ['a'], .sethistorysize 3].foldl step World.init
    (∀ e ∈ [Event.sethistorysize 2, .addhistory ['a'], .sethistorysize 3], Enabled e) ∧
      w.kept = [['a']] ∧ w.ti.history.getentry 1 = none := by
  decide

end Mihini.Teel
