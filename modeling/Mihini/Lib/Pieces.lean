import Mathlib.Data.Multiset.Filter
import Mathlib.Data.Multiset.MapFold
import Mathlib.Data.Multiset.AddSub

/-!
# Messages put on a stream in pieces

Several writers put one message each on a common stream, piece by piece.  The stream is a
sequence of whole messages, up to the one being written, as long as no piece follows a
piece of another message that is not complete.
-/

namespace Mihini.Lib

open List

structure Fragment (β : Type) where
  message : β
  sent : Nat
  deriving DecidableEq

def Fragment.Begun {β : Type} (p : Fragment β) : Prop := 0 < p.sent

instance {β : Type} (p : Fragment β) : Decidable p.Begun := inferInstanceAs (Decidable (0 < p.sent))

structure Pieces (β α : Type) where
  out : List α
  begun : List β
  parts : Multiset (Fragment β)

variable {β α : Type} (items : β → List α)

namespace Fragment

def rest (p : Fragment β) : List α := (items p.message).drop p.sent

/-- What is left of the part after its next `n` items: nothing when it is complete. -/
def advance (p : Fragment β) (n : Nat) : Multiset (Fragment β) :=
  if p.sent + n < (items p.message).length then {⟨p.message, p.sent + n⟩} else 0

end Fragment

namespace Pieces

def start (s : Pieces β α) (message : β) : Pieces β α :=
  { s with parts := ⟨message, 0⟩ ::ₘ s.parts }

/-- The writer of a part puts its next `n` items. -/
def put [DecidableEq β] (s : Pieces β α) (p : Fragment β) (n : Nat) : Pieces β α where
  out := s.out ++ (p.rest items).take n
  begun := if p.sent = 0 ∧ 0 < n then s.begun ++ [p.message] else s.begun
  parts := p.advance items n + s.parts.erase p

def Whole (s : Pieces β α) : Prop :=
  (s.parts.filter Fragment.Begun = 0 ∧ s.out = s.begun.flatMap items) ∨
    ∃ p, s.parts.filter Fragment.Begun = {p} ∧ s.out ++ p.rest items = s.begun.flatMap items

/-- Nobody but `p` has put a piece of its message only. -/
def Alone [DecidableEq β] (s : Pieces β α) (p : Fragment β) : Prop :=
  ∀ q ∈ s.parts.erase p, q.sent = 0

def messages (s : Pieces β α) : Multiset β :=
  (s.begun : Multiset β) + (s.parts.filter (·.sent = 0)).map Fragment.message

variable {items} {s : Pieces β α} {p : Fragment β} {n : Nat}

theorem Whole.initial (h : s.Whole items) : s.out <+: s.begun.flatMap items := by
  rcases h with ⟨-, h⟩ | ⟨p, -, h⟩
  · exact ⟨[], by rw [append_nil, h]⟩
  · exact ⟨p.rest items, h⟩

theorem Whole.complete (h : s.Whole items) (hparts : s.parts = 0) :
    s.out = s.begun.flatMap items := by
  rcases h with ⟨-, h⟩ | ⟨p, hp, -⟩
  · exact h
  · rw [hparts, Multiset.filter_zero] at hp
    exact absurd hp.symm (Multiset.singleton_ne_zero p)

theorem Whole.start (h : s.Whole items) (message : β) : (s.start message).Whole items := by
  have hfilter : (s.start message).parts.filter Fragment.Begun = s.parts.filter Fragment.Begun :=
    Multiset.filter_cons_of_neg _ (Nat.lt_irrefl 0)
  rcases h with ⟨hnone, hout⟩ | ⟨p, hone, hout⟩
  · exact .inl ⟨hfilter.trans hnone, hout⟩
  · exact .inr ⟨p, hfilter.trans hone, hout⟩

theorem messages_start (s : Pieces β α) (message : β) :
    (s.start message).messages = message ::ₘ s.messages := by
  show (s.begun : Multiset β) + ((⟨message, 0⟩ ::ₘ s.parts).filter _).map _ = _
  rw [Multiset.filter_cons_of_pos (p := fun q : Fragment β => q.sent = 0) _ rfl,
    Multiset.map_cons, Multiset.add_cons]
  rfl

theorem filter_advance (hn : 0 < n) :
    (p.advance items n).filter Fragment.Begun = p.advance items n := by
  rw [Fragment.advance]
  split
  · exact Multiset.filter_eq_self.mpr fun q hq => by
      rw [Multiset.mem_singleton.mp hq]
      exact Nat.add_pos_right p.sent hn
  · rfl

variable [DecidableEq β]

theorem filter_parts (hp : p ∈ s.parts) :
    s.parts.filter Fragment.Begun =
      (if 0 < p.sent then {p} else 0) + (s.parts.erase p).filter Fragment.Begun := by
  conv_lhs => rw [← Multiset.cons_erase hp]
  by_cases hbegun : 0 < p.sent
  · rw [if_pos hbegun, Multiset.filter_cons_of_pos (p := Fragment.Begun) _ hbegun,
      Multiset.singleton_add]
  · rw [if_neg hbegun, Multiset.filter_cons_of_neg (p := Fragment.Begun) _ hbegun,
      Multiset.zero_add]

theorem Alone.filter (h : s.Alone p) : (s.parts.erase p).filter Fragment.Begun = 0 := by
  rw [Multiset.filter_eq_nil]
  intro q hq hbegun
  exact absurd hbegun (by rw [Fragment.Begun, h q hq]; exact Nat.lt_irrefl 0)

/-- What is on the stream when the only writer that has begun goes on. -/
theorem Whole.out_of_alone (h : s.Whole items) (hp : p ∈ s.parts) (halone : s.Alone p) :
    s.out ++ (if 0 < p.sent then p.rest items else []) = s.begun.flatMap items := by
  have hfilter := filter_parts hp
  rw [halone.filter, Multiset.add_zero] at hfilter
  rcases h with ⟨hnone, hout⟩ | ⟨q, hone, hout⟩
  · rw [hnone] at hfilter
    by_cases hbegun : 0 < p.sent
    · rw [if_pos hbegun] at hfilter
      exact absurd hfilter.symm (Multiset.singleton_ne_zero p)
    · rw [if_neg hbegun, append_nil, hout]
  · rw [hone] at hfilter
    by_cases hbegun : 0 < p.sent
    · rw [if_pos hbegun] at hfilter ⊢
      rw [← Multiset.singleton_inj.mp hfilter, hout]
    · rw [if_neg hbegun] at hfilter
      exact absurd hfilter (Multiset.singleton_ne_zero q)

theorem put_zero (hp : p ∈ s.parts) (hlt : p.sent < (items p.message).length) :
    s.put items p 0 = s := by
  have hadvance : p.advance items 0 = {p} := if_pos hlt
  rw [put, hadvance, Multiset.singleton_add, Multiset.cons_erase hp, take_zero,
    append_nil, if_neg (fun h => Nat.lt_irrefl 0 h.2)]

/-- A piece put by the only writer that has begun leaves whole messages. -/
theorem Whole.put (h : s.Whole items) (hp : p ∈ s.parts) (hn : 0 < n) (halone : s.Alone p) :
    (s.put items p n).Whole items := by
  have hout := h.out_of_alone hp halone
  have hfilter : (s.put items p n).parts.filter Fragment.Begun = p.advance items n := by
    show (p.advance items n + s.parts.erase p).filter _ = _
    rw [Multiset.filter_add, filter_advance hn, halone.filter, Multiset.add_zero]
  have hrest : s.out ++ p.rest items = (s.put items p n).begun.flatMap items := by
    show _ = (if p.sent = 0 ∧ 0 < n then s.begun ++ [p.message] else s.begun).flatMap items
    by_cases hbegun : 0 < p.sent
    · rw [if_pos hbegun] at hout
      rw [if_neg (by omega), hout]
    · have hzero : p.sent = 0 := by omega
      rw [if_neg hbegun, append_nil] at hout
      rw [if_pos ⟨hzero, hn⟩, flatMap_append, ← hout, Fragment.rest, hzero]
      simp
  by_cases hlt : p.sent + n < (items p.message).length
  · right
    refine ⟨⟨p.message, p.sent + n⟩, by rw [hfilter, Fragment.advance, if_pos hlt], ?_⟩
    rw [← hrest]
    show (s.out ++ (p.rest items).take n) ++ (items p.message).drop (p.sent + n) =
      s.out ++ p.rest items
    rw [append_assoc, ← drop_drop]
    exact congrArg _ (take_append_drop n (p.rest items))
  · left
    refine ⟨by rw [hfilter, Fragment.advance, if_neg hlt], ?_⟩
    rw [← hrest]
    show s.out ++ (p.rest items).take n = s.out ++ p.rest items
    rw [take_of_length_le]
    rw [Fragment.rest, length_drop]
    omega

theorem messages_put (hp : p ∈ s.parts) (hlt : p.sent < (items p.message).length) :
    (s.put items p n).messages = s.messages := by
  by_cases hn : n = 0
  · rw [hn, put_zero hp hlt]
  have hpos : 0 < n := Nat.pos_of_ne_zero hn
  have hadvance : (p.advance items n).filter (·.sent = 0) = 0 := by
    rw [Multiset.filter_eq_nil]
    intro q hq
    rw [← filter_advance hpos] at hq
    have hbegun : q.Begun := Multiset.of_mem_filter (p := Fragment.Begun) hq
    exact Nat.ne_of_gt hbegun
  show ((if p.sent = 0 ∧ 0 < n then s.begun ++ [p.message] else s.begun : List β) :
    Multiset β) + ((p.advance items n + s.parts.erase p).filter _).map _ = _
  rw [Multiset.filter_add, hadvance, Multiset.zero_add, messages]
  conv_rhs => rw [← Multiset.cons_erase hp]
  by_cases hbegun : p.sent = 0
  · rw [if_pos ⟨hbegun, hpos⟩,
      Multiset.filter_cons_of_pos (p := fun q : Fragment β => q.sent = 0) _ hbegun,
      Multiset.map_cons, ← Multiset.coe_add, Multiset.coe_singleton, Multiset.add_assoc,
      Multiset.singleton_add]
  · rw [if_neg (fun h => hbegun h.1),
      Multiset.filter_cons_of_neg (p := fun q : Fragment β => q.sent = 0) _ hbegun]

end Pieces

end Mihini.Lib
