import Mathlib.Data.List.Basic

/-!
# Streams that come in pieces

A read from a stream returns at most what is there of one piece, and nothing at the end of the stream
only.  Chunks are taken when each of them comes whole in one read.
-/

namespace Mihini.Lib

open List

variable {α : Type}

def recv (n : Nat) : List (List α) → List α × List (List α)
  | [] => ([], [])
  | [] :: ps => recv n ps
  | (a :: p) :: ps => ((a :: p).take n, (a :: p).drop n :: ps)

theorem recv_append_flatten (n : Nat) (ps : List (List α)) :
    (recv n ps).1 ++ (recv n ps).2.flatten = ps.flatten := by
  induction ps with
  | nil => rfl
  | cons p ps ih =>
    cases p with
    | nil => exact ih
    | cons a p =>
      show (a :: p).take n ++ ((a :: p).drop n :: ps).flatten = _
      rw [flatten_cons, ← append_assoc, take_append_drop, flatten_cons]

theorem length_recv_le (n : Nat) (ps : List (List α)) : (recv n ps).1.length ≤ n := by
  induction ps with
  | nil => exact Nat.zero_le n
  | cons p ps ih =>
    cases p with
    | nil => exact ih
    | cons a p => exact length_take_le n _

/-- Nothing is read at the end of the stream only. -/
theorem flatten_eq_nil_of_recv {n : Nat} {ps : List (List α)} (hn : n ≠ 0)
    (h : (recv n ps).1 = []) : ps.flatten = [] := by
  induction ps with
  | nil => rfl
  | cons p ps ih =>
    cases p with
    | nil => exact ih h
    | cons a p =>
      rcases take_eq_nil_iff.mp h with hzero | hnil
      · exact absurd hzero hn
      · cases hnil

theorem recv_of_flatten_eq_nil {n : Nat} {ps : List (List α)} (h : ps.flatten = []) :
    (recv n ps).1 = [] := by
  have happend := recv_append_flatten n ps
  rw [h] at happend
  exact (append_eq_nil_iff.mp happend).1

theorem length_recv_add (n : Nat) (ps : List (List α)) :
    (recv n ps).1.length + (recv n ps).2.flatten.length = ps.flatten.length := by
  rw [← length_append, recv_append_flatten]

def takes [DecidableEq α] : List (List α) → List (List α) → Option (List (List α))
  | [], ps => some ps
  | c :: cs, ps => if (recv c.length ps).1 = c then takes cs (recv c.length ps).2 else none

section

variable [DecidableEq α]

theorem takes_cons {c : List α} {cs ps rest : List (List α)} :
    takes (c :: cs) ps = some rest ↔
      (recv c.length ps).1 = c ∧ takes cs (recv c.length ps).2 = some rest := by
  rw [takes]
  by_cases h : (recv c.length ps).1 = c
  · rw [if_pos h]
    exact ⟨fun htakes => ⟨h, htakes⟩, And.right⟩
  · rw [if_neg h]
    exact ⟨nofun, fun hboth => absurd hboth.1 h⟩

theorem takes_append (cs ds ps : List (List α)) :
    takes (cs ++ ds) ps = (takes cs ps).bind (takes ds) := by
  induction cs generalizing ps with
  | nil => rfl
  | cons c cs ih =>
    rw [cons_append, takes, takes]
    by_cases h : (recv c.length ps).1 = c
    · rw [if_pos h, if_pos h, ih]
    · rw [if_neg h, if_neg h]
      rfl

theorem flatten_of_takes {cs ps rest : List (List α)} (h : takes cs ps = some rest) :
    cs.flatten ++ rest.flatten = ps.flatten := by
  induction cs generalizing ps with
  | nil =>
    obtain rfl := Option.some.inj h
    rfl
  | cons c cs ih =>
    obtain ⟨hc, hcs⟩ := takes_cons.mp h
    have happend := recv_append_flatten c.length ps
    rw [hc, ← ih hcs] at happend
    rw [flatten_cons, append_assoc]
    exact happend

end

end Mihini.Lib
