import Mathlib.Data.List.Rotate

/-!
# Rings seen from a place

A ring kept in a list, seen as the list rotated to some place: blocks are read and written
there at the front, in two pieces where they go over the end of the list.
-/

namespace Mihini.Lib.Rotation

open List

variable {α : Type}

def put (l : List α) (p : Nat) (x : List α) : List α := l.take p ++ x ++ l.drop (p + x.length)

variable {l x y a b : List α} {p n : Nat}

theorem length_put (h : p + x.length ≤ l.length) : (put l p x).length = l.length := by
  rw [put, length_append, length_append, length_take, length_drop]
  omega

theorem getElem?_front {k : Nat} (hk : k < l.length) :
    l[(p + k) % l.length]? = (l.rotate p)[k]? := by
  have hk' : k < (l.rotate p).length := by rwa [length_rotate]
  rw [List.getElem?_eq_getElem hk', getElem_rotate,
    List.getElem?_eq_getElem (Nat.mod_lt _ (by omega))]
  simp only [Nat.add_comm]

theorem take_drop_eq (h : l.rotate p = x ++ y) (hp : p + x.length ≤ l.length) :
    (l.drop p).take x.length = x := by
  rw [rotate_eq_drop_append_take (by omega)] at h
  have hlen : x.length ≤ (l.drop p).length := by
    rw [length_drop]
    omega
  have htake := congrArg (List.take x.length) h
  rwa [take_append_of_le_length hlen, take_left] at htake

theorem drop_append_take_eq (h : l.rotate p = x ++ y) (hp : p ≤ l.length)
    (hle : l.length ≤ p + x.length) :
    l.drop p ++ l.take (p + x.length - l.length) = x := by
  have hxy := congrArg List.length h
  rw [length_rotate, length_append] at hxy
  rw [rotate_eq_drop_append_take hp] at h
  have htake := congrArg (List.take x.length) h
  have hdrop : (l.drop p).length ≤ x.length := by
    rw [length_drop]
    omega
  rw [take_left, take_append, take_of_length_le hdrop, take_take,
    length_drop] at htake
  rwa [show min (x.length - (l.length - p)) p = p + x.length - l.length by omega] at htake

theorem rotate_congr {q : Nat} (h : p % l.length = q % l.length) : l.rotate p = l.rotate q := by
  rw [← rotate_mod l p, h, rotate_mod]

theorem rotate_behind (h : l.rotate p = a ++ b) : l.rotate (p + a.length) = b ++ a := by
  rw [← rotate_rotate, h, rotate_append_length_eq]

theorem put_put (h : p + x.length + y.length ≤ l.length) :
    put (put l p x) (p + x.length) y = put l p (x ++ y) := by
  have hbefore : (l.take p ++ x).length = p + x.length := by
    rw [length_append, length_take]
    omega
  rw [put, put, put, take_left' hbefore, ← hbefore, append_assoc (l.take p ++ x),
    drop_length_add_append, drop_drop, hbefore, length_append, Nat.add_assoc]
  simp only [append_assoc]

theorem rotate_put (hp : p + x.length ≤ l.length) :
    (put l p x).rotate p = x ++ (l.rotate p).drop x.length := by
  have htake : (l.take p).length = p := by
    rw [length_take]
    omega
  rw [rotate_eq_drop_append_take (by omega : p ≤ l.length), put, append_assoc]
  have hfront := rotate_append_length_eq (l.take p) (x ++ l.drop (p + x.length))
  rw [htake] at hfront
  rw [hfront, append_assoc, drop_append_of_le_length, drop_drop]
  rw [length_drop]
  omega

theorem rotate_put_put (hp : p + x.length = l.length) (hy : y.length ≤ p) :
    (put (put l p x) 0 y).rotate p = x ++ y ++ (l.rotate p).drop (x.length + y.length) := by
  have hlen : (put l p x).length = l.length := length_put (by omega)
  have hput : put l p x = l.take p ++ x := by
    rw [put, hp, drop_length, append_nil]
  have hsplit : put (put l p x) 0 y = y ++ (l.take p).drop y.length ++ x := by
    rw [put, take_zero, nil_append, Nat.zero_add, hput, drop_append_of_le_length]
    · rw [append_assoc]
    · rw [length_take]
      omega
  have hbefore : (y ++ (l.take p).drop y.length).length = p := by
    rw [length_append, length_drop, length_take]
    omega
  have hfront := rotate_append_length_eq (y ++ (l.take p).drop y.length) x
  rw [hbefore, ← hsplit] at hfront
  have hrest : ((l.drop p) ++ l.take p).drop (x.length + y.length) = (l.take p).drop y.length := by
    have hdrop : (l.drop p).length = x.length := by
      rw [length_drop]
      omega
    rw [← hdrop, drop_length_add_append]
  rw [hfront, rotate_eq_drop_append_take (by omega), hrest, append_assoc]

end Mihini.Lib.Rotation
