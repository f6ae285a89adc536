import Mihini.Log.Queue

/-!
# The ring holds the queue

What the loops and the writes of `log_store.c` do to a ring whose bytes, seen from the oldest
entry, are the entries of a queue and then free space.
-/

namespace Mihini.Log

open Lib List

def sizeBytes (n : Nat) : Str := [UInt8.ofNat n, UInt8.ofNat (n / 256)]

def encode (e : Str) : Str := sizeBytes e.length ++ e

def encodeAll (es : List Str) : Str := es.flatMap encode

theorem length_encode (e : Str) : (encode e).length = weight e := by
  rw [encode, length_append, weight, Nat.add_comm]
  rfl

theorem length_encodeAll (es : List Str) : (encodeAll es).length = total es := by
  induction es with
  | nil => rfl
  | cons e es ih =>
    rw [encodeAll, flatMap_cons, length_append, length_encode, total_cons, ← ih]
    rfl

theorem encodeAll_cons (e : Str) (es : List Str) :
    encodeAll (e :: es) = encode e ++ encodeAll es := by
  rw [encodeAll, flatMap_cons]
  rfl

theorem encodeAll_append (es es' : List Str) :
    encodeAll (es ++ es') = encodeAll es ++ encodeAll es' := by
  rw [encodeAll, flatMap_append]
  rfl

theorem encodeAll_singleton (e : Str) : encodeAll [e] = encode e := by
  rw [encodeAll_cons]
  exact append_nil _

/-- The ring from `first` on holds the queue, and the next entry is to be written behind it. -/
structure Holds (r : Ram) (q : List Str) : Prop where
  ring : ∃ free, r.buf.rotate r.first = encodeAll q ++ free
  first : r.first < r.buf.length
  current : r.current = (r.first + total q) % r.buf.length

variable {q : List Str} {r : Ram}

/-! ## Reading an entry -/

section Reading

variable {buf e rest : Str} {p : Nat}

theorem length_of_ring (hring : buf.rotate p = encode e ++ rest) :
    buf.length = weight e + rest.length := by
  have hlength := congrArg List.length hring
  rwa [length_rotate, length_append, length_encode] at hlength

theorem byteAt_front {x : UInt8} {a b : Str} {k : Nat} (hring : buf.rotate p = a ++ x :: b)
    (hk : a.length = k) : byteAt buf ((p + k) % buf.length) = .ok x := by
  have hlength := congrArg List.length hring
  rw [length_rotate, length_append, length_cons] at hlength
  rw [byteAt, Rotation.getElem?_front (by omega), hring, ← hk, List.getElem?_append_right (by omega),
    Nat.sub_self, List.getElem?_cons_zero]

theorem readnextsize_eq (hring : buf.rotate p = encode e ++ rest) (hp : p < buf.length)
    (hsize : buf.length < 65536) :
    readnextsize buf p = .ok (e.length, (p + 2) % buf.length) := by
  have hlength := length_of_ring hring
  have hlo : byteAt buf p = .ok (UInt8.ofNat e.length) := by
    have h := byteAt_front (a := []) (k := 0) hring rfl
    rwa [Nat.add_zero, Nat.mod_eq_of_lt hp] at h
  have hhi : byteAt buf ((p + 1) % buf.length) = .ok (UInt8.ofNat (e.length / 256)) :=
    byteAt_front (a := [UInt8.ofNat e.length]) hring rfl
  have hvalue : (UInt8.ofNat e.length).toNat + (UInt8.ofNat (e.length / 256)).toNat * 256 =
      e.length := by
    rw [UInt8.toNat_ofNat', UInt8.toNat_ofNat']
    rw [weight] at hlength
    omega
  rw [readnextsize, hlo, hhi]
  show Except.ok _ = _
  rw [hvalue]

theorem text_ring (hring : buf.rotate p = encode e ++ rest) :
    buf.rotate ((p + 2) % buf.length) = e ++ (rest ++ sizeBytes e.length) := by
  rw [rotate_mod]
  rw [encode, append_assoc] at hring
  have hbehind := Rotation.rotate_behind hring
  rwa [append_assoc] at hbehind

/-- One turn of the loop adds the text of an entry and goes to the next one. -/
theorem getLoop_turn {r : Ram} {fuel : Nat} {lbuf : Str}
    (hring : r.buf.rotate p = encode e ++ rest) (hp : p < r.buf.length)
    (hsize : r.buf.length < 65536) (hne : e ≠ []) (hcurrent : p ≠ r.current) :
    getLoop r (fuel + 1) p lbuf =
      getLoop r fuel ((p + weight e) % r.buf.length) (lbuf ++ e) := by
  have hlength := length_of_ring hring
  have hpos : 0 < e.length := length_pos_iff.mpr hne
  have htext := text_ring hring
  rw [weight] at hlength
  have hlt : (p + 2) % r.buf.length < r.buf.length := Nat.mod_lt _ (by omega)
  have hnext : ((p + 2) % r.buf.length + e.length) % r.buf.length =
      (p + weight e) % r.buf.length := by
    rw [Nat.mod_add_mod, weight, Nat.add_assoc, Nat.add_comm 2]
  rw [getLoop, if_neg hcurrent, getnextcopyindexes, readnextsize_eq hring hp hsize]
  simp only [bind, Except.bind, pure, Except.pure]
  generalize (p + 2) % r.buf.length = i at hlt hnext htext
  by_cases hend : i + e.length > r.buf.length - 1
  · -- the text reaches the end of the buffer: two blocks
    have htwo := Rotation.drop_append_take_eq htext (by omega) (by omega)
    have hfirst : copyOut r.buf (i, r.buf.length - i) = .ok (r.buf.drop i) := by
      rw [copyOut, if_pos (by simp only; omega), take_of_length_le]
      rw [length_drop]
    have hsecond : copyOut r.buf (0, e.length - (r.buf.length - i)) =
        .ok (r.buf.take (i + e.length - r.buf.length)) := by
      rw [copyOut, if_pos (by simp only; omega), drop_zero]
      exact congrArg (fun n => Except.ok (r.buf.take n)) (by simp only; omega)
    have hwrap : (i + e.length) % r.buf.length = e.length - (r.buf.length - i) := by
      rw [Nat.mod_eq_sub_mod (by omega), Nat.mod_eq_of_lt (by omega)]
      omega
    rw [if_pos hend]
    simp only [hfirst, hsecond, Nat.zero_add]
    rw [if_neg (by omega), append_assoc, htwo, ← hnext, hwrap]
  · have hone := Rotation.take_drop_eq htext (by omega)
    have hblock : copyOut r.buf (i, e.length) = .ok e := by
      rw [copyOut, if_pos (by simp only; omega)]
      exact congrArg Except.ok hone
    rw [if_neg hend]
    simp only [hblock]
    rw [if_neg (by omega), ← hnext, Nat.mod_eq_of_lt (by omega)]

end Reading

/-- The loop reads the whole queue, the ring not being full. -/
theorem getLoop_eq (hsize : r.buf.length < 65536) {free : Str} {p fuel : Nat}
    {lbuf : Str} (hring : r.buf.rotate p = encodeAll q ++ free) (hp : p < r.buf.length)
    (hcurrent : r.current = (p + total q) % r.buf.length) (hroom : total q < r.buf.length)
    (hne : ∀ e ∈ q, e ≠ []) (hfuel : q.length ≤ fuel) :
    getLoop r fuel p lbuf = .ok (lbuf ++ q.flatten) := by
  induction q generalizing p fuel lbuf free with
  | nil =>
    have hend : p = r.current := by
      rw [hcurrent]
      exact (Nat.mod_eq_of_lt hp).symm
    rw [flatten_nil, append_nil]
    cases fuel <;> rw [getLoop, if_pos hend]
  | cons e q ih =>
    rw [encodeAll_cons, append_assoc] at hring
    rw [total_cons] at hcurrent hroom
    obtain ⟨fuel, rfl⟩ : ∃ n, fuel = n + 1 := ⟨fuel - 1, by rw [length_cons] at hfuel; omega⟩
    have hweight : 2 ≤ weight e := Nat.le_add_left 2 _
    have hgo : p ≠ r.current := by
      rw [hcurrent]
      rcases Nat.lt_or_ge (p + (weight e + total q)) r.buf.length with h | h
      · rw [Nat.mod_eq_of_lt h]
        omega
      · rw [Nat.mod_eq_sub_mod h, Nat.mod_eq_of_lt (by omega)]
        omega
    have hnext := Rotation.rotate_behind hring
    rw [length_encode, ← rotate_mod, append_assoc] at hnext
    rw [getLoop_turn hring hp hsize (hne e mem_cons_self) hgo,
      ih hnext (Nat.mod_lt _ (by omega)) ?_ (by omega)
        (fun e' he' => hne e' (mem_cons_of_mem e he')) (by rw [length_cons] at hfuel; omega),
      flatten_cons, append_assoc]
    rw [hcurrent, Nat.mod_add_mod, Nat.add_assoc]

/-! ## Making room -/

/-- The loop that frees space drops the oldest entries until the new one fits. -/
theorem freeLoop_eq {buf : Str} (hsize : buf.length < 65536) {free : Str} {p fuel w : Nat}
    (hring : buf.rotate p = encodeAll q ++ free) (hp : p < buf.length) (hw : w ≤ buf.length)
    (hfuel : total q + w - buf.length ≤ fuel) :
    ∃ first free', freeLoop buf fuel p ((total q + w : Nat) - (buf.length : Int)) = .ok first ∧
      first < buf.length ∧ buf.rotate first = encodeAll (kept (buf.length - w) q) ++ free' ∧
      (first + total (kept (buf.length - w) q)) % buf.length = (p + total q) % buf.length := by
  induction q generalizing p fuel free with
  | nil =>
    refine ⟨p, free, ?_, hp, hring, rfl⟩
    have hdone : ¬ ((total [] + w : Nat) - (buf.length : Int)) > 0 := by
      rw [show total [] = 0 from rfl]
      omega
    cases fuel <;> rw [freeLoop, if_neg hdone]
  | cons e q ih =>
    by_cases hfits : total (e :: q) + w ≤ buf.length
    · rw [kept_of_le (show total (e :: q) ≤ buf.length - w by omega)]
      refine ⟨p, free, ?_, hp, hring, rfl⟩
      have hdone : ¬ ((total (e :: q) + w : Nat) - (buf.length : Int)) > 0 := by omega
      cases fuel <;> rw [freeLoop, if_neg hdone]
    · rw [encodeAll_cons, append_assoc] at hring
      rw [kept, if_neg (show ¬ total (e :: q) ≤ buf.length - w by omega)]
      rw [total_cons] at hfits hfuel ⊢
      have hweight : 2 ≤ weight e := Nat.le_add_left 2 _
      obtain ⟨fuel, rfl⟩ : ∃ n, fuel = n + 1 := ⟨fuel - 1, by omega⟩
      have hnext := Rotation.rotate_behind hring
      rw [length_encode, ← rotate_mod, append_assoc] at hnext
      have hfuel' : total q + w - buf.length ≤ fuel := by omega
      obtain ⟨first, free', hloop, hfirst, hring', hend⟩ :=
        ih hnext (Nat.mod_lt _ (by omega)) hfuel'
      refine ⟨first, free', ?_, hfirst, hring', ?_⟩
      · have hplace : ((p + 2) % buf.length + e.length) % buf.length =
            (p + weight e) % buf.length := by
          rw [Nat.mod_add_mod, weight, Nat.add_assoc, Nat.add_comm 2]
        have hspace : ((weight e + total q + w : Nat) : Int) - (buf.length : Int) -
            (2 + (e.length : Int)) = ((total q + w : Nat) : Int) - (buf.length : Int) := by
          rw [weight]
          omega
        rw [freeLoop, if_pos (by omega), readnextsize_eq hring hp hsize]
        simp only [bind, Except.bind]
        rw [hplace, hspace, hloop]
      · rw [hend, Nat.mod_add_mod, Nat.add_assoc]

/-! ## Writing an entry -/

theorem copyIn_eq {buf x : Str} {i : Nat} (h : i + x.length ≤ buf.length) :
    copyIn buf i x = .ok (Rotation.put buf i x) := by
  rw [copyIn, if_pos h]

theorem writesize_eq {n : Nat} (hcurrent : r.current < r.buf.length)
    (hroom : 2 ≤ r.buf.length) :
    ∃ buf, writesize r n = .ok { r with buf, current := (r.current + 2) % r.buf.length } ∧
      buf.length = r.buf.length ∧
      buf.rotate r.current = sizeBytes n ++ (r.buf.rotate r.current).drop 2 := by
  have hlo : copyIn r.buf r.current [UInt8.ofNat n] =
      .ok (Rotation.put r.buf r.current [UInt8.ofNat n]) := copyIn_eq hcurrent
  have hlength : (Rotation.put r.buf r.current [UInt8.ofNat n]).length = r.buf.length :=
    Rotation.length_put hcurrent
  have hnext : (r.current + 1) % r.buf.length < r.buf.length := Nat.mod_lt _ (by omega)
  have hhi : copyIn (Rotation.put r.buf r.current [UInt8.ofNat n])
      ((r.current + 1) % r.buf.length) [UInt8.ofNat (n / 256)] =
      .ok (Rotation.put (Rotation.put r.buf r.current [UInt8.ofNat n])
        ((r.current + 1) % r.buf.length) [UInt8.ofNat (n / 256)]) :=
    copyIn_eq (by rw [hlength]; exact hnext)
  refine ⟨_, by rw [writesize, hlo]; simp only [bind, Except.bind, hhi]; rfl, ?_, ?_⟩
  · rw [Rotation.length_put (by rw [hlength]; exact hnext), hlength]
  · rcases Nat.lt_or_ge (r.current + 1) r.buf.length with h | h
    · rw [Nat.mod_eq_of_lt h]
      have hboth := Rotation.put_put (l := r.buf) (p := r.current) (x := [UInt8.ofNat n])
        (y := [UInt8.ofNat (n / 256)]) h
      have hrotate := Rotation.rotate_put (l := r.buf) (p := r.current) (x := sizeBytes n) h
      exact (congrArg (fun buf => List.rotate buf r.current) hboth).trans hrotate
    · -- the second byte is the first one of the buffer
      have hend : r.current + 1 = r.buf.length := by omega
      rw [hend, Nat.mod_self]
      exact Rotation.rotate_put_put (x := [UInt8.ofNat n]) (y := [UInt8.ofNat (n / 256)]) hend
        (by simp only [length_singleton]; omega)

theorem writelog_eq {s : Str} (hcurrent : r.current < r.buf.length)
    (hroom : s.length < r.buf.length) (hend : (r.current + s.length) % r.buf.length ≠ 0) :
    ∃ buf, writelog r s = .ok { r with buf, current := (r.current + s.length) % r.buf.length } ∧
      buf.length = r.buf.length ∧
      buf.rotate r.current = s ++ (r.buf.rotate r.current).drop s.length := by
  by_cases hover : r.current + s.length > r.buf.length
  · -- two blocks
    have htake : (s.take (r.buf.length - r.current)).length = r.buf.length - r.current := by
      rw [length_take]
      omega
    have hdrop : (s.drop (r.buf.length - r.current)).length =
        s.length - (r.buf.length - r.current) := length_drop
    have hfirst : copyIn r.buf r.current (s.take (r.buf.length - r.current)) =
        .ok (Rotation.put r.buf r.current (s.take (r.buf.length - r.current))) :=
      copyIn_eq (by rw [htake]; omega)
    have hlength : (Rotation.put r.buf r.current (s.take (r.buf.length - r.current))).length =
        r.buf.length := Rotation.length_put (by rw [htake]; omega)
    have hsecond : copyIn (Rotation.put r.buf r.current (s.take (r.buf.length - r.current))) 0
        (s.drop (r.buf.length - r.current)) = .ok (Rotation.put
          (Rotation.put r.buf r.current (s.take (r.buf.length - r.current))) 0
          (s.drop (r.buf.length - r.current))) := copyIn_eq (by rw [hlength, hdrop]; omega)
    have hplace : s.length - (r.buf.length - r.current) =
        (r.current + s.length) % r.buf.length := by
      rw [Nat.mod_eq_sub_mod (by omega), Nat.mod_eq_of_lt (by omega)]
      omega
    refine ⟨Rotation.put (Rotation.put r.buf r.current (s.take (r.buf.length - r.current))) 0
      (s.drop (r.buf.length - r.current)), ?_, ?_, ?_⟩
    · rw [writelog, if_pos hover]
      simp only [bind, Except.bind, hfirst, hsecond, hplace]
      rfl
    · rw [Rotation.length_put (by rw [hlength, hdrop]; omega), hlength]
    · rw [Rotation.rotate_put_put (by rw [htake]; omega) (by rw [hdrop]; omega),
        take_append_drop, htake, hdrop]
      congr 2
      omega
  · have hlt : r.current + s.length < r.buf.length := by
      rcases Nat.lt_or_eq_of_le (Nat.le_of_not_gt hover) with h | h
      · exact h
      · rw [h, Nat.mod_self] at hend
        exact absurd rfl hend
    refine ⟨Rotation.put r.buf r.current s, ?_, Rotation.length_put (by omega),
      Rotation.rotate_put (by omega)⟩
    rw [writelog, if_neg hover, copyIn_eq (by omega), Nat.mod_eq_of_lt hlt]
    rfl

/-- An entry written where there is room for it goes to the end of the queue. -/
theorem write_holds {s : Str} (h : Holds r q)
    (hroom : total q + weight s ≤ r.buf.length)
    (hend : (r.current + weight s) % r.buf.length ≠ 0) :
    ∃ r1 r', writesize r s.length = .ok r1 ∧ writelog r1 s = .ok r' ∧
      r'.buf.length = r.buf.length ∧ r'.current = (r.current + weight s) % r.buf.length ∧
      Holds r' (q ++ [s]) := by
  obtain ⟨⟨free, hring⟩, hfirst, hcurrent⟩ := h
  have hweight : weight s = s.length + 2 := rfl
  have hlt : r.current < r.buf.length := by
    rw [hcurrent]
    exact Nat.mod_lt _ (by omega)
  have hlength := congrArg List.length hring
  rw [length_rotate, length_append, length_encodeAll] at hlength
  -- seen from where it is written, the free space comes first
  have hview : r.buf.rotate r.current = free ++ encodeAll q := by
    rw [hcurrent, rotate_mod, ← length_encodeAll]
    exact Rotation.rotate_behind hring
  obtain ⟨buf1, hwrite1, hlength1, hring1⟩ := writesize_eq (n := s.length) hlt (by omega)
  have hfree2 : 2 ≤ free.length := by omega
  rw [hview, drop_append_of_le_length hfree2] at hring1
  have hplace : ((r.current + 2) % r.buf.length + s.length) % r.buf.length =
      (r.current + weight s) % r.buf.length := by
    rw [Nat.mod_add_mod, hweight, Nat.add_assoc, Nat.add_comm 2]
  obtain ⟨buf2, hwrite2, hlength2, hring2⟩ := writelog_eq (s := s)
    (r := { r with buf := buf1, current := (r.current + 2) % r.buf.length })
    (by rw [hlength1]; exact Nat.mod_lt _ (by omega)) (by rw [hlength1]; omega)
    (by rw [hlength1, hplace]; exact hend)
  simp only [hlength1] at hwrite2 hlength2 hring2
  have hbehind := Rotation.rotate_behind hring1
  rw [show (sizeBytes s.length).length = 2 from rfl, ← rotate_mod, hlength1,
    append_assoc] at hbehind
  have hdrop : s.length ≤ (free.drop 2).length := by
    rw [length_drop]
    omega
  rw [hbehind, drop_append_of_le_length hdrop, drop_drop, ← append_assoc] at hring2
  refine ⟨_, { buf := buf2, current := (r.current + weight s) % r.buf.length, first := r.first },
    hwrite1, ?_, hlength2, rfl, ?_, ?_, ?_⟩
  · rw [hwrite2, hplace]
  · -- from the text on, the rest of the free space, then the queue and the size
    refine ⟨free.drop (2 + s.length), ?_⟩
    have hback := Rotation.rotate_behind hring2
    have hturn : ((r.current + 2) % r.buf.length + (s ++ free.drop (2 + s.length)).length) %
        buf2.length = r.first % buf2.length := by
      have hsum : s.length + (free.length - (2 + s.length)) = free.length - 2 := by omega
      have hround : (r.first + total q) % r.buf.length + 2 + (free.length - 2) =
          (r.first + total q) % r.buf.length + free.length := by omega
      have hfull : r.first + total q + free.length = r.first + r.buf.length := by omega
      rw [length_append, length_drop, hlength2, hcurrent, hsum, Nat.mod_add_mod, hround,
        Nat.mod_add_mod, hfull, Nat.add_mod_right]
    rw [Rotation.rotate_congr hturn] at hback
    rw [hback, encodeAll_append, encodeAll_singleton, encode]
    simp only [append_assoc]
  · rw [hlength2]
    exact hfirst
  · rw [hlength2, total_append, total_singleton, hcurrent, Nat.mod_add_mod, Nat.add_assoc]

end Mihini.Log
