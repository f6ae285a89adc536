import Mihini.Log.Ring

/-!
# The calls keep the queue

`logramget` and `logramstore` on a ring that holds the queue of the entries stored since the
last read, and every run of calls from a new buffer.
-/

namespace Mihini.Log

open Lib List

structure Inv (size : Nat) (r : Ram) (es : List Str) : Prop where
  length : r.buf.length = size
  idle : es = [] → r.current = r.first
  place : r.current = total es % size
  entries : ∀ e ∈ es, Accepted size e
  holds : 0 < size → Holds r (kept size es)
  room : 0 < size → total (kept size es) < size

theorem Inv.empty (size : Nat) : Inv size ⟨List.replicate size 0, 0, 0⟩ [] := by
  refine ⟨length_replicate, fun _ => rfl, (Nat.zero_mod size).symm, nofun, fun h => ?_, id⟩
  refine ⟨⟨List.replicate size 0, by simp [kept, encodeAll]⟩, ?_, ?_⟩
  · rw [length_replicate]
    exact h
  · exact (Nat.zero_mod _).symm

variable {r : Ram} {size : Nat} {es : List Str}

theorem Inv.size_pos (h : Inv size r es) (hes : es ≠ []) :
    0 < size := by
  obtain ⟨e, he⟩ := exists_mem_of_ne_nil es hes
  have hweight := (h.entries e he).1
  rw [weight] at hweight
  omega

theorem two_mul_length_le (es : List Str) : 2 * es.length ≤ total es := by
  induction es with
  | nil => exact Nat.zero_le _
  | cons e es ih =>
    rw [total_cons, length_cons, weight]
    omega

theorem kept_ne_nil (hentries : ∀ e ∈ es, Accepted size e)
    (hes : es ≠ []) : kept size es ≠ [] := by
  have hlast : [es.getLast hes] <:+ kept size es := by
    refine suffix_kept ⟨es.dropLast, dropLast_append_getLast hes⟩ ?_
    rw [total_singleton]
    exact (hentries _ (getLast_mem hes)).1
  intro h
  rw [h] at hlast
  nomatch eq_nil_of_suffix_nil hlast

/-- Reading returns what is kept, and leaves the buffer empty. -/
theorem logramget_eq (hsize : size < 65536)
    (h : Inv size r es) : ∃ r', logramget r = .ok (expectedGet size es, r') ∧ Inv size r' [] := by
  by_cases hes : es = []
  · refine ⟨r, ?_, hes ▸ h⟩
    rw [logramget, if_pos (h.idle hes), expectedGet, if_pos hes]
    rfl
  have hpos := h.size_pos hes
  obtain ⟨⟨free, hring⟩, hfirst, hcurrent⟩ := h.holds hpos
  have hroom := h.room hpos
  have hlength := h.length
  have hkept := kept_ne_nil h.entries hes
  have hcount := two_mul_length_le (kept size es)
  have hne : ∀ e ∈ kept size es, e ≠ [] := fun e he =>
    (h.entries e ((kept_suffix size es).subset he)).2
  have htotal : 0 < total (kept size es) := by
    have := length_pos_iff.mpr hkept
    omega
  have hgo : r.current ≠ r.first := by
    rw [hcurrent]
    rcases Nat.lt_or_ge (r.first + total (kept size es)) r.buf.length with hlt | hge
    · rw [Nat.mod_eq_of_lt hlt]
      omega
    · rw [Nat.mod_eq_sub_mod hge, Nat.mod_eq_of_lt (by omega)]
      omega
  have hloop : getLoop r (r.buf.length + 1) r.first [] = .ok ([] ++ (kept size es).flatten) :=
    getLoop_eq (by omega) hring hfirst hcurrent (by omega) hne (by omega)
  refine ⟨⟨List.replicate r.buf.length 0, 0, 0⟩, ?_, hlength ▸ Inv.empty _⟩
  rw [logramget, if_neg hgo, hloop, expectedGet, if_neg hes]
  rfl

variable {q : List Str}

theorem spareSpace_eq (h : Holds r q) (hroom : total q < r.buf.length) :
    spareSpace r = r.buf.length - total q := by
  have hfirst := h.first
  rw [spareSpace, h.current]
  rcases Nat.lt_or_ge (r.first + total q) r.buf.length with hlt | hge
  · rw [Nat.mod_eq_of_lt hlt, if_pos (by omega)]
    omega
  · rw [Nat.mod_eq_sub_mod hge, Nat.mod_eq_of_lt (by omega), if_neg (by omega)]
    omega

variable {s : Str}

/-- The oldest entries are dropped until the new one fits. -/
theorem erase_eq (hsize : r.buf.length < 65536)
    (h : Holds r q) (hroom : total q < r.buf.length) (hs : weight s ≤ r.buf.length) :
    ∃ first, eraseOlder r s.length = .ok { r with first } ∧
      Holds { r with first } (kept (r.buf.length - weight s) q) := by
  obtain ⟨⟨free, hring⟩, hfirst, hcurrent⟩ := h
  have hspare := spareSpace_eq ⟨⟨free, hring⟩, hfirst, hcurrent⟩ hroom
  have hweight : weight s = s.length + 2 := rfl
  by_cases hfree : spareSpace r < s.length + 2
  · have hamount : s.length + 2 - spareSpace r = total q + weight s - r.buf.length := by omega
    have hint : ((total q + weight s - r.buf.length : Nat) : Int) =
        (total q + weight s : Nat) - (r.buf.length : Int) := by omega
    obtain ⟨first, free', hloop, hfirst', hring', hend⟩ :=
      freeLoop_eq hsize hring hfirst hs (Nat.le_refl _)
    rw [← hint] at hloop
    refine ⟨first, ?_, ⟨free', hring'⟩, hfirst', ?_⟩
    · rw [eraseOlder, if_pos hfree, hamount]
      simp only [hloop]
      rfl
    · exact hcurrent.trans hend.symm
  · rw [kept_of_le (by omega)]
    exact ⟨r.first, by rw [eraseOlder, if_neg hfree]; rfl, ⟨free, hring⟩, hfirst, hcurrent⟩

/-- An accepted entry is stored behind what is kept of the others. -/
theorem write_inv (hsize : size < 65536)
    (h : Inv size r es) (hs : Accepted size s) (hend : total (es ++ [s]) % size ≠ 0)
    (hfull : ∀ t, t <:+ es ++ [s] → total t ≠ size) :
    ∃ r1 r2 r', eraseOlder r s.length = .ok r1 ∧ writesize r1 s.length = .ok r2 ∧
      writelog r2 s = .ok r' ∧ Inv size r' (es ++ [s]) := by
  obtain ⟨hlength, -, hplace, hentries, hholds, hroom⟩ := h
  have hpos : 0 < size := by
    have := hs.1
    rw [weight] at this
    omega
  subst hlength
  obtain ⟨first, herase, hholds'⟩ := erase_eq hsize (hholds hpos) (hroom hpos) hs.1
  have hfits := total_kept_le (r.buf.length - weight s) (kept r.buf.length es)
  have hweight := hs.1
  have hend' : (r.current + weight s) % r.buf.length ≠ 0 := by
    rwa [hplace, Nat.mod_add_mod, ← total_singleton, ← total_append]
  obtain ⟨r2, r', hsizeb, hlog, hlength', hcurrent', hholds''⟩ :=
    write_holds hholds' (by simp only; omega) hend'
  have hlt : total (kept r.buf.length (es ++ [s])) < r.buf.length :=
    Nat.lt_of_le_of_ne (total_kept_le _ _) (hfull _ (kept_suffix _ _))
  rw [← kept_append hs.1] at hholds''
  refine ⟨_, r2, r', herase, hsizeb, hlog, hlength', ?_, ?_, ?_, fun _ => hholds'', fun _ => hlt⟩
  · exact fun hnil => absurd hnil (append_ne_nil_of_right_ne_nil _ (cons_ne_nil s []))
  · rw [hcurrent']
    show (r.current + weight s) % r.buf.length = _
    rw [hplace, Nat.mod_add_mod, total_append, total_singleton]
  · intro e he
    rcases mem_append.mp he with he | he
    · exact hentries e he
    · rw [mem_singleton.mp he]
      exact hs

/-- Storing answers what is expected, flush included. -/
theorem logramstore_eq {flush : Bool}
    (hsize : size < 65536) (h : Inv size r es)
    (hapart : Accepted size s → total (before size es s flush ++ [s]) % size ≠ 0 ∧
      ∀ t, t <:+ before size es s flush ++ [s] → total t ≠ size) :
    ∃ r', logramstore r s flush = .ok ((expectedStore size es s flush).1, r') ∧
      Inv size r' (expectedStore size es s flush).2 := by
  have hlength := h.length
  by_cases hbig : weight s > size
  · refine ⟨r, ?_, by rw [expectedStore, if_pos hbig]; exact h⟩
    rw [logramstore, if_pos (by rw [hlength]; exact hbig), expectedStore, if_pos hbig]
    rfl
  by_cases hempty : s = []
  · refine ⟨r, ?_, by rw [expectedStore, if_neg hbig, if_pos hempty]; exact h⟩
    rw [logramstore, if_neg (by rw [hlength]; exact hbig),
      if_pos (length_eq_zero_iff.mpr hempty), expectedStore, if_neg hbig, if_pos hempty]
    rfl
  have hs : Accepted size s := ⟨Nat.le_of_not_gt hbig, hempty⟩
  have hpos : 0 < size := by
    have := hs.1
    rw [weight] at this
    omega
  obtain ⟨hend, hfull⟩ := hapart hs
  have hspare := spareSpace_eq (h.holds hpos) (by rw [hlength]; exact h.room hpos)
  have hsignal : (spareSpace r < s.length + 2 ∧ flush = true) ↔ Flushed size es s flush := by
    refine and_congr_left fun _ => ?_
    have := h.room hpos
    rw [hspare, hlength, weight]
    omega
  have hstored : expectedStore size es s flush =
      (⟨.ok "ok", if Flushed size es s flush then some (expectedGet size es) else none⟩,
        before size es s flush ++ [s]) := by
    rw [expectedStore, if_neg hbig, if_neg hempty]
  rw [hstored, logramstore, if_neg (by rw [hlength]; exact hbig),
    if_neg fun h => hempty (length_eq_zero_iff.mp h)]
  by_cases hflush : Flushed size es s flush
  · have hbefore : before size es s flush = [] := if_pos hflush
    rw [hbefore] at hend hfull ⊢
    obtain ⟨r0, hget, hinv⟩ := logramget_eq hsize h
    obtain ⟨r1, r2, r', herase, hsizeb, hlog, hinv'⟩ := write_inv hsize hinv hs hend hfull
    refine ⟨r', ?_, hinv'⟩
    rw [erasedata, if_pos (hsignal.mpr hflush), hget, if_pos hflush]
    simp only [bind, Except.bind, pure, Except.pure, herase, hsizeb, hlog]
  · have hbefore : before size es s flush = es := if_neg hflush
    rw [hbefore] at hend hfull ⊢
    obtain ⟨r1, r2, r', herase, hsizeb, hlog, hinv'⟩ := write_inv hsize h hs hend hfull
    refine ⟨r', ?_, hinv'⟩
    rw [erasedata, if_neg fun h => hflush (hsignal.mp h), if_neg hflush]
    simp only [bind, Except.bind, pure, Except.pure, herase, hsizeb, hlog]

/-! ## Runs -/

/-- What one call keeps. -/
theorem step_inv (hsize : size < 65536) {w : World} {e : Event}
    (hapart : Apart size w e)
    (h : (∃ r, w.ram = .ok r ∧ Inv size r w.entries) ∧ w.answers = w.expected) :
    (∃ r, (step size w e).ram = .ok r ∧ Inv size r (step size w e).entries) ∧
      (step size w e).answers = (step size w e).expected := by
  obtain ⟨⟨r, hram, hinv⟩, hanswers⟩ := h
  cases e with
  | get =>
    obtain ⟨r', hget, hinv'⟩ := logramget_eq hsize hinv
    simp only [step, hram, hget]
    exact ⟨⟨r', rfl, hinv'⟩, by rw [hanswers]⟩
  | store s flush =>
    obtain ⟨r', hstore, hinv'⟩ := logramstore_eq hsize hinv hapart
    simp only [step, hram, hstore]
    exact ⟨⟨r', rfl, hinv'⟩, by rw [hanswers]⟩

/-- The log buffer is a bounded queue: in every run from a new buffer in which no entry ends at
the end of the buffer or fills it exactly, every call returns, with the answer of the queue. -/
theorem ram_log_queue {n : Int} {r : Ram} (hinit : lograminit n = some r) {w : World}
    (hrun : Runs (step r.buf.length) (Apart r.buf.length) (World.init r) w) : Queued w := by
  rw [lograminit] at hinit
  split at hinit
  · nomatch hinit
  rename_i hsmall
  obtain rfl := Option.some.inj hinit
  have hlength : (List.replicate (n % 65536).toNat (0 : UInt8)).length = (n % 65536).toNat :=
    length_replicate
  simp only [hlength] at hrun
  obtain ⟨⟨r, hram, -⟩, hanswers⟩ := hrun.invariant
    (I := fun w => (∃ r, w.ram = .ok r ∧ Inv (n % 65536).toNat r w.entries) ∧
      w.answers = w.expected)
    (fun w e he h => step_inv (by omega) he h) ⟨⟨_, rfl, Inv.empty _⟩, rfl⟩
  exact ⟨⟨r, hram⟩, hanswers⟩

/-- Five entries in a buffer of eight bytes: one is flushed by the hook, and one is erased. -/
theorem ram_log_queue_eight :
    Queued ([Event.store [1] false, .store [2] false, .store [3, 4, 5] true, .store [6, 7] false,
      .store [] false, .store [8, 9, 10, 11, 12, 13, 14] false, .get, .get].foldl (step 8)
        (World.init ⟨List.replicate 8 0, 0, 0⟩)) :=
  ram_log_queue (n := 8) (r := ⟨List.replicate 8 0, 0, 0⟩) (by decide +kernel)
    (Along.runs (by decide +kernel))

/-! ## The two ambiguous states -/

def sixBytes : World :=
  [Event.store [1] false, .store [2] false].foldl (step 6) (World.init ⟨List.replicate 6 0, 0, 0⟩)

/-- Reading them never ends, and storing another one writes outside of the buffer. -/
theorem end_of_buffer_lost :
    lograminit 6 = some ⟨List.replicate 6 0, 0, 0⟩ ∧
      sixBytes.ram.toOption = some ⟨[1, 0, 1, 1, 0, 2], 6, 0⟩ ∧
      (∀ fuel, getLoop ⟨[1, 0, 1, 1, 0, 2], 6, 0⟩ fuel 0 [] = .error .loop) ∧
      ¬ Queued (step 6 sixBytes .get) ∧ ¬ Queued (step 6 sixBytes (.store [3] false)) := by
  have hloop : ∀ fuel lbuf, getLoop ⟨[1, 0, 1, 1, 0, 2], 6, 0⟩ fuel 0 lbuf = .error .loop ∧
      getLoop ⟨[1, 0, 1, 1, 0, 2], 6, 0⟩ fuel 3 lbuf = .error .loop := by
    intro fuel
    induction fuel with
    | zero => exact fun lbuf => ⟨rfl, rfl⟩
    | succ fuel ih =>
      -- the loop goes round the buffer and never meets the place behind its end
      intro lbuf
      have hring0 : [1, 0, 1, 1, 0, 2].rotate 0 = encode [1] ++ [1, 0, 2] := rfl
      have hring3 : [1, 0, 1, 1, 0, 2].rotate 3 = encode [2] ++ [1, 0, 1] := rfl
      rw [getLoop_turn hring0 (by decide) (by decide) (by decide) (by decide),
        getLoop_turn hring3 (by decide) (by decide) (by decide) (by decide)]
      exact ⟨(ih _).2, (ih _).1⟩
  refine ⟨by decide, by decide +kernel, fun fuel => (hloop fuel []).1, ?_, ?_⟩
  · rintro ⟨⟨r, hram⟩, -⟩
    have hstop : (step 6 sixBytes .get).ram.toOption = none := by decide +kernel
    rw [hram] at hstop
    nomatch hstop
  · rintro ⟨⟨r, hram⟩, -⟩
    have hstop : (step 6 sixBytes (.store [3] false)).ram.toOption = none := by decide +kernel
    rw [hram] at hstop
    nomatch hstop

end Mihini.Log
