import Mathlib.Algebra.GroupWithZero.Nat
import Mihini.Lib.Run
import Mihini.Log.RamStore

/-!
# The log buffer as a queue

What the log buffer is for: the entries stored since it was last read, of which as many of
the latest as fit are read back, in order, and then none. The ring of `log_store.c` is this
queue as long as no entry ends exactly at the end of the buffer and none fills it exactly.
-/

namespace Mihini.Log

open Lib List

/-! ## The queue -/

def weight (e : Str) : Nat := e.length + 2

def total (es : List Str) : Nat := (es.map weight).sum

def kept (size : Nat) : List Str → List Str
  | [] => []
  | e :: es => if total (e :: es) ≤ size then e :: es else kept size es

theorem total_cons (e : Str) (es : List Str) : total (e :: es) = weight e + total es := by
  rw [total, total, map_cons, sum_cons]

theorem total_append (es es' : List Str) : total (es ++ es') = total es + total es' := by
  rw [total, total, total, map_append, sum_append]

theorem total_singleton (e : Str) : total [e] = weight e := by
  rw [total_cons]
  rfl

theorem kept_of_le {size : Nat} {es : List Str} (h : total es ≤ size) : kept size es = es := by
  cases es with
  | nil => rfl
  | cons e es => rw [kept, if_pos h]

theorem kept_suffix (size : Nat) (es : List Str) : kept size es <:+ es := by
  induction es with
  | nil => exact suffix_refl []
  | cons e es ih =>
    rw [kept]
    split
    · exact suffix_refl _
    · exact ih.trans (suffix_cons e es)

theorem total_kept_le (size : Nat) (es : List Str) : total (kept size es) ≤ size := by
  induction es with
  | nil => exact Nat.zero_le size
  | cons e es ih =>
    rw [kept]
    split
    · assumption
    · exact ih

theorem suffix_kept {size : Nat} {es t : List Str} (ht : t <:+ es) (hfits : total t ≤ size) :
    t <:+ kept size es := by
  induction es with
  | nil => exact ht
  | cons e es ih =>
    rw [kept]
    split
    · exact ht
    · rename_i hbig
      rcases suffix_cons_iff.mp ht with rfl | ht
      · exact absurd hfits hbig
      · exact ih ht

theorem kept_append {size : Nat} {es : List Str} {s : Str} (hs : weight s ≤ size) :
    kept size (es ++ [s]) = kept (size - weight s) (kept size es) ++ [s] := by
  induction es with
  | nil =>
    rw [nil_append, kept_of_le (by rw [total_singleton]; exact hs)]
    rfl
  | cons e es ih =>
    rw [cons_append, kept, kept, ← cons_append, total_append, total_singleton]
    by_cases hall : total (e :: es) + weight s ≤ size
    · rw [if_pos hall, if_pos (by omega), kept_of_le (by omega)]
    rw [if_neg hall]
    split
    · -- the first entry fits without the new one only
      rename_i hfits
      have hrest : total es ≤ size := by
        rw [total_cons] at hfits
        omega
      rw [kept, if_neg (by omega), ih, kept_of_le hrest]
    · exact ih

/-! ## What is expected of the calls -/

def noLog : String := "logramget: no log stored in buffer, nothing to retrieve"

/-- The answer of `logramget` when `es` were stored since the last one. -/
def expectedGet (size : Nat) (es : List Str) : Except String Str :=
  if es = [] then .error noLog else .ok (kept size es).flatten

def Accepted (size : Nat) (s : Str) : Prop := weight s ≤ size ∧ s ≠ []

instance (size : Nat) (s : Str) : Decidable (Accepted size s) :=
  inferInstanceAs (Decidable (_ ∧ _))

def Flushed (size : Nat) (es : List Str) (s : Str) (flush : Bool) : Prop :=
  size < total (kept size es) + weight s ∧ flush = true

instance (size : Nat) (es : List Str) (s : Str) (flush : Bool) :
    Decidable (Flushed size es s flush) :=
  inferInstanceAs (Decidable (_ ∧ _))

def before (size : Nat) (es : List Str) (s : Str) (flush : Bool) : List Str :=
  if Flushed size es s flush then [] else es

/-- The answer of `logramstore`, and the entries stored since the last read. -/
def expectedStore (size : Nat) (es : List Str) (s : Str) (flush : Bool) : Answer × List Str :=
  if weight s > size then (⟨.error "logramstore: buffer too big! Log rejected!", none⟩, es)
  else if s = [] then
    (⟨.error "logramstore: new log is an empty buffer. Log rejected!", none⟩, es)
  else
    (⟨.ok "ok", if Flushed size es s flush then some (expectedGet size es) else none⟩,
      before size es s flush ++ [s])

/-! ## Runs -/

inductive Event
  | store (s : Str) (flush : Bool)
  | get

inductive Reply
  | stored (a : Answer)
  | got (a : Except String Str)

/-- The buffer, or why a call did not return; the entries stored since it was last read; what
the calls answered and what was expected of them. -/
structure World where
  ram : Except Stop Ram
  entries : List Str
  answers : List Reply
  expected : List Reply

def World.init (r : Ram) : World := ⟨.ok r, [], [], []⟩

def step (size : Nat) (w : World) (e : Event) : World :=
  match w.ram with
  | .error _ => w
  | .ok r =>
    match e with
    | .store s flush =>
      let (answer, entries) := expectedStore size w.entries s flush
      let expected := w.expected ++ [.stored answer]
      match logramstore r s flush with
      | .ok (a, r) => ⟨.ok r, entries, w.answers ++ [.stored a], expected⟩
      | .error e => ⟨.error e, entries, w.answers, expected⟩
    | .get =>
      let expected := w.expected ++ [.got (expectedGet size w.entries)]
      match logramget r with
      | .ok (a, r) => ⟨.ok r, [], w.answers ++ [.got a], expected⟩
      | .error e => ⟨.error e, [], w.answers, expected⟩

/-- The entry does not end at the end of the buffer, and with those before it, it does not fill
the buffer exactly. -/
def Apart (size : Nat) (w : World) : Event → Prop
  | .get => True
  | .store s flush =>
    Accepted size s →
      total (before size w.entries s flush ++ [s]) % size ≠ 0 ∧
        ∀ t, t <:+ before size w.entries s flush ++ [s] → total t ≠ size

instance (size : Nat) (w : World) : (e : Event) → Decidable (Apart size w e)
  | .get => isTrue trivial
  | .store s flush =>
    have : Decidable (∀ t, t <:+ before size w.entries s flush ++ [s] → total t ≠ size) :=
      decidable_of_iff (∀ t ∈ (before size w.entries s flush ++ [s]).tails, total t ≠ size)
        (forall_congr' fun t => by rw [mem_tails])
    inferInstanceAs (Decidable (Accepted size s → _ ∧ _))

def Queued (w : World) : Prop := (∃ r, w.ram = .ok r) ∧ w.answers = w.expected

end Mihini.Log
