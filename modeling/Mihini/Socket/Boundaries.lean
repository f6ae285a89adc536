import Mihini.Socket.Tcp

/-!
# Packet boundaries

What the cooperative sockets return depends on the bytes of a stream, not on the pieces in which they
come, apart from two cases of `receive`.
-/

namespace Mihini.Socket

open Mihini.Lib List

/-! ## Streams -/

namespace Stream

def bytes : Stream → Bytes
  | .ends ps _ => ps.flatten
  | .waits ps _ later => ps.flatten ++ later.bytes

def last : Stream → Bytes
  | .ends ps _ => ps.flatten
  | .waits _ _ later => later.last

def stop : Stream → End
  | .ends _ stop => stop
  | .waits _ _ later => later.stop

def Ready : Stream → Prop
  | .ends _ _ => True
  | .waits _ event later => waitFd event = none ∧ later.Ready

instance : DecidablePred Ready
  | .ends _ _ => isTrue trivial
  | .waits _ _ later =>
    have : Decidable later.Ready := instDecidablePredReady later
    inferInstanceAs (Decidable (_ ∧ _))

end Stream

def Result.seen : Result → Result
  | .data s => .data s
  | .fail err part => .fail err (some (part.getD []))

/-! ## LuaSocket's receive -/

/-- What LuaSocket wants of the stream, when `size` bytes are given. -/
def Pattern.want (size : Nat) : Pattern → Pattern
  | .bytes n => .bytes (wanted n size)
  | p => p

/-- The result for some bytes, and what is left of them; `*a` is complete if something came last. -/
def outcome (p : Pattern) (stop : Err) (front last bytes : Bytes) : Result × Bytes :=
  if bytes = [] then (.fail stop (some front), [])
  else
    match takeBytes p bytes with
    | .done out rest => (.data (front ++ out), rest)
    | .more out _ =>
      if p = .all ∧ stop = .closed ∧ last ≠ [] then (.data (front ++ out), [])
      else (.fail stop (some (front ++ out)), [])

variable {p next : Pattern}

variable {out : Bytes}

variable {ps : List Bytes}

def Result.prepend (front : Bytes) : Result → Result
  | .data s => .data (front ++ s)
  | .fail err part => .fail err (part.map (front ++ ·))

section

variable {someBytes : Bool} {p : Pattern} {buffer ps rest : List Bytes} {event : WaitEvent}
  {later : Stream}

end

variable {s : Stream}

def Complete (p : Pattern) (used out : Bytes) : Prop :=
  match p with
  | .line => ∃ body, lf ∉ body ∧ used = body ++ [lf] ∧ out = shown body
  | .all => out = used
  | .bytes n => out = used ∧ used.length = n

def Partial (p : Pattern) (used out : Bytes) : Prop :=
  match p with
  | .line => lf ∉ used ∧ out = shown used
  | .all => out = used
  | .bytes n => out = used ∧ used.length ≤ n

theorem takeBytes_more {xs out : Bytes} (h : takeBytes p xs = .more out next) :
    Partial p xs out := by
  cases p with
  | line =>
    by_cases hmem : lf ∈ xs
    · obtain ⟨body, after, rfl, hbody⟩ := eq_append_cons_of_mem hmem
      rw [takeBytes_line hbody] at h
      cases h
    · rw [takeBytes_part hmem] at h
      cases h
      exact ⟨hmem, rfl⟩
  | all =>
    cases h
    rfl
  | bytes n =>
    rw [takeBytes] at h
    split at h
    · cases h
    · cases h
      exact ⟨rfl, by omega⟩

theorem Complete.after {xs out used out' : Bytes}
    (h : takeBytes p xs = .more out next) (hrest : Complete next used out') :
    Complete p (xs ++ used) (out ++ out') := by
  have hpart := takeBytes_more h
  cases p with
  | line =>
    obtain ⟨hxs, rfl⟩ := hpart
    rw [takeBytes_part hxs] at h
    cases h
    obtain ⟨body, hbody, rfl, rfl⟩ := hrest
    refine ⟨xs ++ body, fun hmem => (mem_append.mp hmem).elim hxs hbody, ?_, ?_⟩
    · rw [append_assoc]
    · rw [shown_append]
  | all =>
    cases h
    exact congrArg (xs ++ ·) hrest
  | bytes n =>
    rw [takeBytes] at h
    split at h
    · cases h
    · cases h
      obtain ⟨rfl, hlen⟩ := hrest
      exact ⟨rfl, by rw [length_append]; omega⟩

theorem Partial.after {xs out used out' : Bytes}
    (h : takeBytes p xs = .more out next) (hrest : Partial next used out') :
    Partial p (xs ++ used) (out ++ out') := by
  have hpart := takeBytes_more h
  cases p with
  | line =>
    obtain ⟨hxs, rfl⟩ := hpart
    rw [takeBytes_part hxs] at h
    cases h
    obtain ⟨hused, rfl⟩ := hrest
    exact ⟨fun hmem => (mem_append.mp hmem).elim hxs hused, (shown_append _ _).symm⟩
  | all =>
    cases h
    exact congrArg (xs ++ ·) hrest
  | bytes n =>
    rw [takeBytes] at h
    split at h
    · cases h
    · cases h
      obtain ⟨rfl, hlen⟩ := hrest
      exact ⟨rfl, by rw [length_append]; omega⟩

/-- The result for the bytes `used`, behind some that are given. -/
def Result.Reads (p : Pattern) (front used : Bytes) : Result → Prop
  | .data s => ∃ out, s = front ++ out ∧ Complete p used out
  | .fail _ part => ∃ out, part.getD [] = front ++ out ∧ Partial p used out

theorem Result.Reads.after {xs out front used : Bytes} {r : Result}
    (h : takeBytes p xs = .more out next) (hr : r.Reads next (front ++ out) used) :
    r.Reads p front (xs ++ used) := by
  cases r with
  | data s =>
    obtain ⟨out', rfl, hrest⟩ := hr
    exact ⟨out ++ out', append_assoc .., hrest.after h⟩
  | fail err part =>
    obtain ⟨out', hout, hrest⟩ := hr
    exact ⟨out ++ out', hout.trans (append_assoc ..), hrest.after h⟩

/-- The arguments of a call; no pattern stands for `*`. -/
structure Call where
  pattern : Option Pattern
  pre : Option Bytes
  deriving DecidableEq

def Accounts : List Call → List Result → Bytes → Bytes → Prop
  | [], [], bytes, rest => bytes = rest
  | c :: cs, r :: rs, bytes, rest => ∃ used later, bytes = used ++ later ∧
      r.Reads ((c.pattern.getD .all).want 0) (c.pre.getD []) used ∧ Accounts cs rs later rest
  | _, _, _, _ => False

theorem slice_append (data : Bytes) {start : Nat} (hstart : 0 < start) (m n : Nat) :
    slice data start m ++ slice data (start + m) n = slice data start (m + n) := by
  unfold slice
  rw [take_add, drop_drop, show start + m - 1 = start - 1 + m by omega]

/-- The bytes from the first to the last index sent are delivered; and all, if there is no error. -/
structure Delivers (data : Bytes) (first : Nat) (stop : Int) (s : Sent) (out : Bytes) : Prop where
  from_first : first ≤ s.last + 1
  delivered : out = slice data first (s.last + 1 - first)
  bounded : (s.last : Int) ≤ max stop (first - 1)
  complete : s.err = none → (s.last : Int) = max stop (first - 1)

theorem Delivers.trans {data out more : Bytes} {first : Nat} {stop : Int} {s s' : Sent}
    (hpos : 0 < first) (h : Delivers data first stop s out)
    (h' : Delivers data (s.last + 1) stop s' more) : Delivers data first stop s' (out ++ more) := by
  obtain ⟨hfirst, rfl, hbounded, -⟩ := h
  obtain ⟨hfirst', rfl, hbounded', hcomplete'⟩ := h'
  refine ⟨by omega, ?_, by omega, fun hnone => ?_⟩
  · have happend := slice_append data hpos (s.last + 1 - first) (s'.last + 1 - (s.last + 1))
    rw [show first + (s.last + 1 - first) = s.last + 1 by omega] at happend
    rw [happend]
    congr 1
    omega
  · have hlast := hcomplete' hnone
    omega

end Mihini.Socket
