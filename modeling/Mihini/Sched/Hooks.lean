import Mathlib.Algebra.BigOperators.Group.List.Basic
import Mathlib.Algebra.GroupWithZero.Nat
import Mihini.Sched.Signals

/-!
# Hooks miss no signal

A persistent hook has as many places in the queues as it has registrations, counting the
queues that are being parsed, and every signal in delivery has either run a hook that is
due or will still come to it.  Both need that no signal is emitted on a queue that is
being parsed.
-/

set_option linter.unusedSectionVars false

namespace Mihini.Sched.Signals

open Mihini.Lib Function Frame List

variable {E ε τ : Type} [DecidableEq E] [DecidableEq ε]

namespace Frame

def Parses (f : Frame E ε τ) (e : E) (k : Key ε) : Prop :=
  f.emitter = e ∧ ∃ p, f.parsing = some p ∧ p.key = k

def inFlight (c : Nat) (e : E) (k : Key ε) (f : Frame E ε τ) : Nat :=
  match f.parsing with
  | none => 0
  | some p =>
    if f.emitter = e ∧ p.key = k then
      p.rest.count c + if p.current = some c then 1 else 0
    else 0

variable {f : Frame E ε τ} {k : Key ε}

theorem inFlight_of_not_parses {c : Nat} {e : E}
    (h : ¬ f.Parses e k) : f.inFlight c e k = 0 := by
  unfold inFlight
  split
  · rfl
  · rename_i p hp
    rw [if_neg]
    rintro ⟨he, hk⟩
    exact h ⟨he, p, hp, hk⟩

theorem inFlight_none {c : Nat} {e : E}
    (h : f.parsing = none) : f.inFlight c e k = 0 := by
  simp [inFlight, h]

theorem inFlight_some {c : Nat} {e : E} {p : Parse ε}
    (h : f.parsing = some p) : f.inFlight c e k =
      if f.emitter = e ∧ p.key = k then p.rest.count c + if p.current = some c then 1 else 0
      else 0 := by
  simp [inFlight, h]

end Frame

def flying (stack : List (Frame E ε τ)) (c : Nat) (e : E) (k : Key ε) : Nat :=
  (stack.map (inFlight c e k)).sum

theorem flying_cons (f : Frame E ε τ) (fs : List (Frame E ε τ)) (c : Nat) (e : E) (k : Key ε) :
    flying (f :: fs) c e k = f.inFlight c e k + flying fs c e k := by
  simp [flying]

theorem flying_zero {stack : List (Frame E ε τ)} {e : E} {k : Key ε}
    (h : ∀ f ∈ stack, ¬ f.Parses e k) (c : Nat) : flying stack c e k = 0 := by
  induction stack with
  | nil => rfl
  | cons f fs ih =>
    rw [flying_cons, inFlight_of_not_parses (h f mem_cons_self),
      ih (fun g hg => h g (mem_cons_of_mem _ hg))]

def ahead (calls : List (E × Key ε)) (f : Frame E ε τ) (c : Nat) : Nat :=
  (match f.parsing with
    | none => 0
    | some p => p.rest.count c) +
  (f.todo.map fun k => calls.count (f.emitter, k)).sum

/-- When hooks are safe: the event is not `'*'` itself, none of the queues to parse is
being parsed, and no hook is registered twice to the signal. -/
def HooksSafe (s : World E ε τ) : Event E ε τ → Prop
  | .emit e k => k ≠ .star ∧ (∀ f ∈ s.stack, ¬ f.Parses e .star ∧ ¬ f.Parses e k) ∧
      ∀ c, s.persistent c → (s.calls c).countP (Matches e k) ≤ 1
  | _ => True

structure HookInv (s : World E ε τ) : Prop where
  heap : Heap s
  below : ∀ f fs, s.stack = f :: fs → ∀ g ∈ fs, ∃ p, g.parsing = some p
  attached : ∀ f ∈ s.stack, ∀ p, f.parsing = some p →
    s.waiting.lookup f.emitter = some f.emq ∧ (s.emqs f.emq).lookup p.key = some p.queue
  between : ∀ f ∈ s.stack, f.parsing = none → s.waiting.lookup f.emitter = some f.emq ∨
    s.waiting.lookup f.emitter = none ∧ ∀ k, (s.emqs f.emq).lookup k = none
  keys : ∀ f ∈ s.stack, (∀ k ∈ f.todo, f.Keys k) ∧ ∀ p, f.parsing = some p → f.Keys p.key
  apart : s.stack.Pairwise fun f g => ∀ k, f.Keys k → ¬ g.Parses f.emitter k
  dueLt : ∀ f ∈ s.stack, ∀ c, f.due c = true → c < s.fresh
  held : ∀ c, s.persistent c = true → ∀ e k,
    (s.calls c).count (e, k) = (s.live e k).count c + flying s.stack c e k
  progress : ∀ f ∈ s.stack, ∀ c, f.due c = true → s.persistent c = true →
    f.ran.count c + ahead (s.calls c) f c = 1
  records : ∀ r ∈ s.records, ∀ c, r.due c = true → r.alive c = true → r.ran.count c = 1

theorem hookInv_init : HookInv (init : World E ε τ) where
  heap := heap_init
  below := by intro f fs h; cases h
  attached := by intro f h; cases h
  between := by intro f h; cases h
  keys := by intro f h; cases h
  apart := List.Pairwise.nil
  dueLt := by intro f h; cases h
  held := by intro c h; cases h
  progress := by intro f h; cases h
  records := by intro r h; cases h

theorem countP_matches {e : E} {k : Key ε} (hk : k ≠ .star) (l : List (E × Key ε)) :
    l.countP (Matches e k) = l.count (e, .star) + l.count (e, k) := by
  induction l with
  | nil => rfl
  | cons r l ih =>
    obtain ⟨e', k'⟩ := r
    rw [countP_cons, count_cons, count_cons, ih]
    by_cases he : e' = e
    · subst he
      by_cases hs : k' = .star
      · subst hs
        simp [Matches, Ne.symm hk]
        omega
      by_cases hk' : k' = k
      · subst hk'
        simp [Matches, hk]
        omega
      · simp [Matches, hs, hk']
    · simp [Matches, he]

theorem persistent_lt {s : World E ε τ} (h : Heap s) {c : Nat} (hc : s.persistent c = true) :
    c < s.fresh := by
  by_contra hge
  have := (h.unused c (Nat.le_of_not_lt hge)).1
  simp [World.persistent, this] at hc

theorem persistent_of_emptied {s : World E ε τ} {c d : Nat}
    (h : World.persistent { s with cells := update s.cells c none } d = true) :
    d ≠ c ∧ s.persistent d = true := by
  by_cases hc : d = c
  · subst hc
    simp [World.persistent] at h
  · simp only [World.persistent, update_of_ne hc] at h
    exact ⟨hc, h⟩

section Emit

variable {s : World E ε τ} {e : E} {k : Key ε}

theorem HookInv.count_live (h : HookInv s) (hsafe : ∀ f ∈ s.stack, ¬ f.Parses e k) {c : Nat}
    (hc : s.persistent c = true) : (s.calls c).count (e, k) = (s.live e k).count c := by
  rw [h.held c hc e k, flying_zero hsafe c, Nat.add_zero]

theorem due_count (hk : k ≠ .star) {c : Nat} (hdue : s.due e k c = true) :
    1 ≤ (s.calls c).count (e, .star) + (s.calls c).count (e, k) := by
  simp only [World.due, Bool.and_eq_true] at hdue
  rw [← countP_matches hk]
  obtain ⟨r, hr, hm⟩ := any_eq_true.mp hdue.2
  exact countP_pos_iff.mpr ⟨r, hr, hm⟩

theorem HookInv.emit (h : HookInv s) (hctl : Control s) (hsafe : HooksSafe s (.emit e k)) :
    HookInv (s.emit e k) := by
  obtain ⟨hstar, hparse, honce⟩ := hsafe
  have hheap := h.heap.emit e k
  unfold World.emit at hheap ⊢
  split at hheap
  · rename_i hnone
    refine { h with heap := hheap, records := ?_ }
    intro r hr c hdue halive
    rcases mem_append.mp hr with hr | hr
    · exact h.records r hr c hdue halive
    -- nobody is attached to an emitter that has no table
    rw [mem_singleton] at hr
    subst hr
    have hlive : ∀ k, s.live e k = [] := by
      intro k
      simp [World.live, hnone]
    have h1 := h.count_live (fun f hf => (hparse f hf).1) halive
    have h2 := h.count_live (fun f hf => (hparse f hf).2) halive
    have h3 := due_count hstar hdue
    rw [hlive] at h1 h2
    rw [h1, h2] at h3
    simp at h3
  · rename_i m hm
    refine ⟨hheap, ?_, ?_, ?_, ?_, ?_, ?_, ?_, ?_, h.records⟩
    · intro f fs heq g hg
      cases heq
      cases hs : s.stack with
      | nil =>
        rw [hs] at hg
        cases hg
      | cons t fs' =>
        rw [hs] at hg
        rcases mem_cons.mp hg with rfl | hg
        · obtain ⟨p, hp, -⟩ := hctl g (by rw [hs]; rfl)
          exact ⟨p, hp⟩
        · exact h.below t fs' hs g hg
    · intro f hf p hp
      rcases mem_cons.mp hf with rfl | hf
      · cases hp
      · exact h.attached f hf p hp
    · intro f hf hp
      rcases mem_cons.mp hf with rfl | hf
      · exact Or.inl hm
      · exact h.between f hf hp
    · intro f hf
      rcases mem_cons.mp hf with rfl | hf
      · refine ⟨?_, by intro p hp; cases hp⟩
        intro k' hk'
        simpa [Keys] using hk'
      · exact h.keys f hf
    · refine List.Pairwise.cons ?_ h.apart
      intro g hg k' hk'
      rcases hk' with rfl | rfl
      · exact (hparse g hg).1
      · exact (hparse g hg).2
    · intro f hf c hc
      rcases mem_cons.mp hf with rfl | hf
      · simp only [World.due, Bool.and_eq_true] at hc
        exact persistent_lt h.heap hc.1
      · exact h.dueLt f hf c hc
    · intro c hc e' k'
      show _ = _ + flying (_ :: s.stack) c e' k'
      rw [flying_cons, inFlight_none rfl, Nat.zero_add]
      exact h.held c hc e' k'
    · intro f hf c hdue hc
      rcases mem_cons.mp hf with rfl | hf
      · have h1 := due_count hstar hdue
        have h2 := honce c hc
        rw [countP_matches hstar] at h2
        simp only [ahead, map_cons, map_nil, sum_cons, sum_nil,
          count_nil]
        omega
      · exact h.progress f hf c hdue hc

end Emit

section Delivery

variable {s s' : World E ε τ} {f t : Frame E ε τ} {fs : List (Frame E ε τ)} {p : Parse ε}

theorem HookInv.withTop (h : HookInv s) (hstack : s.stack = f :: fs) (hheap : Heap s')
    (hstack' : s'.stack = t :: fs) (hemitter : t.emitter = f.emitter)
    (hevent : t.event = f.event) (hdue : t.due = f.due) (hfresh : s.fresh ≤ s'.fresh)
    (hcalls : s'.calls = s.calls) (hrecords : s'.records = s.records)
    (hpersistent : ∀ c, s'.persistent c = true → s.persistent c = true)
    (hattached : ∀ p', t.parsing = some p' → s'.waiting.lookup t.emitter = some t.emq ∧
      (s'.emqs t.emq).lookup p'.key = some p'.queue)
    (hbelow : ∀ g ∈ fs, ∀ p', g.parsing = some p' →
      s'.waiting.lookup g.emitter = some g.emq ∧
      (s'.emqs g.emq).lookup p'.key = some p'.queue)
    (hbetween : t.parsing = none → s'.waiting.lookup t.emitter = some t.emq ∨
      s'.waiting.lookup t.emitter = none ∧ ∀ k, (s'.emqs t.emq).lookup k = none)
    (hkeys : (∀ k ∈ t.todo, f.Keys k) ∧ ∀ p', t.parsing = some p' → f.Keys p'.key)
    (hheld : ∀ c, s'.persistent c = true → ∀ e k,
      (s'.live e k).count c + t.inFlight c e k = (s.live e k).count c + f.inFlight c e k)
    (hprogress : ∀ c, s'.persistent c = true →
      t.ran.count c + ahead (s.calls c) t c = f.ran.count c + ahead (s.calls c) f c) :
    HookInv s' := by
  have hmem : ∀ g ∈ fs, g ∈ s.stack := fun _ hg => hstack ▸ mem_cons_of_mem _ hg
  have hf : f ∈ s.stack := hstack ▸ mem_cons_self
  have hkeq : ∀ k, t.Keys k ↔ f.Keys k := by
    intro k
    simp [Keys, hevent]
  have happ := h.apart
  rw [hstack, pairwise_cons] at happ
  refine ⟨hheap, ?_, ?_, ?_, ?_, ?_, ?_, ?_, ?_, by rw [hrecords]; exact h.records⟩
  · intro g gs heq g' hg'
    rw [hstack'] at heq
    cases heq
    exact h.below f fs hstack g' hg'
  · intro g hg p' hp'
    rw [hstack'] at hg
    rcases mem_cons.mp hg with rfl | hg
    · exact hattached p' hp'
    · exact hbelow g hg p' hp'
  · intro g hg hp'
    rw [hstack'] at hg
    rcases mem_cons.mp hg with rfl | hg
    · exact hbetween hp'
    · obtain ⟨p', hp''⟩ := h.below f fs hstack g hg
      rw [hp''] at hp'
      cases hp'
  · intro g hg
    rw [hstack'] at hg
    rcases mem_cons.mp hg with rfl | hg
    · exact ⟨fun k hk => (hkeq k).mpr (hkeys.1 k hk), fun p' hp' => (hkeq _).mpr (hkeys.2 p' hp')⟩
    · exact h.keys g (hmem g hg)
  · rw [hstack', pairwise_cons]
    refine ⟨?_, happ.2⟩
    intro g hg k hk
    rw [hemitter]
    exact happ.1 g hg k ((hkeq k).mp hk)
  · intro g hg c hc
    rw [hstack'] at hg
    rcases mem_cons.mp hg with rfl | hg
    · rw [hdue] at hc
      exact Nat.lt_of_lt_of_le (h.dueLt f hf c hc) hfresh
    · exact Nat.lt_of_lt_of_le (h.dueLt g (hmem g hg) c hc) hfresh
  · intro c hc e k
    have hold := h.held c (hpersistent c hc) e k
    have hnew := hheld c hc e k
    rw [hstack, flying_cons] at hold
    rw [hcalls, hstack', flying_cons]
    omega
  · intro g hg c hd hc
    rw [hcalls]
    rw [hstack'] at hg
    rcases mem_cons.mp hg with rfl | hg
    · rw [hdue] at hd
      rw [hprogress c hc]
      exact h.progress f hf c hd (hpersistent c hc)
    · exact h.progress g (hmem g hg) c hd (hpersistent c hc)

variable {k : Key ε}

theorem HookInv.top_apart (h : HookInv s) (hstack : s.stack = f :: fs)
    (hk : f.Keys k) : ∀ g ∈ fs, ¬ g.Parses f.emitter k := by
  have happ := h.apart
  rw [hstack, pairwise_cons] at happ
  exact fun g hg => happ.1 g hg k hk

theorem HookInv.mem_below (hstack : s.stack = f :: fs) {g : Frame E ε τ} (hg : g ∈ fs) :
    g ∈ s.stack := by
  rw [hstack]
  exact mem_cons_of_mem _ hg

theorem HookInv.count_next (h : HookInv s) (hstack : s.stack = f :: fs)
    (hp : f.parsing = none) (hk : f.Keys k) {c : Nat}
    (hc : s.persistent c = true) :
    (s.calls c).count (f.emitter, k) = (s.live f.emitter k).count c := by
  apply h.count_live _ hc
  intro g hg
  rw [hstack] at hg
  rcases mem_cons.mp hg with rfl | hg
  · rintro ⟨-, p', hp', -⟩
    rw [hp] at hp'
    cases hp'
  · exact h.top_apart hstack hk g hg

theorem HookInv.startParse (h : HookInv s) (hstack : s.stack = f :: fs)
    (hp : f.parsing = none) {ks : List (Key ε)} (htodo : f.todo = k :: ks) :
    HookInv (s.startParse f fs k ks) := by
  have hheap := h.heap.startParse hstack hp k ks
  have hlive' : ∀ e k', (s.startParse f fs k ks).live e k' =
      if s.waiting.lookup e = some f.emq ∧ k' = k then [] else s.live e k' :=
    live_startParse h.heap k ks
  have hf : f ∈ s.stack := hstack ▸ mem_cons_self
  obtain ⟨hkeys, -⟩ := h.keys f hf
  have hk : f.Keys k := hkeys k (by rw [htodo]; exact mem_cons_self)
  have hks : ∀ k' ∈ ks, f.Keys k' := fun k' hk' =>
    hkeys k' (by rw [htodo]; exact mem_cons_of_mem _ hk')
  have hbet := h.between f hf hp
  unfold World.startParse at hheap hlive' ⊢
  split
  · rename_i hq
    -- the event has no queue, so that no hook is registered to it
    have hempty : s.live f.emitter k = [] := by
      rcases hbet with hw | ⟨hw, -⟩
      · simp [World.live, hw, hq]
      · simp [World.live, hw]
    rw [hq] at hheap
    refine h.withTop hstack (t := { f with todo := ks }) hheap rfl rfl rfl rfl
      (Nat.le_refl _) rfl rfl (fun _ hc => hc) ?_ ?_ (fun _ => hbet) ⟨hks, ?_⟩ ?_ ?_
    · intro p' hp'
      rw [hp] at hp'
      cases hp'
    · exact fun g hg => h.attached g (HookInv.mem_below hstack hg)
    · intro p' hp'
      rw [hp] at hp'
      cases hp'
    · intro c hc e k'
      rfl
    · intro c hc
      have hcount := h.count_next hstack hp hk hc
      rw [hempty] at hcount
      simp only [ahead, htodo, map_cons, sum_cons, hcount, count_nil]
      omega
  · rename_i q hq
    have hw : s.waiting.lookup f.emitter = some f.emq := by
      rcases hbet with hw | ⟨-, hall⟩
      · exact hw
      · rw [hall k] at hq
        cases hq
    have hlive : s.live f.emitter k = s.queues q := live_eq hw hq
    simp only [hq] at hheap hlive'
    refine h.withTop hstack (t := { f with
      todo := ks, parsing := some ⟨k, s.queues q, s.fresh, none⟩ }) hheap rfl rfl rfl rfl
      (Nat.le_succ _) rfl rfl (fun _ hc => hc) ?_ ?_ (by intro hp'; cases hp') ⟨hks, ?_⟩ ?_ ?_
    · rintro p' ⟨⟩
      exact ⟨hw, lookup_install.mpr (Or.inl ⟨rfl, rfl, rfl⟩)⟩
    · intro g hg p' hp'
      obtain ⟨h1, h2⟩ := h.attached g (HookInv.mem_below hstack hg) p' hp'
      refine ⟨h1, lookup_install.mpr (Or.inr ⟨?_, h2⟩)⟩
      rintro ⟨hemq, hkey⟩
      rw [hemq] at h1
      have := h.heap.waiting_inj g.emitter f.emitter f.emq h1 hw
      exact h.top_apart hstack hk g hg ⟨this, p', hp', hkey⟩
    · rintro p' ⟨⟩
      exact hk
    · intro c hc e k'
      rw [hlive' e k', inFlight_none hp, inFlight_some rfl]
      by_cases heq : f.emitter = e ∧ k = k'
      · obtain ⟨rfl, rfl⟩ := heq
        rw [if_pos ⟨hw, rfl⟩, if_pos ⟨rfl, rfl⟩, hlive]
        simp
      · rw [if_neg, if_neg heq]
        rintro ⟨hw', rfl⟩
        exact heq ⟨h.heap.waiting_inj f.emitter e f.emq hw hw', rfl⟩
    · intro c hc
      have hcount := h.count_next hstack hp hk hc
      rw [hlive] at hcount
      simp only [ahead, htodo, hp, map_cons, sum_cons, hcount]
      omega

theorem HookInv.runcell (h : HookInv s) (hstack : s.stack = f :: fs) (hp : f.parsing = some p)
    (hcur : p.current = none) {c : Nat} {cs : List Nat} (hrest : p.rest = c :: cs) :
    HookInv (s.runcell f fs p c cs) := by
  have hheap := h.heap.runcell hstack hp hrest
  have hf : f ∈ s.stack := hstack ▸ mem_cons_self
  obtain ⟨hatt1, hatt2⟩ := h.attached f hf p hp
  obtain ⟨hkeys1, hkeys2⟩ := h.keys f hf
  have hbelow := fun g hg => h.attached g (HookInv.mem_below hstack hg)
  unfold World.runcell at hheap ⊢
  split
  · rename_i hcell
    rw [hcell] at hheap
    refine h.withTop hstack (t := { f with parsing := some { p with rest := cs } }) hheap rfl
      rfl rfl rfl (Nat.le_refl _) rfl rfl (fun _ hc => hc) ?_ hbelow (by intro hp'; cases hp')
      ⟨hkeys1, ?_⟩ ?_ ?_
    · rintro p' ⟨⟩
      exact ⟨hatt1, hatt2⟩
    · rintro p' ⟨⟩
      exact hkeys2 p hp
    · intro c' hc' e k
      have hne : c ≠ c' := by
        rintro rfl
        simp [World.persistent, hcell] at hc'
      rw [inFlight_some hp, inFlight_some rfl, hrest, count_cons_of_ne hne]
      rfl
    · intro c' hc'
      have hne : c ≠ c' := by
        rintro rfl
        simp [World.persistent, hcell] at hc'
      simp only [ahead, hp, hrest, count_cons_of_ne hne]
  · rename_i t hcell
    simp only [hcell] at hheap
    refine h.withTop hstack (t := { f with
      parsing := some { p with rest := cs }
      wokenup := f.wokenup ++ [(t, .signal f.number)] }) hheap rfl rfl rfl rfl (Nat.le_refl _)
      rfl rfl (fun c' hc' => (persistent_of_emptied hc').2) ?_ hbelow
      (by intro hp'; cases hp') ⟨hkeys1, ?_⟩ ?_ ?_
    · rintro p' ⟨⟩
      exact ⟨hatt1, hatt2⟩
    · rintro p' ⟨⟩
      exact hkeys2 p hp
    · intro c' hc' e k
      have hne : c ≠ c' := Ne.symm (persistent_of_emptied hc').1
      rw [inFlight_some hp, inFlight_some rfl, hrest, count_cons_of_ne hne]
      rfl
    · intro c' hc'
      have hne : c ≠ c' := Ne.symm (persistent_of_emptied hc').1
      simp only [ahead, hp, hrest, count_cons_of_ne hne]
  · rename_i once hcell
    simp only [hcell] at hheap
    refine h.withTop hstack (t := { f with
      parsing := some { p with rest := cs, current := some c }, ran := f.ran ++ [c] }) hheap rfl
      rfl rfl rfl (Nat.le_refl _) rfl rfl (fun _ hc => hc) ?_ hbelow (by intro hp'; cases hp')
      ⟨hkeys1, ?_⟩ ?_ ?_
    · rintro p' ⟨⟩
      exact ⟨hatt1, hatt2⟩
    · rintro p' ⟨⟩
      exact hkeys2 p hp
    · intro c' hc' e k
      have hsame : World.live { s with stack := { f with
          parsing := some { p with rest := cs, current := some c }
          ran := f.ran ++ [c] } :: fs } e k = s.live e k := live_congr rfl rfl rfl e k
      rw [inFlight_some hp, inFlight_some rfl, hrest, hcur, count_cons, hsame]
      by_cases hcc : c = c'
      · subst hcc
        simp
      · simp [hcc]
    · intro c' hc'
      simp only [ahead, hp, hrest, count_cons, count_append, count_nil]
      omega

/-- When the queue of the frame on top has come out empty, taking it away changes no
queue. -/
theorem HookInv.live_endParse (h : HookInv s) (hstack : s.stack = f :: fs)
    (hp : f.parsing = some p) (e : E) (k : Key ε) :
    (s.endParse f fs p).live e k = s.live e k := by
  obtain ⟨hw, hq⟩ := h.attached f (by rw [hstack]; exact mem_cons_self) p hp
  unfold World.endParse
  split
  · rename_i hempty
    by_cases heq : e = f.emitter ∧ k = p.key
    · obtain ⟨rfl, rfl⟩ := heq
      rw [live_eq hw hq, hempty]
      by_cases he : LuaTable.isEmpty ((s.emqs f.emq).erase p.key) = true
      · simp [World.live, he, AList.lookup_erase]
      · simp [World.live, he, hw, AList.lookup_erase]
    · cases hm : s.waiting.lookup e with
      | none =>
        have hnone : (if LuaTable.isEmpty ((s.emqs f.emq).erase p.key) = true then
            s.waiting.erase f.emitter else s.waiting).lookup e = none := by
          split
          · have : e ≠ f.emitter := by
              rintro rfl
              rw [hw] at hm
              cases hm
            rw [AList.lookup_erase_ne this, hm]
          · exact hm
        simp [World.live, hm, hnone]
      | some m =>
        by_cases hemitter : e = f.emitter
        · subst hemitter
          have hk : k ≠ p.key := fun hk => heq ⟨rfl, hk⟩
          rw [hw] at hm
          obtain rfl : f.emq = m := Option.some.inj hm
          have hlook := AList.lookup_erase_ne (s := s.emqs f.emq) hk
          by_cases he : LuaTable.isEmpty ((s.emqs f.emq).erase p.key) = true
          · have hnone := LuaTable.lookup_of_isEmpty he k
            rw [hlook] at hnone
            simp [World.live, he, hw, hnone, AList.lookup_erase]
          · simp [World.live, he, hw, hlook]
        · have hne : m ≠ f.emq := by
            rintro rfl
            exact hemitter (h.heap.waiting_inj e f.emitter _ hm hw)
          have hsome : (if LuaTable.isEmpty ((s.emqs f.emq).erase p.key) = true then
              s.waiting.erase f.emitter else s.waiting).lookup e = some m := by
            split
            · rw [AList.lookup_erase_ne hemitter, hm]
            · exact hm
          simp [World.live, hm, hsome, update_of_ne hne]
  · exact live_congr rfl rfl rfl e k

theorem HookInv.endParse (h : HookInv s) (hstack : s.stack = f :: fs) (hp : f.parsing = some p)
    (hcur : p.current = none) (hrest : p.rest = []) : HookInv (s.endParse f fs p) := by
  have hheap := h.heap.endParse (p := p) hstack
  have hlive := fun e k => h.live_endParse hstack hp e k
  have hf : f ∈ s.stack := hstack ▸ mem_cons_self
  obtain ⟨hw, hq⟩ := h.attached f hf p hp
  obtain ⟨hkeys1, hkeys2⟩ := h.keys f hf
  have hflight : ∀ c e k, f.inFlight c e k = 0 := by
    intro c e k
    rw [inFlight_some hp, hrest, hcur]
    simp
  have hprogress : ∀ c, f.ran.count c + ahead (s.calls c) { f with parsing := none } c =
      f.ran.count c + ahead (s.calls c) f c := by
    intro c
    simp [ahead, hp, hrest]
  unfold World.endParse at hheap hlive ⊢
  split
  · rename_i hempty
    simp only [if_pos hempty] at hheap hlive
    refine h.withTop hstack (t := { f with parsing := none }) hheap rfl rfl rfl rfl
      (Nat.le_refl _) rfl rfl (fun _ hc => hc) (by intro p' hp'; cases hp') ?_ ?_
      ⟨hkeys1, by intro p' hp'; cases hp'⟩ ?_ (fun c _ => hprogress c)
    · intro g hg p' hp'
      obtain ⟨h1, h2⟩ := h.attached g (HookInv.mem_below hstack hg) p' hp'
      have hkey : ¬(g.emq = f.emq ∧ p'.key = p.key) := by
        rintro ⟨hemq, hkey⟩
        rw [hemq] at h1
        have := h.heap.waiting_inj g.emitter f.emitter f.emq h1 hw
        exact h.top_apart hstack (hkeys2 p hp) g hg ⟨this, p', hp', hkey⟩
      have h2' : (update s.emqs f.emq ((s.emqs f.emq).erase p.key) g.emq).lookup p'.key
          = some p'.queue := by
        by_cases hemq : g.emq = f.emq
        · have hk : p'.key ≠ p.key := fun hk => hkey ⟨hemq, hk⟩
          rw [hemq] at h2 ⊢
          rw [update_self, AList.lookup_erase_ne hk]
          exact h2
        · rw [update_of_ne hemq]
          exact h2
      refine ⟨?_, h2'⟩
      dsimp only
      split
      · rename_i he
        -- a table that another frame parses is not empty
        have hne : g.emitter ≠ f.emitter := by
          intro hem
          rw [hem, hw] at h1
          rw [← Option.some.inj h1, update_self,
            LuaTable.lookup_of_isEmpty he] at h2'
          cases h2'
        rw [AList.lookup_erase_ne hne]
        exact h1
      · exact h1
    · intro _
      dsimp only
      split
      · rename_i he
        right
        refine ⟨AList.lookup_erase _ _, ?_⟩
        intro k
        rw [update_self]
        exact LuaTable.lookup_of_isEmpty he k
      · exact Or.inl hw
    · intro c _ e k
      rw [hlive e k, hflight, inFlight_none rfl]
  · rename_i hempty
    simp only [if_neg hempty] at hheap hlive
    refine h.withTop hstack (t := { f with parsing := none }) hheap rfl rfl rfl rfl
      (Nat.le_refl _) rfl rfl (fun _ hc => hc) (by intro p' hp'; cases hp')
      (fun g hg => h.attached g (HookInv.mem_below hstack hg)) (fun _ => Or.inl hw)
      ⟨hkeys1, by intro p' hp'; cases hp'⟩ ?_ (fun c _ => hprogress c)
    intro c _ e k
    rw [hlive e k, hflight, inFlight_none rfl]

theorem HookInv.endSignal (h : HookInv s) (hstack : s.stack = f :: fs)
    (hp : f.parsing = none) (htodo : f.todo = []) : HookInv (s.endSignal f fs) := by
  have hmem : ∀ g ∈ fs, g ∈ s.stack := fun g hg => HookInv.mem_below hstack hg
  have happ := h.apart
  rw [hstack, pairwise_cons] at happ
  refine ⟨h.heap.endSignal hstack, ?_, fun g hg => h.attached g (hmem g hg),
    fun g hg => h.between g (hmem g hg), fun g hg => h.keys g (hmem g hg), happ.2,
    fun g hg => h.dueLt g (hmem g hg), ?_, fun g hg => h.progress g (hmem g hg), ?_⟩
  · intro g gs heq g' hg'
    have heq' : fs = g :: gs := heq
    exact h.below f fs hstack g' (by rw [heq']; exact mem_cons_of_mem _ hg')
  · intro c hc e k
    have hheld := h.held c hc e k
    rw [hstack, flying_cons, inFlight_none hp, Nat.zero_add] at hheld
    exact hheld
  · intro r hr c hdue halive
    rcases mem_append.mp hr with hr | hr
    · exact h.records r hr c hdue halive
    · rw [mem_singleton] at hr
      subst hr
      have := h.progress f (by rw [hstack]; exact mem_cons_self) c hdue halive
      simpa [ahead, hp, htodo] using this

theorem HookInv.leave (h : HookInv s) (killself : Bool) : HookInv (s.leave killself) := by
  have hheap := h.heap.leave killself
  unfold World.leave at hheap ⊢
  split
  · exact h
  rename_i f fs hstack
  split
  · exact h
  rename_i p hp
  split
  · exact h
  rename_i c hcur
  have hf : f ∈ s.stack := hstack ▸ mem_cons_self
  obtain ⟨hw, hq⟩ := h.attached f hf p hp
  obtain ⟨hkeys1, hkeys2⟩ := h.keys f hf
  have hbelow := fun g hg => h.attached g (HookInv.mem_below hstack hg)
  simp only [hstack, hp, hcur] at hheap
  dsimp only
  split
  · rename_i hgone
    rw [if_pos hgone] at hheap
    refine h.withTop hstack (t := { f with parsing := some { p with current := none } })
      hheap rfl rfl rfl rfl (Nat.le_refl _) rfl rfl
      (fun c' hc' => (persistent_of_emptied hc').2) ?_ hbelow (by intro hp'; cases hp')
      ⟨hkeys1, ?_⟩ ?_ ?_
    · rintro p' ⟨⟩
      exact ⟨hw, hq⟩
    · rintro p' ⟨⟩
      exact hkeys2 p hp
    · intro c' hc' e k
      have hne : c ≠ c' := Ne.symm (persistent_of_emptied hc').1
      rw [inFlight_some hp, inFlight_some rfl, hcur]
      simp only [Option.some.injEq, hne, if_false, reduceCtorEq]
      rfl
    · intro c' _
      simp [ahead, hp]
  · rename_i hstays
    rw [if_neg hstays] at hheap
    have hlive := fun e' k' => live_append h.heap hw hq c e' k'
    refine h.withTop hstack (t := { f with parsing := some { p with current := none } })
      hheap rfl rfl rfl rfl (Nat.le_refl _) rfl rfl (fun _ hc' => hc') ?_ hbelow
      (by intro hp'; cases hp') ⟨hkeys1, ?_⟩ ?_ ?_
    · rintro p' ⟨⟩
      exact ⟨hw, hq⟩
    · rintro p' ⟨⟩
      exact hkeys2 p hp
    · intro c' hc' e k
      have hsame : World.live { s with
          queues := update s.queues p.queue (s.queues p.queue ++ [c])
          stack := { f with parsing := some { p with current := none } } :: fs } e k =
          if e = f.emitter ∧ k = p.key then s.live f.emitter p.key ++ [c]
          else s.live e k := by
        rw [← hlive e k]
        exact live_congr rfl rfl rfl e k
      rw [hsame, inFlight_some hp, inFlight_some rfl, hcur]
      by_cases heq : f.emitter = e ∧ p.key = k
      · obtain ⟨rfl, rfl⟩ := heq
        simp only [and_self, if_true, count_append, count_singleton,
          Option.some.injEq, reduceCtorEq, if_false, beq_iff_eq]
        omega
      · rw [if_neg heq, if_neg heq, if_neg (fun hcon => heq ⟨hcon.1.symm, hcon.2.symm⟩)]
    · intro c' _
      simp [ahead, hp]

theorem HookInv.advance (h : HookInv s) : HookInv s.advance := by
  unfold World.advance
  split
  · exact h
  rename_i f fs hstack
  split
  · rename_i hp
    split
    · rename_i htodo
      exact h.endSignal hstack hp htodo
    · rename_i k ks htodo
      exact h.startParse hstack hp htodo
  · rename_i p hp
    split
    · exact h
    · rename_i hcur hrest
      exact h.runcell hstack hp hcur hrest
    · rename_i hcur hrest
      exact h.endParse hstack hp hcur hrest

end Delivery

section Other

variable {s : World E ε τ}

theorem HookInv.parsing_of_control (h : HookInv s) (hctl : Control s) {f : Frame E ε τ}
    (hf : f ∈ s.stack) : f.parsing ≠ none := by
  cases hs : s.stack with
  | nil =>
    rw [hs] at hf
    cases hf
  | cons g gs =>
    rw [hs] at hf
    rcases mem_cons.mp hf with rfl | hf
    · obtain ⟨p, hp, -⟩ := hctl f (by rw [hs]; rfl)
      rw [hp]
      simp
    · obtain ⟨p, hp⟩ := h.below g gs hs f hf
      rw [hp]
      simp

theorem flying_fresh {stack : List (Frame E ε τ)} {c : Nat}
    (h : ∀ f ∈ stack, ∀ p, f.parsing = some p → (∀ c' ∈ p.rest, c' < c) ∧
      ∀ c', p.current = some c' → c' < c) (e : E) (k : Key ε) : flying stack c e k = 0 := by
  induction stack with
  | nil => rfl
  | cons f fs ih =>
    rw [flying_cons, ih (fun g hg => h g (mem_cons_of_mem _ hg)), Nat.add_zero]
    cases hp : f.parsing with
    | none => exact inFlight_none hp
    | some p =>
      obtain ⟨h1, h2⟩ := h f mem_cons_self p hp
      have hcount : p.rest.count c = 0 :=
        count_eq_zero.mpr fun hc => Nat.lt_irrefl _ (h1 c hc)
      have hcur : p.current ≠ some c := fun hc => Nat.lt_irrefl _ (h2 c hc)
      rw [inFlight_some hp, hcount, if_neg hcur]
      simp

theorem persistent_addCell (cell : Cell τ) (calls : List (E × Key ε)) (timers : List Nat)
    {c : Nat} (hc : c ≠ s.fresh) :
    (s.addCell cell calls timers).persistent c = s.persistent c := by
  simp only [World.persistent, World.addCell, update_of_ne hc]

theorem HookInv.newCell (h : HookInv s) (hctl : Control s) (cell : Cell τ)
    (emitters : List E) (keys : List (Key ε)) (timed : Bool) :
    HookInv (s.newCell cell emitters keys timed) := by
  obtain ⟨timers, -, hheap, hsame, hlive⟩ := newCell_spec h.heap cell emitters keys timed
  generalize s.newCell cell emitters keys timed = s' at hheap hsame hlive
  have hstack : s'.stack = s.stack := hsame.stack
  have hpers : ∀ c, c ≠ s.fresh → s'.persistent c = s.persistent c := by
    intro c hc
    rw [← persistent_addCell (s := s) cell
      (registrations emitters keys timed) timers hc]
    simp only [World.persistent, hsame.cells]
  have hcalls : ∀ c, c ≠ s.fresh → s'.calls c = s.calls c := by
    intro c hc
    rw [hsame.calls, World.addCell]
    exact update_of_ne hc _ _
  have hnew : s'.calls s.fresh = registrations emitters keys timed := by
    rw [hsame.calls, World.addCell]
    exact update_self _ _ _
  refine ⟨hheap, ?_, ?_, ?_, ?_, ?_, ?_, ?_, ?_, ?_⟩
  · rw [hstack]
    exact h.below
  · intro f hf p hp
    rw [hstack] at hf
    obtain ⟨h1, h2⟩ := h.attached f hf p hp
    exact ⟨hsame.emq _ _ h1, hsame.queue _ _ _ h2⟩
  · intro f hf hp
    rw [hstack] at hf
    exact absurd hp (h.parsing_of_control hctl hf)
  · rw [hstack]
    exact h.keys
  · rw [hstack]
    exact h.apart
  · intro f hf c hc
    rw [hstack] at hf
    exact Nat.lt_of_lt_of_le (Nat.lt_succ_of_lt (h.dueLt f hf c hc)) hsame.fresh
  · intro c hc e k
    rw [hlive e k, hstack, count_append, count_replicate]
    by_cases hcf : c = s.fresh
    · subst hcf
      have hzero : (s.live e k).count s.fresh = 0 := by
        rw [count_eq_zero]
        intro hmem
        rw [World.live] at hmem
        split at hmem
        · cases hmem
        · split at hmem
          · cases hmem
          · exact Nat.lt_irrefl _ (h.heap.member_lt _ _ hmem)
      rw [hzero, hnew, flying_fresh (fun f hf p hp => (h.heap.parse_lt f hf p hp).2)]
      simp
    · have hne : ¬((s.fresh == c) = true) := by simpa using Ne.symm hcf
      rw [if_neg hne, Nat.add_zero, hcalls c hcf]
      rw [hpers c hcf] at hc
      exact h.held c hc e k
  · intro f hf c hdue hc
    rw [hstack] at hf
    have hcf : c ≠ s.fresh := Nat.ne_of_lt (h.dueLt f hf c hdue)
    rw [hcalls c hcf]
    rw [hpers c hcf] at hc
    exact h.progress f hf c hdue hc
  · rw [hsame.records]
    exact h.records

theorem HookInv.congr {s' : World E ε τ} (h : HookInv s) (hheap : Heap s')
    (hstack : s'.stack = s.stack) (hfresh : s'.fresh = s.fresh) (hcalls : s'.calls = s.calls)
    (hrecords : s'.records = s.records)
    (htables : s.stack ≠ [] → s'.waiting = s.waiting ∧ s'.emqs = s.emqs)
    (hpersistent : ∀ c, s'.persistent c = true → s.persistent c = true)
    (hlive : ∀ c, s'.persistent c = true → ∀ e k, (s'.live e k).count c = (s.live e k).count c) :
    HookInv s' := by
  have hne : ∀ f ∈ s.stack, s.stack ≠ [] := fun f hf => ne_nil_of_mem hf
  refine ⟨hheap, ?_, ?_, ?_, ?_, ?_, ?_, ?_, ?_, ?_⟩
  · rw [hstack]
    exact h.below
  · intro f hf p hp
    rw [hstack] at hf
    obtain ⟨h1, h2⟩ := htables (hne f hf)
    rw [h1, h2]
    exact h.attached f hf p hp
  · intro f hf hp
    rw [hstack] at hf
    obtain ⟨h1, h2⟩ := htables (hne f hf)
    rw [h1, h2]
    exact h.between f hf hp
  · rw [hstack]
    exact h.keys
  · rw [hstack]
    exact h.apart
  · rw [hstack, hfresh]
    exact h.dueLt
  · intro c hc e k
    rw [hcalls, hlive c hc e k, hstack]
    exact h.held c (hpersistent c hc) e k
  · intro f hf c hdue hc
    rw [hstack] at hf
    rw [hcalls]
    exact h.progress f hf c hdue (hpersistent c hc)
  · rw [hrecords]
    exact h.records

theorem HookInv.kill (h : HookInv s) (c : Nat) : HookInv (s.kill c) :=
  h.congr (h.heap.kill c) rfl rfl rfl rfl (fun _ => ⟨rfl, rfl⟩)
    (fun _ hc' => (persistent_of_emptied hc').2) (fun _ _ _ _ => rfl)

theorem HookInv.gc (h : HookInv s) : HookInv s.gc := by
  have hcells : s.gc.cells = s.cells := by
    unfold World.gc
    split <;> rfl
  have hpers : s.gc.persistent = s.persistent := by
    funext c
    simp only [World.persistent, hcells]
  refine h.congr h.heap.gc ?_ ?_ ?_ ?_ ?_ (fun c hc => hpers ▸ hc) ?_
  · unfold World.gc
    split <;> rfl
  · unfold World.gc
    split <;> rfl
  · unfold World.gc
    split <;> rfl
  · unfold World.gc
    split <;> rfl
  · intro hne
    unfold World.gc
    rw [if_neg hne]
    exact ⟨rfl, rfl⟩
  · intro c hc e k
    rw [live_gc, count_filter]
    rw [hpers] at hc
    unfold World.persistent at hc
    split at hc
    · rename_i hcell
      rw [hcell]
      rfl
    · cases hc

theorem HookInv.expire (h : HookInv s) (c : Nat) (killself : Bool) :
    HookInv (s.expire c killself) := by
  have hheap := h.heap.expire c killself
  unfold World.expire at hheap ⊢
  split
  · rename_i hcell
    rw [hcell] at hheap
    exact h.congr hheap rfl rfl rfl rfl (fun _ => ⟨rfl, rfl⟩) (fun _ hc => hc)
      (fun _ _ _ _ => rfl)
  · rename_i t hcell
    simp only [hcell] at hheap
    exact h.congr hheap rfl rfl rfl rfl (fun _ => ⟨rfl, rfl⟩)
      (fun _ hc' => (persistent_of_emptied hc').2) (fun _ _ _ _ => rfl)
  · rename_i once hcell
    simp only [hcell] at hheap
    refine h.congr hheap rfl rfl rfl rfl (fun _ => ⟨rfl, rfl⟩) ?_ (fun _ _ _ _ => rfl)
    intro c' hc'
    dsimp only [World.persistent] at hc'
    split at hc'
    · rename_i hcell'
      split at hcell'
      · have := persistent_of_emptied (s := s) (c := c) (d := c') (by
          simp only [World.persistent, hcell'])
        exact this.2
      · simp [World.persistent, hcell']
    · cases hc'

end Other

theorem step_hookInv (s : World E ε τ) (e : Event E ε τ) (he : Enabled s e ∧ HooksSafe s e)
    (h : HookInv s) : HookInv (step s e) := by
  cases e with
  | emit e k => exact h.emit he.1 he.2
  | advance => exact h.advance
  | leave killself => exact h.leave killself
  | sigHook once e keys timed => exact h.newCell he.1 _ _ _ _
  | wait t emitters keys timed =>
    have hnil : s.stack = [] := he.1
    exact h.newCell (by intro f hf; rw [hnil] at hf; cases hf) _ _ _ _
  | expire c killself => exact h.expire c killself
  | kill c => exact h.kill c
  | gc => exact h.gc
  | resume =>
    exact h.congr { h.heap with } rfl rfl rfl rfl (fun _ => ⟨rfl, rfl⟩) (fun _ hc => hc)
      (fun _ _ _ _ => rfl)

/-- In every run in which no signal is emitted on a queue that is being parsed, nor with
`'*'` as its event, nor with a hook attached to it twice: a signal has run exactly once
every persistent hook that was attached to it and is not killed, and the hooks that are not
killed are attached to what they were registered to. -/
theorem hooks_run_once {s : World E ε τ}
    (h : Runs step (fun s e => Enabled s e ∧ HooksSafe s e) init s) :
    (∀ r ∈ s.records, ∀ c, r.due c = true → r.alive c = true → r.ran.count c = 1) ∧
    (s.stack = [] → ∀ c, s.persistent c = true → ∀ e k,
      (s.live e k).count c = (s.calls c).count (e, k)) := by
  have hinv : HookInv s := Runs.invariant step_hookInv h hookInv_init
  refine ⟨hinv.records, ?_⟩
  intro hnil c hc e k
  rw [hinv.held c hc e k, hnil]
  rfl

def ping : List (Event Unit Unit Unit) :=
  [.sigHook false () [.named ()] false, .emit () (.named ()), .advance, .advance, .advance,
    .leave false, .advance, .advance]

def pingInside : List (Event Unit Unit Unit) :=
  [.sigHook false () [.named ()] false, .emit () (.named ()), .advance, .advance, .advance,
    .emit () (.named ()), .advance, .advance, .advance, .advance]

theorem control_init : Control (init : World E ε τ) := by
  intro f hf
  cases hf

theorem hooks_run_once_ping :
    (ping.foldl step init).records.map Record.ran = [[0]] ∧
    ∀ r ∈ (ping.foldl step init).records, ∀ c, r.due c = true → r.alive c = true →
      r.ran.count c = 1 := by
  refine ⟨by decide, (hooks_run_once (Along.runs ?_)).1⟩
  refine ⟨⟨control_init, trivial⟩, ⟨?_, ?_, ?_, ?_⟩, ⟨trivial, trivial⟩, ⟨trivial, trivial⟩,
    ⟨trivial, trivial⟩, ⟨trivial, trivial⟩, ⟨trivial, trivial⟩, ⟨trivial, trivial⟩, trivial⟩
  · intro f hf
    cases hf
  · simp
  · intro f hf
    cases hf
  · intro c hc
    have hzero : c = 0 := by
      by_contra hne
      cases c with
      | zero => exact hne rfl
      | succ c => cases hc
    subst hzero
    decide

/-- The inner signal misses the hook whose body emits it. -/
theorem nested_signal_missed :
    ¬ ∀ s : World Unit Unit Unit, Runs step Enabled init s →
      ∀ r ∈ s.records, ∀ c, r.due c = true → r.alive c = true → r.ran.count c = 1 := by
  intro hall
  have hrun : Along step Enabled (init : World Unit Unit Unit) pingInside := by
    refine ⟨control_init, ?_, trivial, trivial, trivial, ?_, trivial, trivial, trivial, trivial,
      trivial⟩
    · intro f hf
      cases hf
    · rintro f ⟨⟩
      exact ⟨_, rfl, by decide⟩
  have hrecord := hall _ hrun.runs
  have hone : ((pingInside.foldl step init).records.all fun r => r.due 0 && r.alive 0 && r.ran.count 0 == 0) = true := by
    decide
  have hlen : (pingInside.foldl step init).records ≠ [] := by
    intro hnil
    have := congrArg List.length hnil
    revert this
    decide
  obtain ⟨r, hr⟩ := exists_mem_of_ne_nil _ hlen
  have hr' := all_eq_true.mp hone r hr
  simp only [Bool.and_eq_true, beq_iff_eq] at hr'
  have := hrecord r hr 0 hr'.1.1 hr'.1.2
  omega

end Mihini.Sched.Signals
