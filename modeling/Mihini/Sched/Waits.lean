import Mihini.Sched.Signals

/-!
# A waiting task is woken once, by the first signal it waits for

The cell of a call to `wait` or `multiWait` is found in all the queues it was registered
to, or in the rest of one that is being parsed, until it is run.  When no signal is emitted
while another one that matches the same cell is still being delivered, the first match runs
the cell.
-/

set_option linter.unusedSectionVars false

namespace Mihini.Sched.Signals

open Mihini.Lib Function List

variable {E ε τ : Type} [DecidableEq E] [DecidableEq ε]

def World.waits (s : World E ε τ) (c : Nat) : Bool :=
  match s.cells c with
  | some (.task _) => true
  | _ => false

def World.matched (s : World E ε τ) (c : Nat) (r : E × Key ε) : Bool :=
  (s.calls c).any (Matches r.1 r.2)

def Frame.signal (f : Frame E ε τ) : E × Key ε := (f.emitter, f.event)

variable {s : World E ε τ}

variable {c : Nat} {k : Key ε}

theorem matched_of_mem {f : Frame E ε τ}
    (hmem : (f.emitter, k) ∈ s.calls c) (hk : f.Keys k) : s.matched c f.signal = true := by
  refine any_eq_true.mpr ⟨_, hmem, ?_⟩
  rcases hk with rfl | rfl
  · simp [Matches, Frame.signal]
  · simp [Matches, Frame.signal]

theorem mem_of_matched {e : E}
    (h : s.matched c (e, k) = true) : ∃ k', (k' = .star ∨ k' = k) ∧ (e, k') ∈ s.calls c := by
  obtain ⟨⟨e', k'⟩, hmem, hm⟩ := any_eq_true.mp h
  simp only [Matches, Bool.and_eq_true, Bool.or_eq_true, decide_eq_true_eq] at hm
  obtain ⟨rfl, hk⟩ := hm
  exact ⟨k', hk, hmem⟩

theorem mem_live {e : E} :
    c ∈ s.live e k ↔ ∃ m q, s.waiting.lookup e = some m ∧ (s.emqs m).lookup k = some q ∧
      c ∈ s.queues q := by
  constructor
  · intro h
    cases hm : s.waiting.lookup e with
    | none =>
      simp only [World.live, hm] at h
      cases h
    | some m =>
      cases hq : (s.emqs m).lookup k with
      | none =>
        simp only [World.live, hm, hq] at h
        cases h
      | some q =>
        rw [live_eq hm hq] at h
        exact ⟨m, q, rfl, hq, h⟩
  · rintro ⟨m, q, hm, hq, hc⟩
    rw [live_eq hm hq]
    exact hc

theorem waits_of_emptied {c d : Nat}
    (h : World.waits { s with cells := update s.cells c none } d = true) :
    d ≠ c ∧ s.waits d = true := by
  by_cases hc : d = c
  · subst hc
    simp [World.waits] at h
  · simp only [World.waits, update_of_ne hc] at h
    exact ⟨hc, h⟩

theorem waits_lt (h : Heap s) (hc : s.waits c = true) :
    c < s.fresh := by
  by_contra hge
  have := (h.unused c (Nat.le_of_not_lt hge)).1
  simp [World.waits, this] at hc

/-! ## Places -/

def Flying (stack : List (Frame E ε τ)) (c : Nat) (e : E) (k : Key ε) : Prop :=
  ∃ f ∈ stack, f.emitter = e ∧ ∃ p, f.parsing = some p ∧ p.key = k ∧ c ∈ p.rest

structure Places (s : World E ε τ) : Prop where
  heap : Heap s
  keys : ∀ f ∈ s.stack, (∀ k ∈ f.todo, f.Keys k) ∧ ∀ p, f.parsing = some p → f.Keys p.key
  owner : ∀ f ∈ s.stack, ∀ e, s.waiting.lookup e = some f.emq → e = f.emitter
  running : ∀ f ∈ s.stack, ∀ p, f.parsing = some p → ∀ c, p.current = some c →
    s.waits c = false
  place : ∀ c, s.waits c = true → ∀ e k, (e, k) ∈ s.calls c →
    c ∈ s.live e k ∨ Flying s.stack c e k
  captured : ∀ c, s.waits c = true → ∀ e k, c ∈ s.live e k → ∀ f ∈ s.stack, f.emitter = e →
    s.waiting.lookup e = some f.emq
  taken : ∀ c, s.waits c = true → ∀ f ∈ s.stack, ∀ p, f.parsing = some p →
    c ∉ s.live f.emitter p.key
  known : ∀ c, s.waits c = true → ∀ e k, c ∈ s.live e k → (e, k) ∈ s.calls c
  knownRest : ∀ c, s.waits c = true → ∀ f ∈ s.stack, ∀ p, f.parsing = some p → c ∈ p.rest →
    (f.emitter, p.key) ∈ s.calls c
  knownEmq : ∀ c, s.waits c = true → ∀ f ∈ s.stack, ∀ k q,
    (s.emqs f.emq).lookup k = some q → c ∈ s.queues q → (f.emitter, k) ∈ s.calls c

theorem places_init : Places (init : World E ε τ) where
  heap := heap_init
  keys := by intro f h; cases h
  owner := by intro f h; cases h
  running := by intro f h; cases h
  place := by intro c h; cases h
  captured := by intro c h; cases h
  taken := by intro c h; cases h
  known := by intro c h; cases h
  knownRest := by intro c h; cases h
  knownEmq := by intro c h; cases h

section Steps

variable {s s' : World E ε τ} {f t : Frame E ε τ} {fs : List (Frame E ε τ)} {p : Parse ε}

/-- The frame on top moves on, the tables shrink, and no waiting cell is lost. -/
theorem Places.withTop (h : Places s) (hstack : s.stack = f :: fs) (hheap : Heap s')
    (hstack' : s'.stack = t :: fs) (hemitter : t.emitter = f.emitter)
    (hevent : t.event = f.event) (hemq : t.emq = f.emq) (hcalls : s'.calls = s.calls)
    (hwaits : ∀ c, s'.waits c = true → s.waits c = true)
    (hwaiting : ∀ e m, s'.waiting.lookup e = some m → s.waiting.lookup e = some m)
    (hqueues : ∀ c, s'.waits c = true → ∀ m k q, (s'.emqs m).lookup k = some q →
      c ∈ s'.queues q → ∃ r, (s.emqs m).lookup k = some r ∧ c ∈ s.queues r)
    (hkeys : (∀ k ∈ t.todo, f.Keys k) ∧ ∀ p', t.parsing = some p' → f.Keys p'.key)
    (hrunning : ∀ p', t.parsing = some p' → ∀ c, p'.current = some c → s'.waits c = false)
    (hplace : ∀ c, s'.waits c = true → ∀ e k, (e, k) ∈ s.calls c →
      c ∈ s.live e k ∨ Flying (f :: fs) c e k → c ∈ s'.live e k ∨ Flying (t :: fs) c e k)
    (htaken : ∀ c, s'.waits c = true → ∀ p', t.parsing = some p' →
      c ∉ s'.live f.emitter p'.key)
    (hrest : ∀ c, s'.waits c = true → ∀ p', t.parsing = some p' → c ∈ p'.rest →
      (f.emitter, p'.key) ∈ s.calls c) : Places s' := by
  have hmem : ∀ g ∈ fs, g ∈ s.stack := fun _ hg => hstack ▸ mem_cons_of_mem _ hg
  have hf : f ∈ s.stack := hstack ▸ mem_cons_self
  have hkeq : ∀ k, t.Keys k ↔ f.Keys k := by
    intro k
    simp [Frame.Keys, hevent]
  have hlive : ∀ c, s'.waits c = true → ∀ e k, c ∈ s'.live e k → c ∈ s.live e k := by
    intro c hc e k hl
    obtain ⟨m, q, hm, hq, hcq⟩ := mem_live.mp hl
    obtain ⟨r, hr, hcr⟩ := hqueues c hc m k q hq hcq
    exact mem_live.mpr ⟨m, r, hwaiting e m hm, hr, hcr⟩
  refine ⟨hheap, ?_, ?_, ?_, ?_, ?_, ?_, ?_, ?_, ?_⟩
  · intro g hg
    rw [hstack'] at hg
    rcases mem_cons.mp hg with rfl | hg
    · exact ⟨fun k hk => (hkeq k).mpr (hkeys.1 k hk),
        fun p' hp' => (hkeq _).mpr (hkeys.2 p' hp')⟩
    · exact h.keys g (hmem g hg)
  · intro g hg e he
    rw [hstack'] at hg
    rcases mem_cons.mp hg with rfl | hg
    · rw [hemitter]
      rw [hemq] at he
      exact h.owner f hf e (hwaiting e _ he)
    · exact h.owner g (hmem g hg) e (hwaiting e _ he)
  · intro g hg p' hp' c hc
    rw [hstack'] at hg
    rcases mem_cons.mp hg with rfl | hg
    · exact hrunning p' hp' c hc
    · by_contra hw
      have := hwaits c (by simpa using hw)
      rw [h.running g (hmem g hg) p' hp' c hc] at this
      cases this
  · intro c hc e k hcall
    rw [hcalls] at hcall
    have hold := h.place c (hwaits c hc) e k hcall
    rw [hstack] at hold
    rw [hstack']
    exact hplace c hc e k hcall hold
  · intro c hc e k hl g hg hge
    have hold := h.captured c (hwaits c hc) e k (hlive c hc e k hl)
    obtain ⟨m, q, hm, -, -⟩ := mem_live.mp hl
    have hmold := hwaiting e m hm
    rw [hstack'] at hg
    rcases mem_cons.mp hg with rfl | hg
    · have := hold f hf (hemitter.symm.trans hge)
      rw [hmold] at this
      rw [hm, hemq]
      exact this
    · have := hold g (hmem g hg) hge
      rw [hmold] at this
      rw [hm]
      exact this
  · intro c hc g hg p' hp' hl
    rw [hstack'] at hg
    rcases mem_cons.mp hg with rfl | hg
    · rw [hemitter] at hl
      exact htaken c hc p' hp' hl
    · exact h.taken c (hwaits c hc) g (hmem g hg) p' hp' (hlive c hc _ _ hl)
  · intro c hc e k hl
    rw [hcalls]
    exact h.known c (hwaits c hc) e k (hlive c hc e k hl)
  · intro c hc g hg p' hp' hcr
    rw [hcalls]
    rw [hstack'] at hg
    rcases mem_cons.mp hg with rfl | hg
    · rw [hemitter]
      exact hrest c hc p' hp' hcr
    · exact h.knownRest c (hwaits c hc) g (hmem g hg) p' hp' hcr
  · intro c hc g hg k q hq hcq
    rw [hcalls]
    obtain ⟨r, hr, hcr⟩ := hqueues c hc g.emq k q hq hcq
    rw [hstack'] at hg
    rcases mem_cons.mp hg with rfl | hg
    · rw [hemitter]
      rw [hemq] at hr
      exact h.knownEmq c (hwaits c hc) f hf k r hr hcr
    · exact h.knownEmq c (hwaits c hc) g (hmem g hg) k r hr hcr

variable {k : Key ε} {c : Nat} {e : E}

theorem flying_of_tail (hp : f.parsing = none)
    (h : Flying (f :: fs) c e k) : Flying (t :: fs) c e k := by
  obtain ⟨g, hg, hge, p', hp', hk, hc⟩ := h
  rcases mem_cons.mp hg with rfl | hg
  · rw [hp] at hp'
    cases hp'
  · exact ⟨g, mem_cons_of_mem _ hg, hge, p', hp', hk, hc⟩

theorem Places.startParse (h : Places s) (hstack : s.stack = f :: fs)
    (hp : f.parsing = none) {ks : List (Key ε)} (htodo : f.todo = k :: ks) :
    Places (s.startParse f fs k ks) := by
  have hheap := h.heap.startParse hstack hp k ks
  have hlive' : ∀ e k', (s.startParse f fs k ks).live e k' =
      if s.waiting.lookup e = some f.emq ∧ k' = k then [] else s.live e k' :=
    live_startParse h.heap k ks
  have hf : f ∈ s.stack := hstack ▸ mem_cons_self
  obtain ⟨hkeys, -⟩ := h.keys f hf
  have hk : f.Keys k := hkeys k (by rw [htodo]; exact mem_cons_self)
  have hks : ∀ k' ∈ ks, f.Keys k' := fun k' hk' =>
    hkeys k' (by rw [htodo]; exact mem_cons_of_mem _ hk')
  unfold World.startParse at hheap hlive' ⊢
  split
  · rename_i hq
    rw [hq] at hheap
    refine h.withTop hstack (t := { f with todo := ks }) hheap rfl rfl rfl rfl rfl
      (fun _ hc => hc) (fun _ _ hm => hm) (fun c _ m k q hq hc => ⟨q, hq, hc⟩) ⟨hks, ?_⟩ ?_ ?_
      ?_ ?_
    · intro p' hp'
      rw [hp] at hp'
      cases hp'
    · intro p' hp'
      rw [hp] at hp'
      cases hp'
    · intro c _ e k' _ hor
      rcases hor with hl | hfly
      · exact Or.inl hl
      · exact Or.inr (flying_of_tail hp hfly)
    · intro c _ p' hp'
      rw [hp] at hp'
      cases hp'
    · intro c _ p' hp'
      rw [hp] at hp'
      cases hp'
  · rename_i q hq
    simp only [hq] at hheap hlive'
    refine h.withTop hstack (t := { f with
      todo := ks, parsing := some ⟨k, s.queues q, s.fresh, none⟩ }) hheap rfl rfl rfl rfl rfl
      (fun _ hc => hc) (fun _ _ hm => hm) ?_ ⟨hks, ?_⟩ ?_ ?_ ?_ ?_
    · intro c _ m k' r hr hc
      rcases lookup_install.mp hr with ⟨-, -, rfl⟩ | ⟨-, hold⟩
      · simp only [World.install, update_self] at hc
        cases hc
      · have hne : r ≠ s.fresh := Nat.ne_of_lt (h.heap.queue_lt m k' r hold).2
        simp only [World.install, update_of_ne hne] at hc
        exact ⟨r, hold, hc⟩
    · rintro p' ⟨⟩
      exact hk
    · rintro p' ⟨⟩ c hc
      cases hc
    · intro c _ e k' _ hor
      rcases hor with hl | hfly
      · rw [hlive' e k']
        split
        · rename_i hcond
          -- the queue that is taken becomes the rest of the frame
          obtain ⟨hw, rfl⟩ := hcond
          rw [live_eq hw hq] at hl
          exact Or.inr ⟨_, mem_cons_self, (h.owner f hf e hw).symm, _, rfl, rfl, hl⟩
        · exact Or.inl hl
      · exact Or.inr (flying_of_tail hp hfly)
    · rintro c hc p' ⟨⟩ hl
      rw [hlive' f.emitter k] at hl
      split at hl
      · cases hl
      · rename_i hcond
        exact hcond ⟨h.captured c hc f.emitter k hl f hf rfl, rfl⟩
    · rintro c hc p' ⟨⟩ hcr
      exact h.knownEmq c hc f hf k q hq hcr

/-- The rest of the frame on top loses a cell that does not wait any more. -/
theorem flying_of_rest {c c0 : Nat} {cs : List Nat} {p' : Parse ε}
    (hp : f.parsing = some p) (hrest : p.rest = c0 :: cs) (hne : c ≠ c0)
    (hemitter : t.emitter = f.emitter) (hp' : t.parsing = some p') (hkey : p'.key = p.key)
    (hcs : p'.rest = cs) (h : Flying (f :: fs) c e k) : Flying (t :: fs) c e k := by
  obtain ⟨g, hg, hge, pg, hpg, hk, hc⟩ := h
  rcases mem_cons.mp hg with rfl | hg
  · rw [hp] at hpg
    cases hpg
    rw [hrest] at hc
    refine ⟨t, mem_cons_self, hemitter.trans hge, p', hp', hkey.trans hk, ?_⟩
    rw [hcs]
    exact (mem_cons.mp hc).resolve_left hne
  · exact ⟨g, mem_cons_of_mem _ hg, hge, pg, hpg, hk, hc⟩

theorem Places.runcell (h : Places s) (hstack : s.stack = f :: fs) (hp : f.parsing = some p)
    (hcur : p.current = none) {cs : List Nat} (hrest : p.rest = c :: cs) :
    Places (s.runcell f fs p c cs) := by
  have hheap := h.heap.runcell hstack hp hrest
  have hf : f ∈ s.stack := hstack ▸ mem_cons_self
  obtain ⟨hkeys1, hkeys2⟩ := h.keys f hf
  have hcs : ∀ c' ∈ cs, c' ∈ p.rest := by
    intro c' hc'
    rw [hrest]
    exact mem_cons_of_mem _ hc'
  unfold World.runcell at hheap ⊢
  split
  · rename_i hcell
    rw [hcell] at hheap
    have hne : ∀ c', s.waits c' = true → c' ≠ c := by
      rintro c' hc' rfl
      simp [World.waits, hcell] at hc'
    refine h.withTop hstack (t := { f with parsing := some { p with rest := cs } }) hheap rfl
      rfl rfl rfl rfl (fun _ hc => hc) (fun _ _ hm => hm)
      (fun c _ m k q hq hc => ⟨q, hq, hc⟩) ⟨hkeys1, ?_⟩ ?_ ?_ ?_ ?_
    · rintro p' ⟨⟩
      exact hkeys2 p hp
    · rintro p' ⟨⟩
      exact h.running f hf p hp
    · intro c' hc' e k _ hor
      exact hor.imp id (flying_of_rest hp hrest (hne c' hc') rfl rfl rfl rfl)
    · rintro c' hc' p' ⟨⟩
      exact h.taken c' hc' f hf p hp
    · rintro c' hc' p' ⟨⟩ hr
      exact h.knownRest c' hc' f hf p hp (hcs c' hr)
  · rename_i t hcell
    simp only [hcell] at hheap
    have hold : ∀ c', World.waits { s with cells := update s.cells c none } c' = true →
        c' ≠ c ∧ s.waits c' = true := fun c' hc' => waits_of_emptied hc'
    refine h.withTop hstack (t := { f with
      parsing := some { p with rest := cs }
      wokenup := f.wokenup ++ [(t, .signal f.number)] }) hheap rfl rfl rfl rfl rfl
      (fun c' hc' => (hold c' hc').2) (fun _ _ hm => hm)
      (fun c _ m k q hq hc => ⟨q, hq, hc⟩) ⟨hkeys1, ?_⟩ ?_ ?_ ?_ ?_
    · rintro p' ⟨⟩
      exact hkeys2 p hp
    · rintro p' ⟨⟩ c' hc'
      have hc'' : p.current = some c' := hc'
      rw [hcur] at hc''
      cases hc''
    · intro c' hc' e k _ hor
      exact hor.imp id (flying_of_rest hp hrest (hold c' hc').1 rfl rfl rfl rfl)
    · rintro c' hc' p' ⟨⟩
      exact h.taken c' (hold c' hc').2 f hf p hp
    · rintro c' hc' p' ⟨⟩ hr
      exact h.knownRest c' (hold c' hc').2 f hf p hp (hcs c' hr)
  · rename_i once hcell
    simp only [hcell] at hheap
    have hne : ∀ c', s.waits c' = true → c' ≠ c := by
      rintro c' hc' rfl
      simp [World.waits, hcell] at hc'
    refine h.withTop hstack (t := { f with
      parsing := some { p with rest := cs, current := some c }, ran := f.ran ++ [c] }) hheap rfl
      rfl rfl rfl rfl (fun _ hc => hc) (fun _ _ hm => hm)
      (fun c _ m k q hq hc => ⟨q, hq, hc⟩) ⟨hkeys1, ?_⟩ ?_ ?_ ?_ ?_
    · rintro p' ⟨⟩
      exact hkeys2 p hp
    · rintro p' ⟨⟩ c' ⟨⟩
      simp [World.waits, hcell]
    · intro c' hc' e k _ hor
      exact hor.imp id (flying_of_rest hp hrest (hne c' hc') rfl rfl rfl rfl)
    · rintro c' hc' p' ⟨⟩
      exact h.taken c' hc' f hf p hp
    · rintro c' hc' p' ⟨⟩ hr
      exact h.knownRest c' hc' f hf p hp (hcs c' hr)

/-- Taking an empty queue away, and its table if it was the last one, leaves every waiting
cell where it is. -/
theorem Places.live_endParse (h : Places s) (hstack : s.stack = f :: fs)
    (hp : f.parsing = some p) (hc : s.waits c = true)
    (hl : c ∈ s.live e k) : c ∈ (s.endParse f fs p).live e k := by
  have hf : f ∈ s.stack := hstack ▸ mem_cons_self
  obtain ⟨m, q, hm, hq, hcq⟩ := mem_live.mp hl
  unfold World.endParse
  split
  · have hq' : (update s.emqs f.emq ((s.emqs f.emq).erase p.key) m).lookup k =
        some q := by
      by_cases hmf : m = f.emq
      · subst hmf
        have he := h.owner f hf e hm
        subst he
        have hk : k ≠ p.key := by
          rintro rfl
          exact h.taken c hc f hf p hp hl
        rw [update_self, AList.lookup_erase_ne hk]
        exact hq
      · rw [update_of_ne hmf]
        exact hq
    refine mem_live.mpr ⟨m, q, ?_, hq', hcq⟩
    dsimp only
    split
    · rename_i hempty
      have hne : e ≠ f.emitter := by
        rintro rfl
        have hcap := h.captured c hc f.emitter k hl f hf rfl
        rw [hm] at hcap
        rw [Option.some.inj hcap, update_self,
          LuaTable.lookup_of_isEmpty hempty k] at hq'
        cases hq'
      rw [AList.lookup_erase_ne hne]
      exact hm
    · exact hm
  · exact mem_live.mpr ⟨m, q, hm, hq, hcq⟩

theorem flying_of_done (hp : f.parsing = some p)
    (hrest : p.rest = []) (h : Flying (f :: fs) c e k) : Flying (t :: fs) c e k := by
  obtain ⟨g, hg, hge, p', hp', hk, hc⟩ := h
  rcases mem_cons.mp hg with rfl | hg
  · rw [hp] at hp'
    cases hp'
    rw [hrest] at hc
    cases hc
  · exact ⟨g, mem_cons_of_mem _ hg, hge, p', hp', hk, hc⟩

theorem Places.endParse (h : Places s) (hstack : s.stack = f :: fs) (hp : f.parsing = some p)
    (hrest : p.rest = []) : Places (s.endParse f fs p) := by
  have hheap := h.heap.endParse (p := p) hstack
  have hlive := fun c hc e k hl => h.live_endParse (c := c) hstack hp hc (e := e) (k := k) hl
  have hf : f ∈ s.stack := hstack ▸ mem_cons_self
  obtain ⟨hkeys1, -⟩ := h.keys f hf
  unfold World.endParse at hheap hlive ⊢
  split
  · rename_i hempty
    simp only [if_pos hempty] at hheap hlive
    refine h.withTop hstack (t := { f with parsing := none }) hheap rfl rfl rfl rfl rfl
      (fun _ hc => hc) ?_ ?_ ⟨hkeys1, by intro p' hp'; cases hp'⟩ (by intro p' hp'; cases hp') ?_
      (by intro c _ p' hp'; cases hp') (by intro c _ p' hp'; cases hp')
    · intro e m hm
      dsimp only at hm
      split at hm
      · exact (lookup_erase_some hm).1
      · exact hm
    · intro c _ m k q hq hc
      exact ⟨q, (lookup_erased hq).1, hc⟩
    · intro c hc e k _ hor
      exact hor.imp (hlive c hc e k) (flying_of_done hp hrest)
  · rename_i hempty
    simp only [if_neg hempty] at hheap
    refine h.withTop hstack (t := { f with parsing := none }) hheap rfl rfl rfl rfl rfl
      (fun _ hc => hc) (fun _ _ hm => hm) (fun c _ m k q hq hc => ⟨q, hq, hc⟩)
      ⟨hkeys1, by intro p' hp'; cases hp'⟩ (by intro p' hp'; cases hp') ?_
      (by intro c _ p' hp'; cases hp') (by intro c _ p' hp'; cases hp')
    intro c _ e k _ hor
    exact hor.imp id (flying_of_done hp hrest)

theorem Places.leave (h : Places s) (killself : Bool) : Places (s.leave killself) := by
  have hheap := h.heap.leave killself
  unfold World.leave at hheap ⊢
  split
  · exact h
  rename_i f fs hstack
  split
  · exact h
  rename_i p hp
  split
  · exact h
  rename_i c0 hcur
  have hf : f ∈ s.stack := hstack ▸ mem_cons_self
  obtain ⟨hkeys1, hkeys2⟩ := h.keys f hf
  have hfly : ∀ c e k, Flying (f :: fs) c e k →
      Flying ({ f with parsing := some { p with current := none } } :: fs) c e k := by
    rintro c e k ⟨g, hg, hge, p', hp', hk, hc⟩
    rcases mem_cons.mp hg with rfl | hg
    · rw [hp] at hp'
      cases hp'
      exact ⟨_, mem_cons_self, hge, _, rfl, hk, hc⟩
    · exact ⟨g, mem_cons_of_mem _ hg, hge, p', hp', hk, hc⟩
  simp only [hstack, hp, hcur] at hheap
  dsimp only
  split
  · rename_i hgone
    rw [if_pos hgone] at hheap
    have hold : ∀ c', World.waits { s with
        cells := update s.cells c0 none } c' = true → s.waits c' = true :=
      fun c' hc' => (waits_of_emptied hc').2
    refine h.withTop hstack (t := { f with parsing := some { p with current := none } })
      hheap rfl rfl rfl rfl rfl hold (fun _ _ hm => hm)
      (fun c _ m k q hq hc => ⟨q, hq, hc⟩) ⟨hkeys1, ?_⟩ ?_ ?_ ?_ ?_
    · rintro p' ⟨⟩
      exact hkeys2 p hp
    · rintro p' ⟨⟩ c hc
      cases hc
    · intro c _ e k _ hor
      exact hor.imp id (hfly c e k)
    · rintro c hc p' ⟨⟩
      exact h.taken c (hold c hc) f hf p hp
    · rintro c hc p' ⟨⟩ hr
      exact h.knownRest c (hold c hc) f hf p hp hr
  · rename_i hstays
    rw [if_neg hstays] at hheap
    -- what is put back is a hook
    have hmem : ∀ c, s.waits c = true → ∀ q, c ∈
        update s.queues p.queue (s.queues p.queue ++ [c0]) q ↔ c ∈ s.queues q := by
      intro c hc q
      have hne : c ≠ c0 := by
        rintro rfl
        rw [h.running f hf p hp c hcur] at hc
        cases hc
      by_cases hq : q = p.queue
      · subst hq
        simp [hne]
      · rw [update_of_ne hq]
    refine h.withTop hstack (t := { f with parsing := some { p with current := none } })
      hheap rfl rfl rfl rfl rfl (fun _ hc => hc) (fun _ _ hm => hm) ?_ ⟨hkeys1, ?_⟩ ?_ ?_ ?_ ?_
    · intro c hc m k q hq hcq
      exact ⟨q, hq, (hmem c hc q).mp hcq⟩
    · rintro p' ⟨⟩
      exact hkeys2 p hp
    · rintro p' ⟨⟩ c hc
      cases hc
    · intro c hc e k _ hor
      refine hor.imp ?_ (hfly c e k)
      intro hl
      obtain ⟨m, q, hm, hq, hcq⟩ := mem_live.mp hl
      exact mem_live.mpr ⟨m, q, hm, hq, (hmem c hc q).mpr hcq⟩
    · rintro c hc p' ⟨⟩ hl
      apply h.taken c hc f hf p hp
      obtain ⟨m, q, hm, hq, hcq⟩ := mem_live.mp hl
      exact mem_live.mpr ⟨m, q, hm, hq, (hmem c hc q).mp hcq⟩
    · rintro c hc p' ⟨⟩ hr
      exact h.knownRest c hc f hf p hp hr

theorem Places.endSignal (h : Places s) (hstack : s.stack = f :: fs)
    (hp : f.parsing = none) : Places (s.endSignal f fs) := by
  have hmem : ∀ g ∈ fs, g ∈ s.stack := fun _ hg => hstack ▸ mem_cons_of_mem _ hg
  refine ⟨h.heap.endSignal hstack, fun g hg => h.keys g (hmem g hg),
    fun g hg => h.owner g (hmem g hg), fun g hg => h.running g (hmem g hg), ?_,
    fun c hc e k hl g hg => h.captured c hc e k hl g (hmem g hg),
    fun c hc g hg => h.taken c hc g (hmem g hg), h.known,
    fun c hc g hg => h.knownRest c hc g (hmem g hg),
    fun c hc g hg => h.knownEmq c hc g (hmem g hg)⟩
  intro c hc e k hcall
  have hold := h.place c hc e k hcall
  rw [hstack] at hold
  refine hold.imp id ?_
  rintro ⟨g, hg, hge, p', hp', hk, hcr⟩
  rcases mem_cons.mp hg with rfl | hg
  · rw [hp] at hp'
    cases hp'
  · exact ⟨g, hg, hge, p', hp', hk, hcr⟩

theorem Places.advance (h : Places s) : Places s.advance := by
  unfold World.advance
  split
  · exact h
  rename_i f fs hstack
  split
  · rename_i hp
    split
    · exact h.endSignal hstack hp
    · rename_i k ks htodo
      exact h.startParse hstack hp htodo
  · rename_i p hp
    split
    · exact h
    · rename_i hcur hrest
      exact h.runcell hstack hp hcur hrest
    · rename_i hcur hrest
      exact h.endParse hstack hp hrest

theorem Places.emit (h : Places s) (e : E) (k : Key ε) : Places (s.emit e k) := by
  have hheap := h.heap.emit e k
  unfold World.emit at hheap ⊢
  split at hheap
  · exact { h with heap := hheap }
  rename_i m hm
  refine ⟨hheap, ?_, ?_, ?_, ?_, ?_, ?_, h.known, ?_, ?_⟩
  · intro f hf
    rcases mem_cons.mp hf with rfl | hf
    · refine ⟨?_, by intro p hp; cases hp⟩
      intro k' hk'
      simpa [Frame.Keys] using hk'
    · exact h.keys f hf
  · intro f hf e' he'
    rcases mem_cons.mp hf with rfl | hf
    · exact h.heap.waiting_inj e' e m he' hm
    · exact h.owner f hf e' he'
  · intro f hf p hp
    rcases mem_cons.mp hf with rfl | hf
    · cases hp
    · exact h.running f hf p hp
  · intro c hc e' k' hcall
    refine (h.place c hc e' k' hcall).imp id ?_
    rintro ⟨g, hg, hrest⟩
    exact ⟨g, mem_cons_of_mem _ hg, hrest⟩
  · intro c hc e' k' hl f hf hfe
    rcases mem_cons.mp hf with rfl | hf
    · rw [← hfe]
      exact hm
    · exact h.captured c hc e' k' hl f hf hfe
  · intro c hc f hf p hp
    rcases mem_cons.mp hf with rfl | hf
    · cases hp
    · exact h.taken c hc f hf p hp
  · intro c hc f hf p hp
    rcases mem_cons.mp hf with rfl | hf
    · cases hp
    · exact h.knownRest c hc f hf p hp
  · intro c hc f hf k' q hq hcq
    rcases mem_cons.mp hf with rfl | hf
    · exact h.known c hc e k' (mem_live.mpr ⟨m, q, hm, hq, hcq⟩)
    · exact h.knownEmq c hc f hf k' q hq hcq

/-- Cells are emptied, hooks are registered, dead cells collected: the frames and the
waiting cells stay as they are. -/
theorem Places.congr (h : Places s) (hheap : Heap s') (hstack : s'.stack = s.stack)
    (hwaits : ∀ c, s'.waits c = true → s.waits c = true ∧ s'.calls c = s.calls c)
    (hlive : ∀ c, s'.waits c = true → ∀ e k, c ∈ s'.live e k ↔ c ∈ s.live e k)
    (hnew : ∀ f ∈ s.stack, ∀ e, s'.waiting.lookup e = some f.emq →
      s.waiting.lookup e = some f.emq)
    (hold : ∀ f ∈ s.stack, ∀ e, s.waiting.lookup e = some f.emq →
      s'.waiting.lookup e = some f.emq)
    (hmembers : ∀ c, s'.waits c = true → ∀ f ∈ s.stack, ∀ k q,
      (s'.emqs f.emq).lookup k = some q → c ∈ s'.queues q →
      (s.emqs f.emq).lookup k = some q ∧ c ∈ s.queues q) : Places s' := by
  refine ⟨hheap, ?_, ?_, ?_, ?_, ?_, ?_, ?_, ?_, ?_⟩
  · rw [hstack]
    exact h.keys
  · intro f hf e he
    rw [hstack] at hf
    exact h.owner f hf e (hnew f hf e he)
  · intro f hf p hp c hc
    rw [hstack] at hf
    by_contra hw
    have := (hwaits c (by simpa using hw)).1
    rw [h.running f hf p hp c hc] at this
    cases this
  · intro c hc e k hcall
    obtain ⟨hw, hcalls⟩ := hwaits c hc
    rw [hcalls] at hcall
    rw [hstack, hlive c hc e k]
    exact h.place c hw e k hcall
  · intro c hc e k hl f hf hfe
    rw [hstack] at hf
    exact hold f hf e (h.captured c (hwaits c hc).1 e k ((hlive c hc e k).mp hl) f hf hfe)
  · intro c hc f hf p hp hl
    rw [hstack] at hf
    exact h.taken c (hwaits c hc).1 f hf p hp ((hlive c hc _ _).mp hl)
  · intro c hc e k hl
    obtain ⟨hw, hcalls⟩ := hwaits c hc
    rw [hcalls]
    exact h.known c hw e k ((hlive c hc e k).mp hl)
  · intro c hc f hf p hp hr
    obtain ⟨hw, hcalls⟩ := hwaits c hc
    rw [hstack] at hf
    rw [hcalls]
    exact h.knownRest c hw f hf p hp hr
  · intro c hc f hf k q hq hcq
    obtain ⟨hw, hcalls⟩ := hwaits c hc
    rw [hstack] at hf
    obtain ⟨hq', hcq'⟩ := hmembers c hc f hf k q hq hcq
    rw [hcalls]
    exact h.knownEmq c hw f hf k q hq' hcq'

theorem Places.emptied (h : Places s) (hheap : Heap s') (hstack : s'.stack = s.stack)
    (hcalls : s'.calls = s.calls) (htables : s'.waiting = s.waiting ∧ s'.emqs = s.emqs)
    (hqueues : s'.queues = s.queues) (hwaits : ∀ c, s'.waits c = true → s.waits c = true) :
    Places s' := by
  obtain ⟨hw, he⟩ := htables
  refine h.congr hheap hstack (fun c hc => ⟨hwaits c hc, by rw [hcalls]⟩) ?_ ?_ ?_ ?_
  · intro c _ e k
    rw [live_congr hw he hqueues]
  · intro f _ e h'
    rw [hw] at h'
    exact h'
  · intro f _ e h'
    rw [hw]
    exact h'
  · intro c _ f _ k q hq hc
    rw [he] at hq
    rw [hqueues] at hc
    exact ⟨hq, hc⟩

theorem Places.kill (h : Places s) (c : Nat) : Places (s.kill c) :=
  h.emptied (h.heap.kill c) rfl rfl ⟨rfl, rfl⟩ rfl (fun _ hc' => (waits_of_emptied hc').2)

theorem Places.expire (h : Places s) (c : Nat) (killself : Bool) :
    Places (s.expire c killself) := by
  have hheap := h.heap.expire c killself
  unfold World.expire at hheap ⊢
  split
  · rename_i hcell
    rw [hcell] at hheap
    exact h.emptied hheap rfl rfl ⟨rfl, rfl⟩ rfl (fun _ hc => hc)
  · rename_i t hcell
    simp only [hcell] at hheap
    exact h.emptied hheap rfl rfl ⟨rfl, rfl⟩ rfl (fun _ hc' => (waits_of_emptied hc').2)
  · rename_i once hcell
    simp only [hcell] at hheap
    refine h.emptied hheap rfl rfl ⟨rfl, rfl⟩ rfl ?_
    intro c' hc'
    dsimp only [World.waits] at hc'
    split at hc'
    · rename_i hcell'
      split at hcell'
      · have := waits_of_emptied (s := s) (c := c) (d := c') (by
          simp only [World.waits, hcell'])
        exact this.2
      · simp [World.waits, hcell']
    · cases hc'

theorem Places.gc (h : Places s) : Places s.gc := by
  have hcells : s.gc.cells = s.cells := by
    unfold World.gc
    split <;> rfl
  have hwaits : s.gc.waits = s.waits := by
    funext c
    simp only [World.waits, hcells]
  have hstack : s.gc.stack = s.stack := by
    unfold World.gc
    split <;> rfl
  have hcalls : s.gc.calls = s.calls := by
    unfold World.gc
    split <;> rfl
  have htables : s.stack ≠ [] → s.gc.waiting = s.waiting ∧ s.gc.emqs = s.emqs ∧
      s.gc.queues = s.collected := by
    intro hne
    unfold World.gc
    rw [if_neg hne]
    exact ⟨rfl, rfl, rfl⟩
  refine h.congr h.heap.gc hstack (fun c hc => ⟨hwaits ▸ hc, by rw [hcalls]⟩) ?_ ?_ ?_ ?_
  · intro c hc e k
    rw [live_gc, mem_filter]
    rw [hwaits] at hc
    unfold World.waits at hc
    split at hc
    · rename_i hcell
      simp [hcell]
    · cases hc
  · intro f hf e he
    rw [(htables (ne_nil_of_mem hf)).1] at he
    exact he
  · intro f hf e he
    rw [(htables (ne_nil_of_mem hf)).1]
    exact he
  · intro c _ f hf k q hq hc
    obtain ⟨-, h2, h3⟩ := htables (ne_nil_of_mem hf)
    rw [h2] at hq
    rw [h3] at hc
    refine ⟨hq, ?_⟩
    unfold World.collected at hc
    split at hc
    · exact (mem_filter.mp hc).1
    · exact hc

end Steps

section NewCell

variable {s : World E ε τ}

theorem not_mem_live_fresh (h : Heap s) (e : E) (k : Key ε) : s.fresh ∉ s.live e k := by
  intro hl
  obtain ⟨m, q, -, -, hc⟩ := mem_live.mp hl
  exact Nat.lt_irrefl _ (h.member_lt q s.fresh hc)

theorem mem_replicate_count {l : List (E × Key ε)} {r : E × Key ε} {c c' : Nat} :
    c' ∈ List.replicate (l.count r) c ↔ c' = c ∧ r ∈ l := by
  rw [mem_replicate, ← Nat.pos_iff_ne_zero, count_pos_iff]
  exact And.comm

theorem waits_addCell (cell : Cell τ) (calls : List (E × Key ε)) (timers : List Nat) {c : Nat}
    (hc : c ≠ s.fresh) : (s.addCell cell calls timers).waits c = s.waits c := by
  simp only [World.waits, World.addCell, update_of_ne hc]

/-- A hook may be registered at any time. -/
theorem Places.sigHook (h : Places s) (once : Bool) (emitters : List E) (keys : List (Key ε))
    (timed : Bool) : Places (s.newCell (.hook once) emitters keys timed) := by
  obtain ⟨timers, -, hheap, hreg, hlive⟩ := newCell_spec h.heap (.hook once) emitters keys timed
  generalize s.newCell (.hook once) emitters keys timed = s' at hheap hreg hlive
  have hne : ∀ c, s'.waits c = true → c ≠ s.fresh := by
    rintro c hc rfl
    simp [World.waits, hreg.cells, World.addCell] at hc
  have hwaits : ∀ c, s'.waits c = true → s.waits c = true := by
    intro c hc
    rw [← waits_addCell (s := s) (.hook once)
      (registrations emitters keys timed) timers (hne c hc)]
    simpa only [World.waits, hreg.cells] using hc
  refine h.congr hheap hreg.stack (fun c hc => ⟨hwaits c hc, ?_⟩) ?_ ?_ ?_ ?_
  · rw [hreg.calls, World.addCell]
    exact update_of_ne (hne c hc) _ _
  · intro c hc e k
    rw [hlive e k, mem_append, mem_replicate_count]
    simp [hne c hc]
  · intro f hf e he
    rcases hreg.newEmq e f.emq he with he | he
    · exact he
    · have : s.fresh + 1 ≤ f.emq := he
      have := h.heap.frame_lt f hf
      omega
  · intro f hf e he
    exact hreg.emq e f.emq he
  · intro c hc f hf k q hq hcq
    rcases hreg.members f.emq k q hq c hcq with rfl | hold
    · exact absurd rfl (hne s.fresh hc)
    · exact hold

/-- A task waits when no signal is being delivered. -/
theorem Places.wait (h : Places s) (hnil : s.stack = []) (t : τ) (emitters : List E)
    (keys : List (Key ε)) (timed : Bool) : Places (s.newCell (.task t) emitters keys timed) := by
  obtain ⟨timers, -, hheap, hreg, hlive⟩ := newCell_spec h.heap (.task t) emitters keys timed
  generalize s.newCell (.task t) emitters keys timed = s' at hheap hreg hlive
  have hstack : s'.stack = [] := hreg.stack.trans hnil
  have hno : ∀ f, f ∉ s'.stack := by
    intro f hf
    rw [hstack] at hf
    cases hf
  have hwaits : ∀ c, c ≠ s.fresh → s'.waits c = true → s.waits c = true := by
    intro c hne hc
    rw [← waits_addCell (s := s) (.task t)
      (registrations emitters keys timed) timers hne]
    simpa only [World.waits, hreg.cells] using hc
  have hcalls : ∀ c, c ≠ s.fresh → s'.calls c = s.calls c := by
    intro c hne
    rw [hreg.calls, World.addCell]
    exact update_of_ne hne _ _
  have hnew : s'.calls s.fresh = registrations emitters keys timed := by
    rw [hreg.calls, World.addCell]
    exact update_self _ _ _
  refine ⟨hheap, fun f hf => absurd hf (hno f), fun f hf => absurd hf (hno f),
    fun f hf => absurd hf (hno f), ?_, fun _ _ _ _ _ f hf => absurd hf (hno f),
    fun _ _ f hf => absurd hf (hno f), ?_, fun _ _ f hf => absurd hf (hno f),
    fun _ _ f hf => absurd hf (hno f)⟩
  · intro c hc e k hcall
    left
    rw [hlive e k, mem_append, mem_replicate_count]
    by_cases hcf : c = s.fresh
    · subst hcf
      rw [hnew] at hcall
      exact Or.inr ⟨rfl, hcall⟩
    left
    rw [hcalls c hcf] at hcall
    rcases h.place c (hwaits c hcf hc) e k hcall with hl | ⟨f, hf, -⟩
    · exact hl
    · rw [hnil] at hf
      cases hf
  · intro c hc e k hl
    rw [hlive e k, mem_append, mem_replicate_count] at hl
    rcases hl with hl | ⟨rfl, hmem⟩
    · have hcf : c ≠ s.fresh := by
        rintro rfl
        exact not_mem_live_fresh h.heap e k hl
      rw [hcalls c hcf]
      exact h.known c (hwaits c hcf hc) e k hl
    · rw [hnew]
      exact hmem

end NewCell

theorem Places.step (h : Places s) (e : Event E ε τ) (he : Enabled s e) :
    Places (step s e) := by
  cases e with
  | emit e k => exact h.emit e k
  | advance => exact h.advance
  | leave killself => exact h.leave killself
  | sigHook once e keys timed => exact h.sigHook once [e] keys timed
  | wait t emitters keys timed => exact h.wait he t emitters keys timed
  | expire c killself => exact h.expire c killself
  | kill c => exact h.kill c
  | gc => exact h.gc
  | resume => exact h.emptied { h.heap with } rfl rfl ⟨rfl, rfl⟩ rfl (fun _ hc => hc)

/-! ## Histories -/

/-- No signal from the making of the cell up to the `n`th matches it. -/
def World.before (s : World E ε τ) (c n : Nat) : Prop :=
  ∀ m r, s.born c ≤ m → m < n → s.emitted[m]? = some r → s.matched c r = false

structure History (s : World E ε τ) : Prop where
  numbers : ∀ f ∈ s.stack, s.emitted[f.number]? = some f.signal
  distinct : s.stack.Pairwise fun f g => f.number ≠ g.number
  later : ∀ f ∈ s.stack, ∀ c, s.waits c = true → s.born c ≤ f.number
  bornLe : ∀ c, s.waits c = true → s.born c ≤ s.emitted.length
  seen : ∀ c, s.waits c = true → ∀ n r, s.born c ≤ n → s.emitted[n]? = some r →
    s.matched c r = true → ∃ f ∈ s.stack, f.number = n
  single : ∀ c, s.waits c = true → ∀ f ∈ s.stack, ∀ g ∈ s.stack,
    s.matched c f.signal = true → s.matched c g.signal = true → f.number = g.number
  pending : ∀ c, s.waits c = true → ∀ f ∈ s.stack, s.matched c f.signal = true →
    ∃ k, (f.emitter, k) ∈ s.calls c ∧
      (k ∈ f.todo ∨ ∃ p, f.parsing = some p ∧ p.key = k ∧ c ∈ p.rest)
  unwoken : ∀ c, s.waits c = true ∨ s.fresh ≤ c → s.woken c = []
  once : ∀ c, (s.woken c).length ≤ 1
  signalled : ∀ c n, s.woken c = [.signal n] → s.born c ≤ n ∧
    (∃ r, s.emitted[n]? = some r ∧ s.matched c r = true) ∧ s.before c n
  timedOut : ∀ c n, s.woken c = [.timeout n] → n ≤ s.emitted.length ∧
    (∃ e, (e, .timeout) ∈ s.calls c) ∧ s.before c n
  timers : ∀ c ∈ s.timers, c < s.fresh ∧ ∃ e, (e, .timeout) ∈ s.calls c

theorem history_init : History (init : World E ε τ) where
  numbers := by intro f h; cases h
  distinct := List.Pairwise.nil
  later := by intro f h; cases h
  bornLe := by intro c h; cases h
  seen := by intro c h; cases h
  single := by intro c h; cases h
  pending := by intro c h; cases h
  unwoken := by intro c h; rfl
  once := by intro c; simp [init]
  signalled := by intro c n h; cases h
  timedOut := by intro c n h; cases h
  timers := by intro c h; cases h

/-- When waiting tasks are safe: a signal that matches a cell is not emitted while another
one that matches it is being delivered. -/
def WaitsSafe (s : World E ε τ) : Event E ε τ → Prop
  | .emit e k => ∀ c, s.waits c = true → s.matched c (e, k) = true → ∀ f ∈ s.stack,
      s.matched c f.signal = false
  | _ => True

def NoTaskKilled (s : World E ε τ) : Event E ε τ → Prop
  | .kill c => s.waits c = false
  | _ => True

section Steps

variable {s s' : World E ε τ} {f t : Frame E ε τ} {fs : List (Frame E ε τ)} {p : Parse ε}

variable {c : Nat}

theorem History.first (h : History s) (hc : s.waits c = true) (hf : f ∈ s.stack)
    (hm : s.matched c f.signal = true) : s.before c f.number := by
  intro m r hborn hlt hr
  by_contra hmatched
  have hmatched' : s.matched c r = true := by simpa using hmatched
  obtain ⟨g, hg, rfl⟩ := h.seen c hc m r hborn hr hmatched'
  rw [h.numbers g hg] at hr
  cases hr
  have := h.single c hc f hf g hg hm hmatched'
  omega

inductive Wakes (s s' : World E ε τ) (c : Nat) : Prop
  | same (h : s'.woken c = s.woken c)
  | signal (hc : s.waits c = true) (hc' : s'.waits c = false) (f : Frame E ε τ)
      (hf : f ∈ s.stack) (hm : s.matched c f.signal = true)
      (h : s'.woken c = [.signal f.number])
  | timeout (hc : s.waits c = true) (hc' : s'.waits c = false) (hnil : s.stack = [])
      (he : ∃ e, (e, .timeout) ∈ s.calls c) (h : s'.woken c = [.timeout s.emitted.length])

/-- Everything but emissions and new cells: frames go on or end, cells are run or emptied. -/
theorem History.move (h : History s) (hemitted : s'.emitted = s.emitted)
    (hcalls : s'.calls = s.calls) (hborn : s'.born = s.born) (hfresh : s.fresh ≤ s'.fresh)
    (hwaits : ∀ c, s'.waits c = true → s.waits c = true)
    (hwoken : ∀ c, Wakes s s' c)
    (hlt : ∀ c, s.waits c = true → c < s.fresh)
    (hframes : ∀ g ∈ s'.stack, ∃ f ∈ s.stack, g.number = f.number ∧ g.signal = f.signal)
    (hdistinct : s'.stack.Pairwise fun f g => f.number ≠ g.number)
    (hkept : ∀ c, s'.waits c = true → ∀ f ∈ s.stack, s.matched c f.signal = true →
      ∃ g ∈ s'.stack, g.number = f.number)
    (hpending : ∀ c, s'.waits c = true → ∀ g ∈ s'.stack, s.matched c g.signal = true →
      ∃ k, (g.emitter, k) ∈ s.calls c ∧
        (k ∈ g.todo ∨ ∃ p, g.parsing = some p ∧ p.key = k ∧ c ∈ p.rest))
    (htimers : ∀ c ∈ s'.timers, c ∈ s.timers) : History s' := by
  have hmatched : ∀ c r, s'.matched c r = s.matched c r := by
    intro c r
    simp only [World.matched, hcalls]
  have hbefore : ∀ c n, s'.before c n ↔ s.before c n := by
    intro c n
    simp only [World.before, hborn, hemitted, hmatched]
  refine ⟨?_, hdistinct, ?_, ?_, ?_, ?_, ?_, ?_, ?_, ?_, ?_, ?_⟩
  · intro g hg
    obtain ⟨f, hf, hn, hs⟩ := hframes g hg
    rw [hemitted, hn, hs]
    exact h.numbers f hf
  · intro g hg c hc
    obtain ⟨f, hf, hn, -⟩ := hframes g hg
    rw [hborn, hn]
    exact h.later f hf c (hwaits c hc)
  · intro c hc
    rw [hborn, hemitted]
    exact h.bornLe c (hwaits c hc)
  · intro c hc n r hn hr hm
    rw [hborn] at hn
    rw [hemitted] at hr
    rw [hmatched] at hm
    obtain ⟨f, hf, rfl⟩ := h.seen c (hwaits c hc) n r hn hr hm
    rw [h.numbers f hf] at hr
    cases hr
    exact hkept c hc f hf hm
  · intro c hc g hg g' hg' hm hm'
    obtain ⟨f, hf, hn, hs⟩ := hframes g hg
    obtain ⟨t, hf', hn', hs'⟩ := hframes g' hg'
    rw [hmatched, hs] at hm
    rw [hmatched, hs'] at hm'
    rw [hn, hn']
    exact h.single c (hwaits c hc) f hf t hf' hm hm'
  · intro c hc g hg hm
    rw [hmatched] at hm
    rw [hcalls]
    exact hpending c hc g hg hm
  · intro c hc
    have hold : s.woken c = [] := by
      apply h.unwoken c
      exact hc.imp (hwaits c) (Nat.le_trans hfresh)
    cases hwoken c with
    | same hw => rw [hw, hold]
    | signal hcw hcw' =>
      rcases hc with hc | hc
      · rw [hc] at hcw'
        cases hcw'
      · have := hlt c hcw
        omega
    | timeout hcw hcw' =>
      rcases hc with hc | hc
      · rw [hc] at hcw'
        cases hcw'
      · have := hlt c hcw
        omega
  · intro c
    cases hwoken c with
    | same hw => rw [hw]; exact h.once c
    | signal _ _ _ _ _ hw => rw [hw]; exact Nat.le_refl 1
    | timeout _ _ _ _ hw => rw [hw]; exact Nat.le_refl 1
  · intro c n hn
    rw [hborn, hemitted, hbefore]
    simp only [hmatched]
    cases hwoken c with
    | same hw =>
      rw [hw] at hn
      exact h.signalled c n hn
    | signal hcw _ f hf hm hw =>
      rw [hw] at hn
      cases hn
      exact ⟨h.later f hf c hcw, ⟨f.signal, h.numbers f hf, hm⟩, h.first hcw hf hm⟩
    | timeout _ _ _ _ hw =>
      rw [hw] at hn
      cases hn
  · intro c n hn
    rw [hemitted, hcalls, hbefore]
    cases hwoken c with
    | same hw =>
      rw [hw] at hn
      exact h.timedOut c n hn
    | signal _ _ _ _ _ hw =>
      rw [hw] at hn
      cases hn
    | timeout hcw _ hnil he hw =>
      rw [hw] at hn
      cases hn
      refine ⟨Nat.le_refl _, he, ?_⟩
      intro m r hb _ hr
      by_contra hm
      obtain ⟨f, hf, -⟩ := h.seen c hcw m r hb hr (by simpa using hm)
      rw [hnil] at hf
      cases hf
  · intro c hc
    obtain ⟨h1, h2⟩ := h.timers c (htimers c hc)
    rw [hcalls]
    exact ⟨Nat.lt_of_lt_of_le h1 hfresh, h2⟩

theorem History.withTop (h : History s) (hheap : Heap s) (hstack : s.stack = f :: fs)
    (hstack' : s'.stack = t :: fs) (hnumber : t.number = f.number)
    (hsignal : t.signal = f.signal) (hemitted : s'.emitted = s.emitted)
    (hcalls : s'.calls = s.calls) (hborn : s'.born = s.born) (hfresh : s.fresh ≤ s'.fresh)
    (htimers : s'.timers = s.timers)
    (hwaits : ∀ c, s'.waits c = true → s.waits c = true) (hwoken : ∀ c, Wakes s s' c)
    (hpending : ∀ c, s'.waits c = true → s.matched c f.signal = true →
      (∃ k, (f.emitter, k) ∈ s.calls c ∧
        (k ∈ f.todo ∨ ∃ p, f.parsing = some p ∧ p.key = k ∧ c ∈ p.rest)) →
      ∃ k, (f.emitter, k) ∈ s.calls c ∧
        (k ∈ t.todo ∨ ∃ p, t.parsing = some p ∧ p.key = k ∧ c ∈ p.rest)) : History s' := by
  have hmem : ∀ g ∈ fs, g ∈ s.stack := fun _ hg => hstack ▸ mem_cons_of_mem _ hg
  have hf : f ∈ s.stack := hstack ▸ mem_cons_self
  have hdis := h.distinct
  rw [hstack, pairwise_cons] at hdis
  refine h.move hemitted hcalls hborn hfresh hwaits hwoken (fun c hc => waits_lt hheap hc) ?_ ?_
    ?_ ?_ (by rw [htimers]; exact fun _ hc => hc)
  · intro g hg
    rw [hstack'] at hg
    rcases mem_cons.mp hg with rfl | hg
    · exact ⟨f, hf, hnumber, hsignal⟩
    · exact ⟨g, hmem g hg, rfl, rfl⟩
  · rw [hstack', pairwise_cons, hnumber]
    exact hdis
  · intro c _ g hg _
    rw [hstack] at hg
    rw [hstack']
    rcases mem_cons.mp hg with rfl | hg
    · exact ⟨t, mem_cons_self, hnumber⟩
    · exact ⟨g, mem_cons_of_mem _ hg, rfl⟩
  · intro c hc g hg hm
    rw [hstack'] at hg
    rcases mem_cons.mp hg with rfl | hg
    · rw [hsignal] at hm
      have hemitter : g.emitter = f.emitter := congrArg Prod.fst hsignal
      rw [hemitter]
      exact hpending c hc hm (h.pending c (hwaits c hc) f hf hm)
    · exact h.pending c (hwaits c hc) g (hmem g hg) hm

variable {k : Key ε}

/-- A cell that the frame on top is about to look for under `k` is found there. -/
theorem History.found (h : History s) (hp : Places s) (hstack : s.stack = f :: fs)
    (hnone : f.parsing = none) (hk : f.Keys k) (hc : s.waits c = true)
    (hm : s.matched c f.signal = true) (hcall : (f.emitter, k) ∈ s.calls c) :
    ∃ q, (s.emqs f.emq).lookup k = some q ∧ c ∈ s.queues q := by
  have hf : f ∈ s.stack := hstack ▸ mem_cons_self
  rcases hp.place c hc f.emitter k hcall with hl | ⟨g, hg, hge, p, hgp, hgk, -⟩
  · obtain ⟨m, q, hw, hq, hcq⟩ := mem_live.mp hl
    have hcap := hp.captured c hc f.emitter k hl f hf rfl
    rw [hw] at hcap
    rw [Option.some.inj hcap] at hq
    exact ⟨q, hq, hcq⟩
  · -- another frame would match the cell too
    exfalso
    have hgm : s.matched c g.signal = true := by
      refine matched_of_mem (k := k) (by rw [hge]; exact hcall) ?_
      rw [← hgk]
      exact (hp.keys g hg).2 p hgp
    have hnum := h.single c hc f hf g hg hm hgm
    rw [hstack] at hg
    rcases mem_cons.mp hg with rfl | hg
    · rw [hnone] at hgp
      cases hgp
    · have hdis := h.distinct
      rw [hstack, pairwise_cons] at hdis
      exact hdis.1 g hg hnum

theorem History.startParse (h : History s) (hp : Places s) (hstack : s.stack = f :: fs)
    (hnone : f.parsing = none) {ks : List (Key ε)} (htodo : f.todo = k :: ks) :
    History (s.startParse f fs k ks) := by
  have hf : f ∈ s.stack := hstack ▸ mem_cons_self
  have hk : f.Keys k := (hp.keys f hf).1 k (by rw [htodo]; exact mem_cons_self)
  unfold World.startParse
  split
  · rename_i hq
    refine h.withTop hp.heap hstack (t := { f with todo := ks }) rfl rfl rfl rfl rfl rfl
      (Nat.le_refl _) rfl (fun _ hc => hc) (fun c => .same rfl) ?_
    rintro c hc hm ⟨k', hcall, hor⟩
    refine ⟨k', hcall, hor.imp ?_ id⟩
    intro hk'
    rw [htodo] at hk'
    rcases mem_cons.mp hk' with rfl | hk'
    · obtain ⟨q, hq', -⟩ := h.found hp hstack hnone hk hc hm hcall
      rw [hq] at hq'
      cases hq'
    · exact hk'
  · rename_i q hq
    refine h.withTop hp.heap hstack (t := { f with
      todo := ks, parsing := some ⟨k, s.queues q, s.fresh, none⟩ }) rfl rfl rfl rfl rfl rfl
      (Nat.le_succ _) rfl (fun _ hc => hc) (fun c => .same rfl) ?_
    rintro c hc hm ⟨k', hcall, hor⟩
    refine ⟨k', hcall, ?_⟩
    rcases hor with hk' | ⟨p, hp', -⟩
    · rw [htodo] at hk'
      rcases mem_cons.mp hk' with rfl | hk'
      · obtain ⟨q', hq', hcq⟩ := h.found hp hstack hnone hk hc hm hcall
        rw [hq] at hq'
        cases hq'
        exact Or.inr ⟨_, rfl, rfl, hcq⟩
      · exact Or.inl hk'
    · rw [hnone] at hp'
      cases hp'

/-- The cell that is run is no longer waiting, and the others keep their places. -/
theorem pending_of_rest {c c0 : Nat} {cs : List Nat} {p' : Parse ε}
    (hp : f.parsing = some p) (hrest : p.rest = c0 :: cs) (hne : c ≠ c0)
    (htodo : t.todo = f.todo) (hp' : t.parsing = some p') (hkey : p'.key = p.key)
    (hcs : p'.rest = cs)
    (h : k ∈ f.todo ∨ ∃ p, f.parsing = some p ∧ p.key = k ∧ c ∈ p.rest) :
    k ∈ t.todo ∨ ∃ p, t.parsing = some p ∧ p.key = k ∧ c ∈ p.rest := by
  rcases h with hk | ⟨q, hq, hqk, hc⟩
  · exact Or.inl (by rw [htodo]; exact hk)
  · rw [hp] at hq
    cases hq
    rw [hrest] at hc
    refine Or.inr ⟨p', hp', hkey.trans hqk, ?_⟩
    rw [hcs]
    exact (mem_cons.mp hc).resolve_left hne

theorem History.runcell (h : History s) (hp : Places s) (hstack : s.stack = f :: fs)
    (hparsing : f.parsing = some p) {cs : List Nat} (hrest : p.rest = c :: cs) :
    History (s.runcell f fs p c cs) := by
  have hf : f ∈ s.stack := hstack ▸ mem_cons_self
  unfold World.runcell
  split
  · rename_i hcell
    refine h.withTop hp.heap hstack (t := { f with parsing := some { p with rest := cs } }) rfl
      rfl rfl rfl rfl rfl (Nat.le_refl _) rfl (fun _ hc => hc) (fun c => .same rfl) ?_
    rintro c' hc' _ ⟨k, hcall, hor⟩
    have hne : c' ≠ c := by
      rintro rfl
      have hc'' : s.waits c' = true := hc'
      simp [World.waits, hcell] at hc''
    exact ⟨k, hcall, pending_of_rest hparsing hrest hne rfl rfl rfl rfl hor⟩
  · rename_i t hcell
    have hc : s.waits c = true := by simp [World.waits, hcell]
    have hmatched : s.matched c f.signal = true := by
      refine matched_of_mem (hp.knownRest c hc f hf p hparsing ?_)
        ((hp.keys f hf).2 p hparsing)
      rw [hrest]
      exact mem_cons_self
    refine h.withTop hp.heap hstack (t := { f with
      parsing := some { p with rest := cs }
      wokenup := f.wokenup ++ [(t, .signal f.number)] }) rfl rfl rfl rfl rfl rfl (Nat.le_refl _)
      rfl (fun c' hc' => (waits_of_emptied hc').2) ?_ ?_
    · intro c'
      by_cases hcc : c' = c
      · subst hcc
        refine .signal hc ?_ f hf hmatched ?_
        · simp [World.waits]
        · simp [h.unwoken c' (Or.inl hc)]
      · exact .same (update_of_ne hcc _ _)
    · rintro c' hc' _ ⟨k, hcall, hor⟩
      exact ⟨k, hcall, pending_of_rest hparsing hrest (waits_of_emptied hc').1 rfl rfl rfl rfl
        hor⟩
  · rename_i once hcell
    refine h.withTop hp.heap hstack (t := { f with
      parsing := some { p with rest := cs, current := some c }, ran := f.ran ++ [c] }) rfl rfl
      rfl rfl rfl rfl (Nat.le_refl _) rfl (fun _ hc => hc) (fun c => .same rfl) ?_
    rintro c' hc' _ ⟨k, hcall, hor⟩
    have hne : c' ≠ c := by
      rintro rfl
      have hc'' : s.waits c' = true := hc'
      simp [World.waits, hcell] at hc''
    exact ⟨k, hcall, pending_of_rest hparsing hrest hne rfl rfl rfl rfl hor⟩

theorem History.endParse (h : History s) (hp : Places s) (hstack : s.stack = f :: fs)
    (hparsing : f.parsing = some p) (hrest : p.rest = []) : History (s.endParse f fs p) := by
  have hpending : ∀ c k, (k ∈ f.todo ∨ ∃ p, f.parsing = some p ∧ p.key = k ∧ c ∈ p.rest) →
      k ∈ f.todo := by
    rintro c k (hk | ⟨q, hq, -, hc⟩)
    · exact hk
    · rw [hparsing] at hq
      cases hq
      rw [hrest] at hc
      cases hc
  unfold World.endParse
  split
  · refine h.withTop hp.heap hstack (t := { f with parsing := none }) rfl rfl rfl rfl rfl rfl
      (Nat.le_refl _) rfl (fun _ hc => hc) (fun c => .same rfl) ?_
    rintro c _ _ ⟨k, hcall, hor⟩
    exact ⟨k, hcall, Or.inl (hpending c k hor)⟩
  · refine h.withTop hp.heap hstack (t := { f with parsing := none }) rfl rfl rfl rfl rfl rfl
      (Nat.le_refl _) rfl (fun _ hc => hc) (fun c => .same rfl) ?_
    rintro c _ _ ⟨k, hcall, hor⟩
    exact ⟨k, hcall, Or.inl (hpending c k hor)⟩

theorem History.endSignal (h : History s) (hp : Places s) (hstack : s.stack = f :: fs)
    (hnone : f.parsing = none) (htodo : f.todo = []) : History (s.endSignal f fs) := by
  have hmem : ∀ g ∈ fs, g ∈ s.stack := fun _ hg => hstack ▸ mem_cons_of_mem _ hg
  have hdis := h.distinct
  rw [hstack, pairwise_cons] at hdis
  refine h.move rfl rfl rfl (Nat.le_refl _) (fun _ hc => hc) (fun c => .same rfl)
    (fun c hc => waits_lt hp.heap hc) (fun g hg => ⟨g, hmem g hg, rfl, rfl⟩) hdis.2 ?_
    (fun c hc g hg => h.pending c hc g (hmem g hg)) (fun _ hc => hc)
  intro c hc g hg hm
  rw [hstack] at hg
  rcases mem_cons.mp hg with rfl | hg
  · obtain ⟨k, -, hor⟩ := h.pending c hc g (by rw [hstack]; exact mem_cons_self) hm
    rcases hor with hk | ⟨p, hp', -⟩
    · rw [htodo] at hk
      cases hk
    · rw [hnone] at hp'
      cases hp'
  · exact ⟨g, hg, rfl⟩

theorem History.advance (h : History s) (hp : Places s) : History s.advance := by
  unfold World.advance
  split
  · exact h
  rename_i f fs hstack
  split
  · rename_i hnone
    split
    · rename_i htodo
      exact h.endSignal hp hstack hnone htodo
    · rename_i k ks htodo
      exact h.startParse hp hstack hnone htodo
  · rename_i p hparsing
    split
    · exact h
    · rename_i hcur hrest
      exact h.runcell hp hstack hparsing hrest
    · rename_i hcur hrest
      exact h.endParse hp hstack hparsing hrest

theorem History.leave (h : History s) (hp : Places s) (killself : Bool) :
    History (s.leave killself) := by
  unfold World.leave
  split
  · exact h
  rename_i f fs hstack
  split
  · exact h
  rename_i p hparsing
  split
  · exact h
  have hpending : ∀ c k,
      (k ∈ f.todo ∨ ∃ p, f.parsing = some p ∧ p.key = k ∧ c ∈ p.rest) →
      k ∈ f.todo ∨ ∃ q, some ({ p with current := none } : Parse ε) = some q ∧ q.key = k ∧
        c ∈ q.rest := by
    rintro c k (hk | ⟨q, hq, hqk, hc⟩)
    · exact Or.inl hk
    · rw [hparsing] at hq
      cases hq
      exact Or.inr ⟨_, rfl, hqk, hc⟩
  dsimp only
  split
  · refine h.withTop hp.heap hstack
      (t := { f with parsing := some { p with current := none } }) rfl rfl rfl rfl rfl rfl
      (Nat.le_refl _) rfl (fun c' hc' => (waits_of_emptied hc').2) (fun c => .same rfl) ?_
    rintro c _ _ ⟨k, hcall, hor⟩
    exact ⟨k, hcall, hpending c k hor⟩
  · refine h.withTop hp.heap hstack
      (t := { f with parsing := some { p with current := none } }) rfl rfl rfl rfl rfl rfl
      (Nat.le_refl _) rfl (fun _ hc => hc) (fun c => .same rfl) ?_
    rintro c _ _ ⟨k, hcall, hor⟩
    exact ⟨k, hcall, hpending c k hor⟩

theorem History.still (h : History s) (hheap : Heap s) (hstack : s'.stack = s.stack)
    (hemitted : s'.emitted = s.emitted) (hcalls : s'.calls = s.calls)
    (hborn : s'.born = s.born) (hfresh : s'.fresh = s.fresh)
    (hwaits : ∀ c, s'.waits c = true → s.waits c = true) (hwoken : ∀ c, Wakes s s' c)
    (htimers : ∀ c ∈ s'.timers, c ∈ s.timers) : History s' := by
  refine h.move hemitted hcalls hborn (Nat.le_of_eq hfresh.symm) hwaits hwoken
    (fun c hc => waits_lt hheap hc) ?_ (by rw [hstack]; exact h.distinct) ?_ ?_ htimers
  · intro g hg
    rw [hstack] at hg
    exact ⟨g, hg, rfl, rfl⟩
  · intro c _ g hg _
    rw [hstack]
    exact ⟨g, hg, rfl⟩
  · intro c hc g hg hm
    rw [hstack] at hg
    exact h.pending c (hwaits c hc) g hg hm

theorem History.expire (h : History s) (hp : Places s) (hnil : s.stack = [])
    (hc : c ∈ s.timers) (killself : Bool) : History (s.expire c killself) := by
  have htimers : ∀ c' ∈ s.timers.erase c, c' ∈ s.timers := fun c' hc' => mem_of_mem_erase hc'
  unfold World.expire
  split
  · exact h.still hp.heap rfl rfl rfl rfl rfl (fun _ hc => hc) (fun c => .same rfl) htimers
  · rename_i t hcell
    have hw : s.waits c = true := by simp [World.waits, hcell]
    refine h.still hp.heap rfl rfl rfl rfl rfl (fun c' hc' => (waits_of_emptied hc').2) ?_ htimers
    intro c'
    by_cases hcc : c' = c
    · subst hcc
      refine .timeout hw ?_ hnil (h.timers c' hc).2 ?_
      · simp [World.waits]
      · simp [h.unwoken c' (Or.inl hw)]
    · exact .same (update_of_ne hcc _ _)
  · rename_i once hcell
    refine h.still hp.heap rfl rfl rfl rfl rfl ?_ (fun c => .same rfl) htimers
    intro c' hc'
    dsimp only [World.waits] at hc'
    split at hc'
    · rename_i hcell'
      split at hcell'
      · exact (waits_of_emptied (s := s) (c := c) (d := c') (by
          simp only [World.waits, hcell'])).2
      · simp [World.waits, hcell']
    · cases hc'

theorem History.gc (h : History s) (hp : Places s) : History s.gc := by
  have hcells : s.gc.cells = s.cells := by
    unfold World.gc
    split <;> rfl
  have hwoken : s.gc.woken = s.woken := by
    unfold World.gc
    split <;> rfl
  have htimers : s.gc.timers = s.timers := by
    unfold World.gc
    split <;> rfl
  refine h.still hp.heap ?_ ?_ ?_ ?_ ?_ ?_ (fun c => .same (by rw [hwoken]))
    (by rw [htimers]; exact fun _ hc => hc)
  · unfold World.gc
    split <;> rfl
  · unfold World.gc
    split <;> rfl
  · unfold World.gc
    split <;> rfl
  · unfold World.gc
    split <;> rfl
  · unfold World.gc
    split <;> rfl
  · intro c hc
    simpa only [World.waits, hcells] using hc

end Steps

section Emit

variable {s : World E ε τ}

theorem getElem?_snoc {α : Type} {l : List α} {a r : α} {n : Nat}
    (h : (l ++ [a])[n]? = some r) : l[n]? = some r ∨ n = l.length ∧ r = a := by
  by_cases hn : n < l.length
  · rw [List.getElem?_append_left hn] at h
    exact Or.inl h
  rw [List.getElem?_append_right (Nat.le_of_not_lt hn)] at h
  obtain ⟨hlt, heq⟩ := List.getElem?_eq_some_iff.mp h
  simp only [length_singleton] at hlt
  right
  constructor
  · omega
  · rw [← heq]
    simp

theorem getElem?_of_snoc {α : Type} {l : List α} {r : α} {n : Nat} (a : α)
    (h : l[n]? = some r) : (l ++ [a])[n]? = some r := by
  rw [List.getElem?_append_left (List.getElem?_eq_some_iff.mp h).1]
  exact h

theorem before_snoc {s' : World E ε τ} {r : E × Key ε} (hborn : s'.born = s.born)
    (hcalls : s'.calls = s.calls) (hemitted : s'.emitted = s.emitted ++ [r]) {c n : Nat}
    (hn : n ≤ s.emitted.length) (h : s.before c n) : s'.before c n := by
  intro m r' hb hlt hr
  rw [hborn] at hb
  rw [hemitted] at hr
  simp only [World.matched, hcalls]
  rcases getElem?_snoc hr with hr | ⟨rfl, -⟩
  · exact h m r' hb hlt hr
  · omega

theorem History.emit (h : History s) (hp : Places s) {e : E} {k : Key ε}
    (hsafe : WaitsSafe s (.emit e k)) : History (s.emit e k) := by
  unfold World.emit
  split
  · rename_i hnone
    -- without a table for the emitter, no waiting cell matches
    have hunmatched : ∀ c, s.waits c = true → s.matched c (e, k) = false := by
      intro c hc
      by_contra hm
      have hm' : s.matched c (e, k) = true := by simpa using hm
      obtain ⟨k', hk', hcall⟩ := mem_of_matched hm'
      rcases hp.place c hc e k' hcall with hl | ⟨g, hg, hge, p, hgp, hgk, -⟩
      · simp [World.live, hnone] at hl
      · have hgm : s.matched c g.signal = true := by
          refine matched_of_mem (k := k') (by rw [hge]; exact hcall) ?_
          rw [← hgk]
          exact (hp.keys g hg).2 p hgp
        rw [hsafe c hc hm' g hg] at hgm
        cases hgm
    refine ⟨?_, h.distinct, h.later, ?_, ?_, h.single, h.pending, h.unwoken, h.once, ?_, ?_,
      h.timers⟩
    · intro f hf
      exact getElem?_of_snoc _ (h.numbers f hf)
    · intro c hc
      have := h.bornLe c hc
      simp only [length_append, length_singleton]
      omega
    · intro c hc n r hn hr hm
      rcases getElem?_snoc hr with hr | ⟨-, rfl⟩
      · exact h.seen c hc n r hn hr hm
      · have hm' : s.matched c (e, k) = true := hm
        rw [hunmatched c hc] at hm'
        cases hm'
    · intro c n hn
      obtain ⟨h1, ⟨r, hr, hm⟩, h3⟩ := h.signalled c n hn
      have hlt := (List.getElem?_eq_some_iff.mp hr).1
      exact ⟨h1, ⟨r, getElem?_of_snoc _ hr, hm⟩,
        before_snoc (s := s) (r := (e, k)) (by rfl) (by rfl) (by rfl) (Nat.le_of_lt hlt) h3⟩
    · intro c n hn
      obtain ⟨h1, h2, h3⟩ := h.timedOut c n hn
      refine ⟨?_, h2, before_snoc (s := s) (r := (e, k)) (by rfl) (by rfl) (by rfl) h1 h3⟩
      simp only [length_append, length_singleton]
      omega
  · rename_i m hm
    have hlt : ∀ f ∈ s.stack, f.number < s.emitted.length := fun f hf =>
      (List.getElem?_eq_some_iff.mp (h.numbers f hf)).1
    refine ⟨?_, ?_, ?_, ?_, ?_, ?_, ?_, h.unwoken, h.once, ?_, ?_, h.timers⟩
    · intro f hf
      rcases mem_cons.mp hf with rfl | hf
      · simp [Frame.signal]
      · exact getElem?_of_snoc _ (h.numbers f hf)
    · refine List.Pairwise.cons ?_ h.distinct
      intro g hg
      exact Nat.ne_of_gt (hlt g hg)
    · intro f hf c hc
      rcases mem_cons.mp hf with rfl | hf
      · exact h.bornLe c hc
      · exact h.later f hf c hc
    · intro c hc
      have := h.bornLe c hc
      simp only [length_append, length_singleton]
      omega
    · intro c hc n r hn hr hmatched
      rcases getElem?_snoc hr with hr | ⟨rfl, -⟩
      · obtain ⟨f, hf, hfn⟩ := h.seen c hc n r hn hr hmatched
        exact ⟨f, mem_cons_of_mem _ hf, hfn⟩
      · exact ⟨_, mem_cons_self, rfl⟩
    · intro c hc f hf g hg hfm hgm
      rcases mem_cons.mp hf with rfl | hf
      · rcases mem_cons.mp hg with rfl | hg
        · rfl
        · have hgm' : s.matched c g.signal = true := hgm
          rw [hsafe c hc hfm g hg] at hgm'
          cases hgm'
      · rcases mem_cons.mp hg with rfl | hg
        · have hfm' : s.matched c f.signal = true := hfm
          rw [hsafe c hc hgm f hf] at hfm'
          cases hfm'
        · exact h.single c hc f hf g hg hfm hgm
    · intro c hc f hf hmatched
      rcases mem_cons.mp hf with rfl | hf
      · obtain ⟨k', hk', hcall⟩ := mem_of_matched hmatched
        refine ⟨k', hcall, Or.inl ?_⟩
        simpa using hk'
      · exact h.pending c hc f hf hmatched
    · intro c n hn
      obtain ⟨h1, ⟨r, hr, hm⟩, h3⟩ := h.signalled c n hn
      have hlt := (List.getElem?_eq_some_iff.mp hr).1
      exact ⟨h1, ⟨r, getElem?_of_snoc _ hr, hm⟩,
        before_snoc (s := s) (r := (e, k)) (by rfl) (by rfl) (by rfl) (Nat.le_of_lt hlt) h3⟩
    · intro c n hn
      obtain ⟨h1, h2, h3⟩ := h.timedOut c n hn
      refine ⟨?_, h2, before_snoc (s := s) (r := (e, k)) (by rfl) (by rfl) (by rfl) h1 h3⟩
      simp only [length_append, length_singleton]
      omega

theorem timeout_mem_registrations {emitters : List E} {keys : List (Key ε)}
    (hne : emitters ≠ []) : ∃ e, (e, .timeout) ∈ registrations emitters keys true := by
  obtain ⟨e, he⟩ := exists_mem_of_ne_nil _ hne
  refine ⟨e, mem_flatMap.mpr ⟨e, he, ?_⟩⟩
  simp

/-- A new cell has seen no signal; for a task it is made when none is being delivered. -/
theorem History.newCell (h : History s) (hp : Places s) (cell : Cell τ)
    (hcell : (∃ once, cell = .hook once) ∨ s.stack = []) (emitters : List E)
    (keys : List (Key ε)) (timed : Bool) : History (s.newCell cell emitters keys timed) := by
  obtain ⟨timers, htimers, hheap, hreg, -⟩ := newCell_spec hp.heap cell emitters keys timed
  generalize s.newCell cell emitters keys timed = s' at hheap hreg
  have hemitted : s'.emitted = s.emitted := hreg.emitted
  have hstack : s'.stack = s.stack := hreg.stack
  have hwoken : s'.woken = s.woken := hreg.woken
  have hfresh : s.fresh < s'.fresh := hreg.fresh
  have hcalls : ∀ c, c ≠ s.fresh → s'.calls c = s.calls c := by
    intro c hne
    rw [hreg.calls, World.addCell]
    exact update_of_ne hne _ _
  have hborn : ∀ c, c ≠ s.fresh → s'.born c = s.born c := by
    intro c hne
    rw [hreg.born, World.addCell]
    exact update_of_ne hne _ _
  have hnewBorn : s'.born s.fresh = s.emitted.length := by
    rw [hreg.born, World.addCell]
    exact update_self _ _ _
  have hwaits : ∀ c, c ≠ s.fresh → s'.waits c = true → s.waits c = true := by
    intro c hne hc
    rw [← waits_addCell (s := s) cell
      (registrations emitters keys timed) timers hne]
    simpa only [World.waits, hreg.cells] using hc
  have hmatched : ∀ c, c ≠ s.fresh → ∀ r, s'.matched c r = s.matched c r := by
    intro c hne r
    simp only [World.matched, hcalls c hne]
  -- when frames are there, the new cell is a hook
  have hold : ∀ f ∈ s.stack, ∀ c, s'.waits c = true → c ≠ s.fresh := by
    rintro f hf c hc rfl
    rcases hcell with ⟨once, rfl⟩ | hnil
    · simp [World.waits, hreg.cells, World.addCell] at hc
    · rw [hnil] at hf
      cases hf
  have hwokenNe : ∀ c l, s.woken c = l → l ≠ [] → c ≠ s.fresh := by
    rintro c l hl hne rfl
    rw [h.unwoken s.fresh (Or.inr (Nat.le_refl _))] at hl
    exact hne hl.symm
  have hbefore : ∀ c, c ≠ s.fresh → ∀ n, s.before c n → s'.before c n := by
    intro c hne n hb m r hbm hlt hr
    rw [hborn c hne] at hbm
    rw [hemitted] at hr
    rw [hmatched c hne]
    exact hb m r hbm hlt hr
  refine ⟨?_, ?_, ?_, ?_, ?_, ?_, ?_, ?_, ?_, ?_, ?_, ?_⟩
  · rw [hstack, hemitted]
    exact h.numbers
  · rw [hstack]
    exact h.distinct
  · intro f hf c hc
    rw [hstack] at hf
    have hne := hold f hf c hc
    rw [hborn c hne]
    exact h.later f hf c (hwaits c hne hc)
  · intro c hc
    rw [hemitted]
    by_cases hne : c = s.fresh
    · rw [hne, hnewBorn]
    · rw [hborn c hne]
      exact h.bornLe c (hwaits c hne hc)
  · intro c hc n r hn hr hm
    rw [hemitted] at hr
    rw [hstack]
    by_cases hne : c = s.fresh
    · rw [hne, hnewBorn] at hn
      have := (List.getElem?_eq_some_iff.mp hr).1
      omega
    · rw [hborn c hne] at hn
      rw [hmatched c hne] at hm
      exact h.seen c (hwaits c hne hc) n r hn hr hm
  · intro c hc f hf g hg hfm hgm
    rw [hstack] at hf hg
    have hne := hold f hf c hc
    rw [hmatched c hne] at hfm hgm
    exact h.single c (hwaits c hne hc) f hf g hg hfm hgm
  · intro c hc f hf hm
    rw [hstack] at hf
    have hne := hold f hf c hc
    rw [hmatched c hne] at hm
    rw [hcalls c hne]
    exact h.pending c (hwaits c hne hc) f hf hm
  · intro c hc
    rw [hwoken]
    by_cases hne : c = s.fresh
    · exact h.unwoken c (Or.inr (Nat.le_of_eq hne.symm))
    · exact h.unwoken c (hc.imp (hwaits c hne) (Nat.le_trans (Nat.le_of_lt hfresh)))
  · rw [hwoken]
    exact h.once
  · intro c n hn
    rw [hwoken] at hn
    have hne := hwokenNe c _ hn (by simp)
    obtain ⟨h1, ⟨r, hr, hm⟩, h3⟩ := h.signalled c n hn
    rw [hborn c hne, hemitted]
    exact ⟨h1, ⟨r, hr, by rw [hmatched c hne]; exact hm⟩, hbefore c hne n h3⟩
  · intro c n hn
    rw [hwoken] at hn
    have hne := hwokenNe c _ hn (by simp)
    obtain ⟨h1, h2, h3⟩ := h.timedOut c n hn
    rw [hemitted, hcalls c hne]
    exact ⟨h1, h2, hbefore c hne n h3⟩
  · intro c hc
    have hc' : c ∈ timers := by
      rw [hreg.timers] at hc
      exact hc
    rcases htimers c hc' with hc' | ⟨rfl, rfl, hemitters⟩
    · obtain ⟨h1, h2⟩ := h.timers c hc'
      rw [hcalls c (Nat.ne_of_lt h1)]
      exact ⟨Nat.lt_trans h1 hfresh, h2⟩
    · refine ⟨hfresh, ?_⟩
      rw [hreg.calls, World.addCell]
      dsimp only
      rw [update_self]
      exact timeout_mem_registrations hemitters

end Emit

theorem step_history (s : World E ε τ) (e : Event E ε τ)
    (he : Enabled s e ∧ NoTaskKilled s e ∧ WaitsSafe s e) (h : Places s ∧ History s) :
    Places (step s e) ∧ History (step s e) := by
  obtain ⟨hp, hh⟩ := h
  refine ⟨hp.step e he.1, ?_⟩
  cases e with
  | emit e k => exact hh.emit hp he.2.2
  | advance => exact hh.advance hp
  | leave killself => exact hh.leave hp killself
  | sigHook once e keys timed => exact hh.newCell hp _ (Or.inl ⟨once, rfl⟩) [e] keys timed
  | wait t emitters keys timed => exact hh.newCell hp _ (Or.inr he.1) emitters keys timed
  | expire c killself => exact hh.expire hp he.1.1 he.1.2 killself
  | kill c =>
    exact hh.still hp.heap rfl rfl rfl rfl rfl (fun _ hc => (waits_of_emptied hc).2)
      (fun _ => .same rfl) (fun _ hc => hc)
  | gc => exact hh.gc hp
  | resume =>
    exact hh.still hp.heap rfl rfl rfl rfl rfl (fun _ hc => hc) (fun _ => .same rfl)
      (fun _ hc => hc)

/-- In every run in which no signal is emitted for a waiting cell while another one that
matches it is being delivered: a cell is run once at most, for the first matching signal
since the call or for its timeout when there was none; and when no signal is being
delivered, a cell that still waits has been matched by none. -/
theorem waits_woken_first {s : World E ε τ}
    (h : Runs step (fun s e => Enabled s e ∧ NoTaskKilled s e ∧ WaitsSafe s e) init s)
    (c : Nat) :
    (s.woken c).length ≤ 1 ∧
    (∀ n, s.woken c = [.signal n] → s.born c ≤ n ∧
      (∃ r, s.emitted[n]? = some r ∧ s.matched c r = true) ∧ s.before c n) ∧
    (∀ n, s.woken c = [.timeout n] → (∃ e, (e, .timeout) ∈ s.calls c) ∧ s.before c n) ∧
    (s.stack = [] → s.waits c = true → s.before c s.emitted.length) := by
  obtain ⟨-, hh⟩ : Places s ∧ History s :=
    Runs.invariant (I := fun s : World E ε τ => Places s ∧ History s) step_history h
      ⟨places_init, history_init⟩
  refine ⟨hh.once c, hh.signalled c, fun n hn => (hh.timedOut c n hn).2, ?_⟩
  intro hnil hc m r hb _ hr
  by_contra hm
  obtain ⟨f, hf, -⟩ := hh.seen c hc m r hb hr (by simpa using hm)
  rw [hnil] at hf
  cases hf

def pair : List (Event Bool Unit Unit) :=
  [.wait () [false, true] [.named ()] true, .emit true (.named ()), .advance, .advance, .advance,
    .advance, .advance, .emit false (.named ()), .advance, .advance, .advance, .advance]

theorem waits_woken_first_pair :
    (pair.foldl step init).woken 0 = [.signal 0] ∧ (pair.foldl step init).before 0 0 := by
  have hrun : Along step (fun s e => Enabled s e ∧ NoTaskKilled s e ∧ WaitsSafe s e) init pair := by
    refine ⟨⟨rfl, trivial, trivial⟩, ⟨?_, trivial, ?_⟩, ⟨trivial, trivial, trivial⟩,
      ⟨trivial, trivial, trivial⟩, ⟨trivial, trivial, trivial⟩, ⟨trivial, trivial, trivial⟩,
      ⟨trivial, trivial, trivial⟩, ⟨?_, trivial, ?_⟩, ⟨trivial, trivial, trivial⟩,
      ⟨trivial, trivial, trivial⟩, ⟨trivial, trivial, trivial⟩, ⟨trivial, trivial, trivial⟩,
      trivial⟩
    · intro f hf
      cases hf
    · intro c _ _ f hf
      cases hf
    · intro f hf
      cases hf
    · intro c _ _ f hf
      cases hf
  have hwoken : (pair.foldl step init).woken 0 = [.signal 0] := by decide
  exact ⟨hwoken, ((waits_woken_first hrun.runs 0).2.1 0 hwoken).2.2⟩

/-- A hook on `'*'` emits again the signal it is run for. -/
def echoes : List (Event Unit Unit Unit) :=
  [.sigHook false () [.star] false, .wait () [()] [.named ()] false, .emit () (.named ()),
    .advance, .advance, .emit () (.named ()), .advance, .advance, .advance, .advance]

/-- The task returns for the inner signal, although the outer one was emitted before. -/
theorem woken_by_second_signal :
    ¬ ∀ s : World Unit Unit Unit,
      Runs step (fun s e => Enabled s e ∧ NoTaskKilled s e) init s →
      ∀ c n, s.woken c = [.signal n] → s.before c n := by
  intro hall
  have hrun : Along step (fun s e => Enabled s e ∧ NoTaskKilled s e)
      (init : World Unit Unit Unit) echoes := by
    refine ⟨⟨?_, trivial⟩, ⟨rfl, trivial⟩, ⟨?_, trivial⟩, ⟨trivial, trivial⟩,
      ⟨trivial, trivial⟩, ⟨?_, trivial⟩, ⟨trivial, trivial⟩, ⟨trivial, trivial⟩,
      ⟨trivial, trivial⟩, ⟨trivial, trivial⟩, trivial⟩
    · intro f hf
      cases hf
    · intro f hf
      cases hf
    · rintro f ⟨⟩
      exact ⟨_, rfl, by decide⟩
  have hwoken : (echoes.foldl step init).woken 3 = [.signal 1] := by decide
  have hfirst := hall _ hrun.runs 3 1 hwoken 0 ((), .named ()) (by decide) (by decide) (by decide)
  have hmatched : (echoes.foldl step init).matched 3 ((), .named ()) = true := by decide
  rw [hfirst] at hmatched
  cases hmatched

end Mihini.Sched.Signals
