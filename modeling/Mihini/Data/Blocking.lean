import Mihini.Data.Flush
import Mihini.Lib.Run

/-!
# Flushes that wait for each other

A call of `send_policy` that waits for a source is to be woken by another call, or by the flush
that the timer of the source's policy has still to start. This holds, and all calls come to their
end, as long as the tables are visited in an order that agrees with the chains, what is due can be
consolidated, and the clock and the timers keep to the dates that are recorded.
-/

namespace Mihini.Data.Flush

open Mihini.Lib Mihini.Path Function List

variable (G : Graph) (timed : Str → Bool)

/-! ## Statements -/

def Waits (t : Nat) : Prop := ∃ s P, G.src t = some s ∧ G.conso s = some P ∧ timed P = true

/-- The tables can be ranked so that sources come before their destinations, and every list visits
nothing after a table that waits that ranks below it. -/
def Compatible (lists : List (List Nat)) : Prop :=
  ∃ rank : Nat → Nat,
    (∀ t s, G.src t = some s → Waits G timed t → rank s < rank t) ∧
    ∀ l ∈ lists, l.Pairwise fun t r => Waits G timed t → rank t ≤ rank r

/-- The calls in progress visit their tables in an order that agrees with the chains; a timer does
not start before its date; what is due is consolidated; the clock does not go back, nor past the
date of a policy that is being flushed; no date is recorded at which a table of the policy is
due at once. -/
def Orderly (W : State) : Event → Prop
  | .tick now => W.clock ≤ now ∧
    ∀ J ∈ W.jobs, ∀ d, W.nextevent J.policy = some d → W.clock < d → now < d
  | .start policy consolidations _ scheduled =>
    Compatible G timed (W.jobs.map Job.consolidations ++ [consolidations]) ∧
      (scheduled = true → ∀ d, W.nextevent policy = some d → d ≤ W.clock)
  | .proceed i outcomes => ∀ J t rest, W.jobs[i]? = some J → J.consolidations = t :: rest →
    due G W t = true → outcomes.head? ≠ some .failed
  | .finish i nd => ∀ J, W.jobs[i]? = some J → timed J.policy = true →
    ∀ s ∈ G.consolidations J.policy, G.conso s = some J.policy → nd ≤ W.clock →
      ∃ l, W.lastconso s = some l ∧ nd ≤ l
  | _ => True

/-- A call in progress does something, or the timer that a call waits for starts its flush. -/
def Moves (W : State) : Event → Prop
  | .check i => ∃ J, W.jobs[i]? = some J ∧ J.place = .unchecked ∧ J.next.isSome
  | .proceed i _ => ∃ J, W.jobs[i]? = some J ∧ J.place = .checked
  | .finish i _ => ∃ J, W.jobs[i]? = some J ∧ J.place = .unchecked ∧ J.next = none
  | .start policy _ _ scheduled => scheduled = true ∧ ∃ J ∈ W.jobs, ∃ s, J.place = .waiting s ∧
    G.conso s = some policy ∧ ∀ K ∈ W.jobs, s ∉ K.consolidations
  | _ => False

/-- As long as calls are in progress there is a move, and however the moves are made, there comes
a last one. -/
inductive Completes : State → Prop
  | intro (W : State)
      (next : W.jobs ≠ [] → ∃ e, Moves G W e ∧ Legal G W e ∧ Orderly G timed W e)
      (rest : ∀ e, Moves G W e → Legal G W e → Orderly G timed W e →
        Completes (step G timed W e)) : Completes W

/-- No call waits for a table that it has still to consolidate itself, or that neither another call
nor the timer of its policy is to consolidate; and every call comes to its end. -/
structure Unblocked (W : State) : Prop where
  own : ∀ J ∈ W.jobs, ∀ s, J.place = .waiting s → s ∉ J.consolidations
  served : ∀ J ∈ W.jobs, ∀ s, J.place = .waiting s →
    (∃ K ∈ W.jobs, s ∈ K.consolidations) ∨ ∃ P, G.conso s = some P ∧ W.scheduled P = true
  completes : Completes G timed W

/-! ## Small steps -/

variable {G timed} {W : State}

theorem due_iff {s : Nat} : due G W s = true ↔ ∃ P d, G.conso s = some P ∧ W.nextevent P = some d ∧
    d ≤ W.clock ∧ ∀ l, W.lastconso s = some l → l < d := by
  rw [due]
  cases hP : G.conso s with
  | none => simp
  | some P =>
    cases hd : W.nextevent P with
    | none => simp [hd]
    | some d => cases hl : W.lastconso s <;> simp [hd]

theorem due_waits (hdated : ∀ P d, W.nextevent P = some d → timed P = true) {t s : Nat}
    (hsrc : G.src t = some s) (hdue : due G W s = true) : Waits G timed t := by
  obtain ⟨P, d, hP, hd, -, -⟩ := due_iff.mp hdue
  exact ⟨s, P, hsrc, hP, hdated P d hd⟩

theorem wake_cases (ts : List Nat) (J : Job) :
    (wake ts J = J ∧ ∀ s, J.place = .waiting s → s ∉ ts) ∨
      ∃ s ∈ ts, J.place = .waiting s ∧ wake ts J = { J with place := .checked } := by
  unfold wake
  split
  · next s hs =>
    split
    · next hmem => exact .inr ⟨s, hmem, hs, rfl⟩
    · next hnot =>
      refine .inl ⟨rfl, ?_⟩
      intro s' hs'
      obtain rfl := Place.waiting.inj (hs.symm.trans hs')
      exact hnot
  · next hnot => exact .inl ⟨rfl, fun s hs => absurd hs (hnot s)⟩

@[simp] theorem wake_consolidations (ts : List Nat) (J : Job) :
    (wake ts J).consolidations = J.consolidations := by
  rcases wake_cases ts J with ⟨heq, -⟩ | ⟨s, -, -, heq⟩ <;> rw [heq]

theorem due_mark {ts : List Nat} {s : Nat} (h : due G (mark W ts) s = true) :
    due G W s = true ∧ s ∉ ts := by
  obtain ⟨P, d, hP, hd, hclock, hlast⟩ := due_iff.mp h
  by_cases hs : s ∈ ts
  · have hlt : W.clock < d := hlast W.clock (if_pos hs)
    exact absurd hclock (Int.not_le.mpr hlt)
  refine ⟨due_iff.mpr ⟨P, d, hP, hd, hclock, ?_⟩, hs⟩
  intro l hl
  apply hlast l
  show (if s ∈ ts then some W.clock else W.lastconso s) = some l
  rw [if_neg hs, hl]

theorem due_mark_of_notMem {ts : List Nat} {s : Nat} (h : due G W s = true) (hs : s ∉ ts) :
    due G (mark W ts) s = true := by
  obtain ⟨P, d, hP, hd, hclock, hlast⟩ := due_iff.mp h
  refine due_iff.mpr ⟨P, d, hP, hd, hclock, ?_⟩
  intro l hl
  change (if s ∈ ts then some W.clock else W.lastconso s) = some l at hl
  rw [if_neg hs] at hl
  exact hlast l hl

variable {outcomes : List Outcome}

theorem mem_consolidate (h : outcomes.head? ≠ some .failed) (t : Nat) :
    t ∈ consolidate G outcomes t := by
  cases outcomes with
  | nil => exact mem_singleton.mpr rfl
  | cons o os =>
    cases o with
    | failed => exact absurd rfl h
    | empty => exact mem_singleton.mpr rfl
    | stored full => exact mem_append_right _ (mem_singleton.mpr rfl)

variable {i : Nat}

theorem exists_split {α : Type} {l : List α} {a : α} (h : l[i]? = some a) :
    ∃ l₁ l₂, l = l₁ ++ a :: l₂ ∧ (∀ b, l.set i b = l₁ ++ b :: l₂) ∧ l.eraseIdx i = l₁ ++ l₂ := by
  obtain ⟨hi, rfl⟩ := List.getElem?_eq_some_iff.mp h
  refine ⟨l.take i, l.drop (i + 1), ?_, ?_, eraseIdx_eq_take_drop_succ l i⟩
  · rw [← drop_eq_getElem_cons hi, take_append_drop]
  · intro b
    rw [set_eq_take_append_cons_drop, if_pos hi]

/-! ## The invariant -/

structure JobOk (G : Graph) (W : State) (J : Job) : Prop where
  passed : ∀ t s, G.src t = some s → G.conso s = some J.policy → due G W s = true →
    s ∈ J.consolidations
  waiting : ∀ s, J.place = .waiting s → due G W s = true ∧ ∃ t, J.next = some t ∧ G.src t = some s
  checked : J.place = .checked → J.next ≠ none

structure Inv (G : Graph) (timed : Str → Bool) (W : State) : Prop where
  ordered : Compatible G timed (W.jobs.map Job.consolidations)
  dated : ∀ P d, W.nextevent P = some d → timed P = true
  reached : ∀ P d, W.nextevent P = some d → W.scheduled P = false → d ≤ W.clock
  served : ∀ t s P, G.src t = some s → G.conso s = some P → due G W s = true →
    W.scheduled P = true ∨ ∃ J ∈ W.jobs, s ∈ J.consolidations
  job : ∀ J ∈ W.jobs, JobOk G W J

theorem Compatible.mono {lists lists' : List (List Nat)} (h : Compatible G timed lists)
    (hsub : ∀ l' ∈ lists', ∃ l ∈ lists, l'.Sublist l) : Compatible G timed lists' := by
  obtain ⟨rank, hrank, hlists⟩ := h
  refine ⟨rank, hrank, ?_⟩
  intro l' hl'
  obtain ⟨l, hl, hsub⟩ := hsub l' hl'
  exact (hlists l hl).sublist hsub

variable {J : Job}

theorem JobOk.congr (h : JobOk G W J) {W' : State}
    (hless : ∀ s, G.conso s = some J.policy → due G W' s = true → due G W s = true)
    (hkept : ∀ s, J.place = .waiting s → due G W s = true → due G W' s = true) : JobOk G W' J where
  passed := by
    intro t s hsrc hP hdue
    exact h.passed t s hsrc hP (hless s hP hdue)
  waiting := by
    intro s hs
    obtain ⟨hdue, ht⟩ := h.waiting s hs
    exact ⟨hkept s hs hdue, ht⟩
  checked := h.checked

theorem init_dated {clock : Int} {dates : Str → Int} {P : Str} {d : Int}
    (hd : (init timed clock dates).nextevent P = some d) : timed P = true := by
  by_contra hnot
  change (if timed P = true then some (dates P) else none) = some d at hd
  rw [if_neg hnot] at hd
  cases hd

theorem inv_init (clock : Int) (dates : Str → Int) : Inv G timed (init timed clock dates) where
  ordered := by
    refine ⟨id, ?_, ?_⟩
    · intro t s hsrc _
      exact (G.older hsrc).1
    · intro l hl
      cases hl
  dated := fun _ _ => init_dated
  reached := by
    intro P d hd hnot
    change timed P = false at hnot
    rw [init_dated hd] at hnot
    cases hnot
  served := by
    intro t s P _ hP hdue
    obtain ⟨P', d, hP', hd, -, -⟩ := due_iff.mp hdue
    obtain rfl := Option.some.inj (hP.symm.trans hP')
    exact .inl (init_dated hd)
  job := by
    intro J hJ
    cases hJ

theorem Inv.tick (h : Inv G timed W) {now : Int} (hok : Orderly G timed W (.tick now)) :
    Inv G timed { W with clock := now } := by
  obtain ⟨hle, hdates⟩ := hok
  have hkept : ∀ s, due G W s = true → due G { W with clock := now } s = true := by
    intro s hdue
    obtain ⟨P, d, hP, hd, hclock, hlast⟩ := due_iff.mp hdue
    exact due_iff.mpr ⟨P, d, hP, hd, Int.le_trans hclock hle, hlast⟩
  refine ⟨h.ordered, h.dated, ?_, ?_, ?_⟩
  · intro P d hd hnot
    exact Int.le_trans (h.reached P d hd hnot) hle
  · intro t s P hsrc hP hdue
    obtain ⟨P', d, hP', hd, hclock, hlast⟩ := due_iff.mp hdue
    obtain rfl := Option.some.inj (hP.symm.trans hP')
    cases hscheduled : W.scheduled P with
    | true => exact .inl rfl
    | false =>
      have hreached : d ≤ W.clock := h.reached P d hd hscheduled
      have hserved := h.served t s P hsrc hP (due_iff.mpr ⟨P, d, hP, hd, hreached, hlast⟩)
      rw [hscheduled] at hserved
      exact hserved
  · intro J hJ
    apply (h.job J hJ).congr _ fun s _ => hkept s
    intro s hs hdue
    obtain ⟨P, d, hP, hd, hclock, hlast⟩ := due_iff.mp hdue
    obtain rfl := Option.some.inj (hs.symm.trans hP)
    refine due_iff.mpr ⟨J.policy, d, hP, hd, ?_, hlast⟩
    by_contra hnot
    have hlt := hdates J hJ d hd (Int.not_le.mp hnot)
    exact absurd hclock (Int.not_le.mpr hlt)

theorem Inv.start (h : Inv G timed W) {policy : Str} {consolidations tables : List Nat}
    {scheduled : Bool} (hlegal : Legal G W (.start policy consolidations tables scheduled))
    (hok : Orderly G timed W (.start policy consolidations tables scheduled)) :
    Inv G timed (step G timed W (.start policy consolidations tables scheduled)) := by
  obtain ⟨hperm, -, -⟩ := hlegal
  obtain ⟨hordered, hdate⟩ := hok
  have hscheduled : ∀ P, P ≠ policy →
      (if scheduled then update W.scheduled policy false else W.scheduled) P =
        W.scheduled P := by
    intro P hP
    split
    · exact update_of_ne hP ..
    · rfl
  refine ⟨?_, h.dated, ?_, ?_, ?_⟩
  · show Compatible G timed ((W.jobs ++ [_]).map Job.consolidations)
    rw [map_append]
    exact hordered
  · intro P d hd hnot
    change (if scheduled then update W.scheduled policy false else W.scheduled) P = false
      at hnot
    by_cases hP : P = policy
    · subst hP
      cases scheduled with
      | true => exact hdate rfl d hd
      | false => exact h.reached P d hd hnot
    · rw [hscheduled P hP] at hnot
      exact h.reached P d hd hnot
  · intro t s P hsrc hP hdue
    change (if scheduled then update W.scheduled policy false else W.scheduled) P = true ∨
      ∃ J ∈ W.jobs ++ [⟨policy, consolidations, tables, .unchecked⟩], s ∈ J.consolidations
    by_cases hpolicy : P = policy
    · subst hpolicy
      obtain ⟨P', hP', hlisted⟩ := G.listed hsrc
      obtain rfl := Option.some.inj (hP.symm.trans hP')
      exact .inr ⟨_, mem_append_right _ (mem_singleton.mpr rfl), hperm.mem_iff.mpr hlisted⟩
    · rw [hscheduled P hpolicy]
      rcases h.served t s P hsrc hP hdue with hset | ⟨J, hJ, hs⟩
      · exact .inl hset
      · exact .inr ⟨J, mem_append_left _ hJ, hs⟩
  · intro J hJ
    rcases mem_append.mp hJ with hold | hnew
    · exact (h.job J hold).congr (fun _ _ hdue => hdue) fun _ _ hdue => hdue
    obtain rfl := mem_singleton.mp hnew
    refine ⟨?_, ?_, ?_⟩
    · intro t s hsrc hP _
      obtain ⟨P', hP', hlisted⟩ := G.listed hsrc
      obtain rfl := Option.some.inj (hP.symm.trans hP')
      exact hperm.mem_iff.mpr hlisted
    · intro s hs
      cases hs
    · intro hs
      cases hs

theorem Inv.set (h : Inv G timed W) {J J' : Job} (hJ : W.jobs[i]? = some J)
    (hsub : J'.consolidations.Sublist J.consolidations)
    (hleft : ∀ s, s ∈ J.consolidations → due G W s = true → s ∈ J'.consolidations)
    (hok : JobOk G W J') : Inv G timed { W with jobs := W.jobs.set i J' } := by
  obtain ⟨l₁, l₂, hjobs, hset, -⟩ := exists_split hJ
  rw [hset J']
  refine ⟨?_, h.dated, h.reached, ?_, ?_⟩
  · apply h.ordered.mono
    intro l hl
    obtain ⟨K, hK, rfl⟩ := mem_map.mp hl
    rw [hjobs]
    rcases mem_append.mp hK with hK | hK
    · exact ⟨_, mem_map_of_mem (mem_append_left _ hK), List.Sublist.refl _⟩
    · rcases mem_cons.mp hK with rfl | hK
      · exact ⟨_, mem_map_of_mem (mem_append_right _ mem_cons_self), hsub⟩
      · exact ⟨_, mem_map_of_mem (mem_append_right _ (mem_cons_of_mem _ hK)),
          List.Sublist.refl _⟩
  · intro t s P hsrc hP hdue
    rcases h.served t s P hsrc hP hdue with hscheduled | ⟨K, hK, hs⟩
    · exact .inl hscheduled
    · right
      rw [hjobs] at hK
      rcases mem_append.mp hK with hK | hK
      · exact ⟨K, mem_append_left _ hK, hs⟩
      · rcases mem_cons.mp hK with rfl | hK
        · exact ⟨J', mem_append_right _ mem_cons_self, hleft s hs hdue⟩
        · exact ⟨K, mem_append_right _ (mem_cons_of_mem _ hK), hs⟩
  · intro K hK
    have hkeep : K ∈ W.jobs → JobOk G { W with jobs := l₁ ++ J' :: l₂ } K := by
      intro hK
      exact (h.job K hK).congr (fun _ _ hdue => hdue) fun _ _ hdue => hdue
    rw [hjobs] at hkeep
    rcases mem_append.mp hK with hK | hK
    · exact hkeep (mem_append_left _ hK)
    · rcases mem_cons.mp hK with rfl | hK
      · exact hok.congr (fun _ _ hdue => hdue) fun _ _ hdue => hdue
      · exact hkeep (mem_append_right _ (mem_cons_of_mem _ hK))

theorem Inv.mark (h : Inv G timed W) (ts : List Nat) : Inv G timed (mark W ts) := by
  refine ⟨?_, h.dated, h.reached, ?_, ?_⟩
  · apply h.ordered.mono
    intro l hl
    obtain ⟨K, hK, rfl⟩ := mem_map.mp hl
    obtain ⟨J, hJ, rfl⟩ := mem_map.mp hK
    exact ⟨J.consolidations, mem_map_of_mem hJ, by rw [wake_consolidations]⟩
  · intro t s P hsrc hP hdue
    rcases h.served t s P hsrc hP (due_mark hdue).1 with hscheduled | ⟨J, hJ, hs⟩
    · exact .inl hscheduled
    · exact .inr ⟨wake ts J, mem_map_of_mem hJ, by rwa [wake_consolidations]⟩
  · intro K hK
    obtain ⟨J, hJ, rfl⟩ := mem_map.mp hK
    have hok := h.job J hJ
    rcases wake_cases ts J with ⟨heq, hnot⟩ | ⟨s, hs, hplace, heq⟩
    · rw [heq]
      apply hok.congr fun s _ hdue => (due_mark hdue).1
      intro s hs hdue
      exact due_mark_of_notMem hdue (hnot s hs)
    · rw [heq]
      refine ⟨?_, ?_, ?_⟩
      · intro t s hsrc hP hdue
        exact hok.passed t s hsrc hP (due_mark hdue).1
      · intro s hs
        cases hs
      · intro _
        obtain ⟨-, t, ht, -⟩ := hok.waiting s hplace
        show J.next ≠ none
        rw [ht]
        exact Option.some_ne_none t

theorem Inv.check (h : Inv G timed W) (hJ : W.jobs[i]? = some J)
    (hnext : J.next.isSome) :
    Inv G timed { W with jobs := W.jobs.set i (checkSourceConsolidated G W J) } := by
  have hok := h.job J (mem_of_getElem? hJ)
  have hsame : (checkSourceConsolidated G W J).consolidations = J.consolidations := by
    unfold checkSourceConsolidated
    split <;> rfl
  apply h.set hJ
  · rw [hsame]
  · intro s hs _
    rwa [hsame]
  · unfold checkSourceConsolidated
    split
    · refine ⟨hok.passed, nofun, ?_⟩
      intro _
      exact Option.isSome_iff_ne_none.mp hnext
    · next s hs =>
      obtain ⟨t, ht, hsrc⟩ := Option.bind_eq_some_iff.mp hs
      refine ⟨hok.passed, ?_, ?_⟩
      · intro s' hs'
        change (if due G W s = true then Place.waiting s else .checked) = .waiting s' at hs'
        split at hs'
        · next hdue =>
          obtain rfl := Place.waiting.inj hs'
          exact ⟨hdue, t, ht, hsrc⟩
        · cases hs'
      · intro _
        exact Option.isSome_iff_ne_none.mp hnext

theorem proceed_eq {t : Nat} {rest : List Nat} (outcomes : List Outcome)
    (hrest : J.consolidations = t :: rest) :
    proceed G W i J outcomes =
      { mark W (consolidate G outcomes t) with
        jobs := (mark W (consolidate G outcomes t)).jobs.set i
          { J with consolidations := rest, place := .unchecked } } := by
  have hwake : wake (consolidate G outcomes t)
      { J with consolidations := rest, place := .unchecked } =
        { J with consolidations := rest, place := .unchecked } := rfl
  unfold proceed
  rw [hrest]
  show mark _ _ = _
  rw [mark, mark, map_set, hwake]

theorem mark_getElem? (hJ : W.jobs[i]? = some J) (ts : List Nat)
    (hplace : J.place = .checked) : (mark W ts).jobs[i]? = some J := by
  show (W.jobs.map (wake ts))[i]? = some J
  rw [List.getElem?_map, hJ]
  apply congrArg some
  rcases wake_cases ts J with ⟨heq, -⟩ | ⟨s, -, hs, -⟩
  · exact heq
  · rw [hplace] at hs
    cases hs

theorem due_left (hok : Orderly G timed W (.proceed i outcomes))
    (hJ : W.jobs[i]? = some J) {t : Nat} {rest : List Nat}
    (hconso : J.consolidations = t :: rest) (s : Nat) (hs : s ∈ J.consolidations)
    (hdue : due G (mark W (consolidate G outcomes t)) s = true) : s ∈ rest := by
  rw [hconso] at hs
  rcases mem_cons.mp hs with rfl | hs
  · obtain ⟨hdue, hnot⟩ := due_mark hdue
    exact absurd (mem_consolidate (hok J s rest hJ hconso hdue) s) hnot
  · exact hs

theorem Inv.proceed (h : Inv G timed W) (hJ : W.jobs[i]? = some J)
    (hplace : J.place = .checked)
    (hok : Orderly G timed W (.proceed i outcomes)) : Inv G timed (proceed G W i J outcomes) := by
  have hjob := h.job J (mem_of_getElem? hJ)
  cases hconso : J.consolidations with
  | cons t rest =>
    rw [proceed_eq outcomes hconso]
    have hmark := h.mark (consolidate G outcomes t)
    have hget := mark_getElem? hJ (consolidate G outcomes t) hplace
    have hleft := due_left hok hJ hconso
    apply hmark.set hget
    · rw [hconso]
      exact sublist_cons_self t rest
    · exact hleft
    · have hmarked := hmark.job J (mem_of_getElem? hget)
      refine ⟨?_, nofun, nofun⟩
      intro t' s hsrc hP hdue
      exact hleft s (hmarked.passed t' s hsrc hP hdue) hdue
  | nil =>
    unfold Flush.proceed
    rw [hconso]
    cases htables : J.tables with
    | nil => exact h
    | cons t rest =>
      apply h.set hJ
      · rw [hconso]
      · intro s hs _
        exact hconso ▸ hs
      · refine ⟨?_, nofun, nofun⟩
        intro t' s hsrc hP hdue
        exact hconso ▸ hjob.passed t' s hsrc hP hdue

theorem next_eq_none (h : J.next = none) : J.consolidations = [] ∧ J.tables = [] := by
  rw [Job.next] at h
  split at h
  · cases h
  · next hnil => exact ⟨hnil, List.head?_eq_none_iff.mp h⟩

theorem due_finish (hJ : W.jobs[i]? = some J) {nd : Int}
    (hok : Orderly G timed W (.finish i nd)) {t s : Nat} (hsrc : G.src t = some s) :
    due G (finish timed W i J nd) s = true ↔ G.conso s ≠ some J.policy ∧ due G W s = true := by
  by_cases hpolicy : G.conso s = some J.policy
  · simp only [hpolicy, ne_eq, not_true_eq_false, false_and, iff_false]
    intro hdue
    obtain ⟨P, d, hP, hd, hclock, hlast⟩ := due_iff.mp hdue
    obtain rfl := Option.some.inj (hpolicy.symm.trans hP)
    change update W.nextevent J.policy (if timed J.policy = true then some nd else none)
      J.policy = some d at hd
    rw [update_self] at hd
    split at hd
    · next htimed =>
      obtain rfl := Option.some.inj hd
      obtain ⟨P, hP, hlisted⟩ := G.listed hsrc
      obtain rfl := Option.some.inj (hpolicy.symm.trans hP)
      obtain ⟨l, hl, hle⟩ := hok J hJ htimed s hlisted hpolicy hclock
      exact absurd (hlast l hl) (Int.not_lt.mpr hle)
    · cases hd
  · have hsame : ∀ P, G.conso s = some P →
        (finish timed W i J nd).nextevent P = W.nextevent P := by
      intro P hP
      apply update_of_ne
      rintro rfl
      exact hpolicy hP
    simp only [ne_eq, hpolicy, not_false_eq_true, true_and]
    rw [due_iff, due_iff]
    constructor
    · rintro ⟨P, d, hP, hd, hrest⟩
      exact ⟨P, d, hP, (hsame P hP).symm.trans hd, hrest⟩
    · rintro ⟨P, d, hP, hd, hrest⟩
      exact ⟨P, d, hP, (hsame P hP).trans hd, hrest⟩

theorem Inv.finish (h : Inv G timed W) (hJ : W.jobs[i]? = some J)
    (hnext : J.next = none) {nd : Int} (hok : Orderly G timed W (.finish i nd)) :
    Inv G timed (finish timed W i J nd) := by
  obtain ⟨l₁, l₂, hjobs, -, herase⟩ := exists_split hJ
  have hmem : ∀ K, K ∈ W.jobs ↔ K = J ∨ K ∈ W.jobs.eraseIdx i := by
    intro K
    rw [herase, hjobs]
    simp only [mem_append, mem_cons]
    tauto
  refine ⟨?_, ?_, ?_, ?_, ?_⟩
  · apply h.ordered.mono
    intro l hl
    obtain ⟨K, hK, rfl⟩ := mem_map.mp hl
    exact ⟨_, mem_map_of_mem ((hmem K).mpr (.inr hK)), List.Sublist.refl _⟩
  · intro P d hd
    change update W.nextevent J.policy _ P = some d at hd
    by_cases hP : P = J.policy
    · subst hP
      rw [update_self] at hd
      by_contra hnot
      rw [if_neg hnot] at hd
      cases hd
    · rw [update_of_ne hP] at hd
      exact h.dated P d hd
  · intro P d hd hnot
    change update W.nextevent J.policy _ P = some d at hd
    change update W.scheduled J.policy _ P = false at hnot
    by_cases hP : P = J.policy
    · subst hP
      rw [update_self] at hd hnot
      rw [hnot, if_neg Bool.false_ne_true] at hd
      cases hd
    · rw [update_of_ne hP] at hd hnot
      exact h.reached P d hd hnot
  · intro t s P hsrc hP hdue
    obtain ⟨hpolicy, hdue⟩ := (due_finish hJ hok hsrc).mp hdue
    have hne : P ≠ J.policy := by
      rintro rfl
      exact hpolicy hP
    show update W.scheduled J.policy _ P = true ∨ ∃ K ∈ W.jobs.eraseIdx i, _
    rw [update_of_ne hne]
    rcases h.served t s P hsrc hP hdue with hscheduled | ⟨K, hK, hs⟩
    · exact .inl hscheduled
    · rcases (hmem K).mp hK with rfl | hK
      · rw [(next_eq_none hnext).1] at hs
        cases hs
      · exact .inr ⟨K, hK, hs⟩
  · intro K hK
    have hK' : K ∈ W.jobs := (hmem K).mpr (.inr hK)
    have hjob := h.job K hK'
    refine ⟨?_, ?_, hjob.checked⟩
    · intro t s hsrc hP hdue
      exact hjob.passed t s hsrc hP ((due_finish hJ hok hsrc).mp hdue).2
    · intro s hs
      obtain ⟨hdue, t, ht, hsrc⟩ := hjob.waiting s hs
      refine ⟨(due_finish hJ hok hsrc).mpr ⟨?_, hdue⟩, t, ht, hsrc⟩
      -- The call that ends has passed the tables of its policy.
      intro hpolicy
      have hpassed := (h.job J (mem_of_getElem? hJ)).passed t s hsrc hpolicy hdue
      rw [(next_eq_none hnext).1] at hpassed
      cases hpassed

theorem Inv.step (h : Inv G timed W) {e : Event} (hlegal : Legal G W e)
    (hok : Orderly G timed W e) : Inv G timed (step G timed W e) := by
  cases e with
  | tick now => exact h.tick hok
  | start policy consolidations tables scheduled => exact h.start hlegal hok
  | check i =>
    rw [Flush.step]
    split
    · next J hJ =>
      split
      · next hcond => exact h.check hJ hcond.2
      · exact h
    · exact h
  | proceed i outcomes =>
    rw [Flush.step]
    split
    · next J hJ =>
      split
      · next hplace => exact h.proceed hJ hplace hok
      · exact h
    · exact h
  | finish i nd =>
    rw [Flush.step]
    split
    · next J hJ =>
      split
      · next hcond => exact h.finish hJ hcond.2 hok
      · exact h
    · exact h
  | tableRow t outcomes => exact h.mark _
  | consoTrigger t outcomes =>
    rw [Flush.step]
    split
    · exact h.mark _
    · exact h

end Mihini.Data.Flush
