import Mathlib.Algebra.GroupWithZero.Nat
import Mathlib.Data.Finset.Card
import Mathlib.Order.Interval.Finset.Nat
import Mihini.Data.Blocking

/-!
# Every flush comes to its end

The calls in progress cannot wait for each other in a circle, since they visit their tables in an
order that agrees with the chains. And as the clock stands still, ever fewer tables are due.
-/

namespace Mihini.Data.Flush

open Mihini.Lib Mihini.Path List

variable {G : Graph} {timed : Str → Bool} {W : State}

/-! ## Some call moves -/

variable {J : Job}

/-- A call that waits has only tables that rank above what it waits for. -/
theorem rank_lt (hok : JobOk G W J) (hdated : ∀ P d, W.nextevent P = some d → timed P = true)
    {rank : Nat → Nat} (hrank : ∀ t s, G.src t = some s → Waits G timed t → rank s < rank t)
    (hsorted : J.consolidations.Pairwise fun t r => Waits G timed t → rank t ≤ rank r) {s r : Nat}
    (hplace : J.place = .waiting s) (hr : r ∈ J.consolidations) : rank s < rank r := by
  obtain ⟨hdue, t, ht, hsrc⟩ := hok.waiting s hplace
  have hwaits : Waits G timed t := due_waits hdated hsrc hdue
  have hlt : rank s < rank t := hrank t s hsrc hwaits
  rw [Job.next] at ht
  cases hconso : J.consolidations with
  | nil =>
    rw [hconso] at hr
    cases hr
  | cons t' rest =>
    rw [hconso] at ht hr hsorted
    obtain rfl := Option.some.inj ht
    rcases mem_cons.mp hr with rfl | hr
    · exact hlt
    · have hle : rank t' ≤ rank r := rel_of_pairwise_cons hsorted hr hwaits
      omega

theorem Inv.own (h : Inv G timed W) (hJ : J ∈ W.jobs) {s : Nat}
    (hplace : J.place = .waiting s) : s ∉ J.consolidations := by
  intro hs
  obtain ⟨rank, hrank, hsorted⟩ := h.ordered
  have hlt := rank_lt (h.job J hJ) h.dated hrank (hsorted _ (mem_map_of_mem hJ)) hplace hs
  exact Nat.lt_irrefl _ hlt

theorem moves_of_not_waiting (hJ : J ∈ W.jobs)
    (hplace : ∀ s, J.place ≠ .waiting s) :
    ∃ e, Moves G W e ∧ Legal G W e ∧ Orderly G timed W e := by
  obtain ⟨i, hi⟩ := mem_iff_getElem?.mp hJ
  cases hp : J.place with
  | waiting s => exact absurd hp (hplace s)
  | checked =>
    refine ⟨.proceed i [], ⟨J, hi, hp⟩, trivial, ?_⟩
    intro K t rest _ _ _ hhead
    cases hhead
  | unchecked =>
    cases hnext : J.next with
    | some t => exact ⟨.check i, ⟨J, hi, hp, by rw [hnext]; rfl⟩, trivial, trivial⟩
    | none =>
      -- The next date may lie ahead.
      refine ⟨.finish i (W.clock + 1), ⟨J, hi, hp, hnext⟩, trivial, ?_⟩
      intro K _ _ s _ _ hle
      omega

theorem moves_of_waiting (h : Inv G timed W) {rank : Nat → Nat}
    (hrank : ∀ t s, G.src t = some s → Waits G timed t → rank s < rank t)
    (hsorted : ∀ l ∈ W.jobs.map Job.consolidations,
      l.Pairwise fun t r => Waits G timed t → rank t ≤ rank r) (n : Nat) :
    ∀ J ∈ W.jobs, ∀ s, J.place = .waiting s → rank s = n →
      ∃ e, Moves G W e ∧ Legal G W e ∧ Orderly G timed W e := by
  induction n using Nat.strong_induction_on with
  | h n ih =>
    intro J hJ s hplace hs
    by_cases hother : ∃ K ∈ W.jobs, s ∈ K.consolidations
    · obtain ⟨K, hK, hmem⟩ := hother
      by_cases hwait : ∃ s', K.place = .waiting s'
      · obtain ⟨s', hplace'⟩ := hwait
        have hlt : rank s' < rank s := rank_lt (h.job K hK) h.dated hrank
          (hsorted _ (mem_map_of_mem hK)) hplace' hmem
        exact ih (rank s') (hs ▸ hlt) K hK s' hplace' rfl
      · exact moves_of_not_waiting hK (not_exists.mp hwait)
    · -- Only the timer can start what is waited for.
      obtain ⟨hdue, t, -, hsrc⟩ := (h.job J hJ).waiting s hplace
      obtain ⟨P, d, hP, hd, hclock, -⟩ := due_iff.mp hdue
      have hscheduled : W.scheduled P = true := (h.served t s P hsrc hP hdue).resolve_right hother
      let order := (G.consolidations P).insertionSort fun t r => rank t ≤ rank r
      have hperm : order.Perm (G.consolidations P) := perm_insertionSort _ _
      have : Std.Total fun t r => rank t ≤ rank r := ⟨fun t r => Nat.le_total (rank t) (rank r)⟩
      have : IsTrans Nat fun t r => rank t ≤ rank r := ⟨fun _ _ _ => Nat.le_trans⟩
      have horder : order.Pairwise fun t r => rank t ≤ rank r := pairwise_insertionSort _ _
      refine ⟨.start P order (G.tables P) true, ⟨rfl, J, hJ, s, hplace, hP, ?_⟩,
        ⟨hperm, List.Perm.refl _, fun _ => hscheduled⟩, ⟨rank, hrank, ?_⟩, ?_⟩
      · intro K hK hmem
        exact hother ⟨K, hK, hmem⟩
      · intro l hl
        rcases mem_append.mp hl with hl | hl
        · exact hsorted l hl
        · obtain rfl := mem_singleton.mp hl
          exact horder.imp fun {t r} hle (_ : Waits G timed t) => hle
      · intro _ d' hd'
        obtain rfl := Option.some.inj (hd.symm.trans hd')
        exact hclock

theorem Inv.moves (h : Inv G timed W) (hjobs : W.jobs ≠ []) :
    ∃ e, Moves G W e ∧ Legal G W e ∧ Orderly G timed W e := by
  obtain ⟨J, hJ⟩ := exists_mem_of_ne_nil _ hjobs
  by_cases hwait : ∃ s, J.place = .waiting s
  · obtain ⟨s, hplace⟩ := hwait
    obtain ⟨rank, hrank, hsorted⟩ := h.ordered
    exact moves_of_waiting h hrank hsorted (rank s) J hJ s hplace rfl
  · exact moves_of_not_waiting hJ (not_exists.mp hwait)

/-! ## The moves come to an end -/

def unserved (G : Graph) (W : State) : Finset Nat :=
  (Finset.range G.size).filter fun s =>
    (∃ t < G.size, G.src t = some s) ∧ due G W s = true ∧ ∀ J ∈ W.jobs, s ∉ J.consolidations

def Job.weight (J : Job) : Nat :=
  2 * (J.consolidations.length + J.tables.length) + if J.place = .unchecked then 1 else 0

def weight (W : State) : Nat := (W.jobs.map Job.weight).sum

theorem mem_unserved {s : Nat} : s ∈ unserved G W ↔
    (∃ t, G.src t = some s) ∧ due G W s = true ∧ ∀ J ∈ W.jobs, s ∉ J.consolidations := by
  rw [unserved, Finset.mem_filter, Finset.mem_range]
  constructor
  · rintro ⟨-, ⟨t, -, hsrc⟩, hrest⟩
    exact ⟨⟨t, hsrc⟩, hrest⟩
  · rintro ⟨⟨t, hsrc⟩, hrest⟩
    obtain ⟨hlt, hsize⟩ := G.older hsrc
    exact ⟨Nat.lt_trans hlt hsize, ⟨t, hsize, hsrc⟩, hrest⟩

def Less (G : Graph) (W' W : State) : Prop :=
  (unserved G W').card < (unserved G W).card ∨
    (unserved G W').card ≤ (unserved G W).card ∧ weight W' < weight W

variable {i : Nat}

theorem unserved_set {J J' : Job} (hJ : W.jobs[i]? = some J)
    (hleft : ∀ s, s ∈ J.consolidations → due G W s = true → s ∈ J'.consolidations) :
    unserved G { W with jobs := W.jobs.set i J' } ⊆ unserved G W := by
  obtain ⟨l₁, l₂, hjobs, hset, -⟩ := exists_split hJ
  intro s hs
  obtain ⟨hsrc, hdue, hnone⟩ := mem_unserved.mp hs
  refine mem_unserved.mpr ⟨hsrc, hdue, ?_⟩
  intro K hK hmem
  change ∀ J ∈ W.jobs.set i J', s ∉ J.consolidations at hnone
  rw [hset J'] at hnone
  rw [hjobs] at hK
  rcases mem_append.mp hK with hK | hK
  · exact hnone K (mem_append_left _ hK) hmem
  · rcases mem_cons.mp hK with rfl | hK
    · exact hnone J' (mem_append_right _ mem_cons_self) (hleft s hmem hdue)
    · exact hnone K (mem_append_right _ (mem_cons_of_mem _ hK)) hmem

theorem weight_set {J J' : Job} (hJ : W.jobs[i]? = some J)
    (hlt : J'.weight < J.weight) : weight { W with jobs := W.jobs.set i J' } < weight W := by
  obtain ⟨l₁, l₂, hjobs, hset, -⟩ := exists_split hJ
  show ((W.jobs.set i J').map Job.weight).sum < (W.jobs.map Job.weight).sum
  rw [hset J', hjobs]
  simp only [map_append, map_cons, sum_append, sum_cons]
  omega

theorem unserved_mark (ts : List Nat) : unserved G (mark W ts) ⊆ unserved G W := by
  intro s hs
  obtain ⟨hsrc, hdue, hnone⟩ := mem_unserved.mp hs
  refine mem_unserved.mpr ⟨hsrc, (due_mark hdue).1, ?_⟩
  intro K hK hmem
  apply hnone (wake ts K) (mem_map_of_mem hK)
  rwa [wake_consolidations]

theorem weight_mark (ts : List Nat) : weight (mark W ts) = weight W := by
  show ((W.jobs.map (wake ts)).map Job.weight).sum = (W.jobs.map Job.weight).sum
  rw [map_map]
  congr 1
  apply map_congr_left
  intro J _
  show (wake ts J).weight = J.weight
  rcases wake_cases ts J with ⟨heq, -⟩ | ⟨s, -, hs, heq⟩
  · rw [heq]
  · rw [heq, Job.weight, Job.weight, hs]
    rfl

theorem less_check (hJ : W.jobs[i]? = some J) (hplace : J.place = .unchecked) :
    Less G { W with jobs := W.jobs.set i (checkSourceConsolidated G W J) } W := by
  have hconso : (checkSourceConsolidated G W J).consolidations = J.consolidations := by
    unfold checkSourceConsolidated
    split <;> rfl
  have htables : (checkSourceConsolidated G W J).tables = J.tables := by
    unfold checkSourceConsolidated
    split <;> rfl
  have hchecked : (checkSourceConsolidated G W J).place ≠ .unchecked := by
    unfold checkSourceConsolidated
    split
    · exact nofun
    · show (if _ then Place.waiting _ else Place.checked) ≠ _
      split <;> exact nofun
  refine .inr ⟨Finset.card_le_card (unserved_set hJ ?_), weight_set hJ ?_⟩
  · intro s hs _
    rwa [hconso]
  · rw [Job.weight, Job.weight, hconso, htables, if_pos hplace, if_neg hchecked]
    omega

theorem less_proceed (h : Inv G timed W) (hJ : W.jobs[i]? = some J)
    (hplace : J.place = .checked) {outcomes : List Outcome}
    (hok : Orderly G timed W (.proceed i outcomes)) : Less G (proceed G W i J outcomes) W := by
  have hchecked : J.place ≠ .unchecked := by
    rw [hplace]
    exact nofun
  cases hconso : J.consolidations with
  | cons t rest =>
    rw [proceed_eq outcomes hconso]
    have hget := mark_getElem? hJ (consolidate G outcomes t) hplace
    right
    constructor
    · apply Finset.card_le_card
      apply Finset.Subset.trans _ (unserved_mark (consolidate G outcomes t))
      exact unserved_set hget (due_left hok hJ hconso)
    · rw [← @weight_mark W (consolidate G outcomes t)]
      apply weight_set hget
      rw [Job.weight, Job.weight, hconso, if_neg hchecked, if_pos rfl, length_cons]
      show 2 * (rest.length + J.tables.length) + 1 < _
      omega
  | nil =>
    cases htables : J.tables with
    | nil =>
      exfalso
      apply (h.job J (mem_of_getElem? hJ)).checked hplace
      rw [Job.next, hconso, htables]
      rfl
    | cons t rest =>
      rw [Flush.proceed, hconso, htables]
      refine .inr ⟨Finset.card_le_card (unserved_set hJ ?_), weight_set hJ ?_⟩
      · intro s hs _
        exact hconso ▸ hs
      · rw [Job.weight, Job.weight, hconso, htables, if_neg hchecked, if_pos rfl, length_cons]
        show 2 * (([] : List Nat).length + rest.length) + 1 < _
        omega

theorem less_finish (hJ : W.jobs[i]? = some J) (hplace : J.place = .unchecked)
    (hnext : J.next = none) {nd : Int} (hok : Orderly G timed W (.finish i nd)) :
    Less G (finish timed W i J nd) W := by
  obtain ⟨l₁, l₂, hjobs, -, herase⟩ := exists_split hJ
  obtain ⟨hconso, htables⟩ := next_eq_none hnext
  right
  constructor
  · apply Finset.card_le_card
    intro s hs
    obtain ⟨⟨t, hsrc⟩, hdue, hnone⟩ := mem_unserved.mp hs
    refine mem_unserved.mpr ⟨⟨t, hsrc⟩, ((due_finish hJ hok hsrc).mp hdue).2, ?_⟩
    intro K hK hmem
    change ∀ K ∈ W.jobs.eraseIdx i, s ∉ K.consolidations at hnone
    rw [herase] at hnone
    rw [hjobs] at hK
    rcases mem_append.mp hK with hK | hK
    · exact hnone K (mem_append_left _ hK) hmem
    · rcases mem_cons.mp hK with rfl | hK
      · rw [hconso] at hmem
        cases hmem
      · exact hnone K (mem_append_right _ hK) hmem
  · show ((W.jobs.eraseIdx i).map Job.weight).sum < (W.jobs.map Job.weight).sum
    rw [herase, hjobs]
    simp only [map_append, map_cons, sum_append, sum_cons]
    have hpos : 0 < J.weight := by
      rw [Job.weight, hconso, htables, if_pos hplace]
      decide
    omega

theorem less_start {policy : Str} {consolidations tables : List Nat}
    (h : Inv G timed W) (hmoves : Moves G W (.start policy consolidations tables true))
    (hlegal : Legal G W (.start policy consolidations tables true)) :
    Less G (step G timed W (.start policy consolidations tables true)) W := by
  obtain ⟨-, J, hJ, s, hplace, hP, hnone⟩ := hmoves
  obtain ⟨hdue, t, -, hsrc⟩ := (h.job J hJ).waiting s hplace
  left
  apply Finset.card_lt_card
  rw [Finset.ssubset_iff_of_subset]
  · refine ⟨s, mem_unserved.mpr ⟨⟨t, hsrc⟩, hdue, hnone⟩, ?_⟩
    intro hs
    obtain ⟨-, -, hnew⟩ := mem_unserved.mp hs
    apply hnew _ (mem_append_right _ (mem_singleton.mpr rfl))
    obtain ⟨P, hP', hlisted⟩ := G.listed hsrc
    obtain rfl := Option.some.inj (hP.symm.trans hP')
    exact hlegal.1.mem_iff.mpr hlisted
  · intro r hr
    obtain ⟨hsrc, hdue, hnew⟩ := mem_unserved.mp hr
    exact mem_unserved.mpr ⟨hsrc, hdue, fun K hK => hnew K (mem_append_left _ hK)⟩

theorem Inv.less (h : Inv G timed W) {e : Event} (hmoves : Moves G W e) (hlegal : Legal G W e)
    (hok : Orderly G timed W e) : Less G (Flush.step G timed W e) W := by
  cases e with
  | check i =>
    obtain ⟨J, hJ, hplace, hnext⟩ := hmoves
    rw [Flush.step, hJ]
    dsimp only
    rw [if_pos ⟨hplace, hnext⟩]
    exact less_check hJ hplace
  | proceed i outcomes =>
    obtain ⟨J, hJ, hplace⟩ := hmoves
    rw [Flush.step, hJ]
    dsimp only
    rw [if_pos hplace]
    exact less_proceed h hJ hplace hok
  | finish i nd =>
    obtain ⟨J, hJ, hplace, hnext⟩ := hmoves
    rw [Flush.step, hJ]
    dsimp only
    rw [if_pos ⟨hplace, hnext⟩]
    exact less_finish hJ hplace hnext hok
  | start policy consolidations tables scheduled =>
    obtain rfl := hmoves.1
    exact less_start h hmoves hlegal
  | tick now => exact hmoves.elim
  | tableRow t outcomes => exact hmoves.elim
  | consoTrigger t outcomes => exact hmoves.elim

theorem less_wf (G : Graph) : WellFounded (Less G) := by
  apply Subrelation.wf _ (InvImage.wf (fun W => ((unserved G W).card, weight W))
    (Prod.lex Nat.lt_wfRel Nat.lt_wfRel).wf)
  intro W' W hless
  show Prod.Lex _ _ ((unserved G W').card, weight W') ((unserved G W).card, weight W)
  rcases hless with hlt | ⟨hle, hlt⟩
  · exact Prod.Lex.left _ _ hlt
  · rcases Nat.lt_or_eq_of_le hle with hlt' | heq
    · exact Prod.Lex.left _ _ hlt'
    · rw [heq]
      exact Prod.Lex.right _ hlt

theorem Inv.completes (h : Inv G timed W) : Completes G timed W := by
  induction W using (less_wf G).induction with
  | _ W ih =>
    refine .intro W h.moves ?_
    intro e hmoves hlegal hok
    exact ih _ (h.less hmoves hlegal hok) (h.step hlegal hok)

/-! ## Runs -/

/-- Whatever tables there are and whoever flushes what: as long as the tables are visited in orders
that agree with the chains, what is due is consolidated, and the clock and the timers keep to the
dates that are recorded, no flush blocks. -/
theorem flush_never_blocks {policies : List Str} {canon : Str → Str} {T : Tables}
    (hT : Runs (Tables.step policies canon) (fun _ _ => True) Tables.init T) {clock : Int}
    {dates : Str → Int}
    (h : Runs (step (T.graph (Tables.linked hT)) timed)
      (fun W e => Legal (T.graph (Tables.linked hT)) W e ∧
        Orderly (T.graph (Tables.linked hT)) timed W e) (init timed clock dates) W) :
    Unblocked (T.graph (Tables.linked hT)) timed W := by
  have hinv : Inv (T.graph (Tables.linked hT)) timed W :=
    h.invariant (fun _ _ he hinv => hinv.step he.1 he.2) (inv_init clock dates)
  refine ⟨fun J hJ s hplace => hinv.own hJ hplace, ?_, hinv.completes⟩
  intro J hJ s hplace
  obtain ⟨hdue, t, -, hsrc⟩ := (hinv.job J hJ).waiting s hplace
  obtain ⟨P, d, hP, -⟩ := due_iff.mp hdue
  rcases hinv.served t s P hsrc hP hdue with hscheduled | hother
  · exact .inr ⟨P, hP, hscheduled⟩
  · exact .inl hother

def chain (P Q : Str) : List Tables.Event :=
  [.tableNew "asset".toList "a".toList "ram".toList (some never) [⟨false, "x".toList⟩] false none,
    .consoNew "ram:asset.a-x.tbl".toList "b".toList "ram".toList [⟨true, "x".toList⟩] (some never)
      (some P) false none,
    .consoNew "ram:asset.b-x.tbl".toList "c".toList "ram".toList [⟨true, "x".toList⟩] none
      (some Q) false none]

def chained (P Q : Str) : Tables :=
  (chain P Q).foldl (Tables.step ["default".toList, never, P, Q] id) Tables.init

theorem runs_chain (P Q : Str) : Runs (Tables.step ["default".toList, never, P, Q] id)
    (fun _ _ => True) Tables.init (chained P Q) :=
  Along.runs ⟨trivial, trivial, trivial, trivial⟩

/-- The daily flush waits for the hourly one. -/
theorem flush_never_blocks_daily :
    let hourly := "hourly".toList
    let daily := "daily".toList
    let G := (chained hourly daily).graph (Tables.linked (runs_chain hourly daily))
    let timed := fun P => P = hourly ∨ P = daily
    Unblocked G timed
      ([Event.start daily [1] [] true, .check 0].foldl (step G timed) (init timed 60 fun _ => 60)) := by
  intro hourly daily G timed
  apply flush_never_blocks (runs_chain hourly daily)
  apply Along.runs
  refine ⟨⟨⟨by decide, by decide, by decide⟩, ⟨id, ?_, ?_⟩, ?_⟩, ⟨trivial, trivial⟩, trivial⟩
  · intro t s hsrc _
    exact (G.older hsrc).1
  · intro l hl
    obtain rfl := mem_singleton.mp hl
    exact pairwise_singleton _ _
  · intro _ d hd
    obtain rfl := Option.some.inj hd
    decide

/-- One policy consolidates both sources, the second one first. -/
theorem chain_waits_for_itself :
    ¬ ∀ (policies : List Str) (canon : Str → Str) (T : Tables)
      (hT : Runs (Tables.step policies canon) (fun _ _ => True) Tables.init T) (timed : Str → Bool)
      (clock : Int) (dates : Str → Int) (W : State),
      Runs (step (T.graph (Tables.linked hT)) timed) (Legal (T.graph (Tables.linked hT)))
        (init timed clock dates) W → Unblocked (T.graph (Tables.linked hT)) timed W := by
  intro hall
  let hourly := "hourly".toList
  let G := (chained hourly hourly).graph (Tables.linked (runs_chain hourly hourly))
  let timed : Str → Bool := fun P => P = hourly
  have hruns : Runs (step G timed) (Legal G) (init timed 60 fun _ => 60)
      ([Event.start hourly [1, 0] [] true, .check 0].foldl (step G timed)
        (init timed 60 fun _ => 60)) :=
    Along.runs ⟨⟨by decide, by decide, by decide⟩, trivial, trivial⟩
  have hblocked := hall _ _ _ (runs_chain hourly hourly) timed 60 (fun _ => 60) _ hruns
  exact hblocked.own ⟨hourly, [1, 0], [], .waiting 0⟩ (by decide) 0 rfl (by decide)

end Mihini.Data.Flush
