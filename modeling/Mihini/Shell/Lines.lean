import Mihini.Shell.Telnet

/-!
# The order of lines

Lines wait in the fifo of the action loop and, while a task is in foreground, in `linebuf`.  They are used
in their order of arrival as long as no line overtakes those of `linebuf`.
-/

namespace Mihini.Shell

open Mihini.Lib List

/-! ## The flow of lines -/

def Item.id? : Item → Option Nat
  | .line l => some l.id
  | _ => none

def ids (queue : List Item) : List Nat := queue.filterMap Item.id?

/-- The first event has come before the second one, if that one drops lines. -/
def Item.Precedes : Item → Item → Prop
  | .line l, .interrupt received | .line l, .suspend received => l.id < received
  | _, _ => True

/-- The event has come while no more than `received` lines had. -/
def Item.Old (received : Nat) : Item → Prop
  | .line l => l.id < received
  | .interrupt n | .suspend n => n ≤ received
  | .done => True

/-- The lines that wait come after those that had their turn, in their order of arrival; and each line had
its turn, or waits, or was dropped by an event that came after it. -/
structure Flow (queue : List Item) (used : List Nat) (dropped : List (Nat × Nat)) (received : Nat) :
    Prop where
  ordered : (used ++ ids queue).Pairwise (· < ·)
  had : ∀ n ∈ used, n < received
  old : ∀ item ∈ queue, item.Old received
  precedes : queue.Pairwise Item.Precedes
  kept : ∀ n < received, n ∈ used ∨ n ∈ ids queue ∨ ∃ r, (n, r) ∈ dropped ∧ n < r ∧ r ≤ received

theorem ids_append (xs ys : List Item) : ids (xs ++ ys) = ids xs ++ ids ys := filterMap_append

theorem ids_lines (ls : List Line) : ids (ls.map .line) = ls.map (·.id) := by
  induction ls with
  | nil => rfl
  | cons l ls ih => exact congrArg (l.id :: ·) ih

theorem precedes_line (item : Item) (l : Line) : item.Precedes (.line l) := by
  cases item <;> trivial

theorem precedes_done (item : Item) : item.Precedes .done := by
  cases item <;> trivial

namespace Flow

variable {queue : List Item} {used : List Nat} {dropped : List (Nat × Nat)} {received : Nat}

theorem init : Flow [] [] [] 0 := ⟨.nil, nofun, nofun, .nil, nofun⟩

theorem push (h : Flow queue used dropped received) {item : Item} (hid : item.id? = none)
    (hold : item.Old received) (hprecedes : ∀ x ∈ queue, x.Precedes item) :
    Flow (queue ++ [item]) used dropped received := by
  have hids : ids (queue ++ [item]) = ids queue := by
    rw [ids_append, ids, ids, filterMap_cons, hid]
    exact append_nil _
  refine ⟨hids ▸ h.ordered, h.had, fun x hx => ?_, ?_, hids ▸ h.kept⟩
  · rcases mem_append.mp hx with hx | hx
    · exact h.old x hx
    · rw [mem_singleton.mp hx]
      exact hold
  · refine pairwise_append.mpr ⟨h.precedes, pairwise_singleton _ _, fun x hx y hy => ?_⟩
    rw [mem_singleton.mp hy]
    exact hprecedes x hx

theorem done (h : Flow queue used dropped received) : Flow (queue ++ [.done]) used dropped received :=
  h.push rfl trivial fun x _ => precedes_done x

theorem interrupt (h : Flow queue used dropped received) :
    Flow (queue ++ [.interrupt received]) used dropped received := by
  refine h.push rfl (Nat.le_refl _) fun x hx => ?_
  cases x with
  | line l => exact h.old _ hx
  | done | interrupt _ | suspend _ => trivial

theorem suspend (h : Flow queue used dropped received) :
    Flow (queue ++ [.suspend received]) used dropped received := by
  refine h.push rfl (Nat.le_refl _) fun x hx => ?_
  cases x with
  | line l => exact h.old _ hx
  | done | interrupt _ | suspend _ => trivial

theorem lt_received (h : Flow queue used dropped received) :
    ∀ n ∈ used ++ ids queue, n < received := by
  intro n hn
  rcases mem_append.mp hn with hn | hn
  · exact h.had n hn
  · obtain ⟨item, hitem, hid⟩ := mem_filterMap.mp hn
    cases item with
    | line l =>
      obtain rfl := Option.some.inj hid
      exact h.old _ hitem
    | done | interrupt _ | suspend _ => cases hid

theorem receive (h : Flow queue used dropped received) (text : Str) :
    Flow (queue ++ [.line ⟨received, text⟩]) used dropped (received + 1) := by
  have hids : ids (queue ++ [.line ⟨received, text⟩]) = ids queue ++ [received] := ids_append _ _
  refine ⟨?_, fun n hn => Nat.lt_succ_of_lt (h.had n hn), fun x hx => ?_, ?_, fun n hn => ?_⟩
  · rw [hids, ← append_assoc]
    refine pairwise_append.mpr ⟨h.ordered, pairwise_singleton _ _, fun n hn m hm => ?_⟩
    rw [mem_singleton.mp hm]
    exact h.lt_received n hn
  · rcases mem_append.mp hx with hx | hx
    · have hold := h.old x hx
      cases x with
      | line l => exact Nat.lt_succ_of_lt hold
      | done => trivial
      | interrupt _ | suspend _ => exact Nat.le_succ_of_le hold
    · rw [mem_singleton.mp hx]
      exact Nat.lt_succ_self received
  · refine pairwise_append.mpr ⟨h.precedes, pairwise_singleton _ _, fun x _ y hy => ?_⟩
    rw [mem_singleton.mp hy]
    exact precedes_line x _
  · rw [hids]
    rcases Nat.lt_or_eq_of_le (Nat.lt_succ_iff.mp hn) with hlt | rfl
    · rcases h.kept n hlt with hmem | hmem | ⟨r, hmem, hr, hle⟩
      · exact .inl hmem
      · exact .inr (.inl (mem_append_left _ hmem))
      · exact .inr (.inr ⟨r, hmem, hr, Nat.le_succ_of_le hle⟩)
    · exact .inr (.inl (mem_append_right _ (mem_singleton_self n)))

theorem use {l : Line} (h : Flow (.line l :: queue) used dropped received) :
    Flow queue (used ++ [l.id]) dropped received := by
  have hids : used ++ ids (.line l :: queue) = used ++ [l.id] ++ ids queue :=
    (append_assoc _ [l.id] _).symm
  refine ⟨hids ▸ h.ordered, fun n hn => ?_, fun x hx => h.old x (mem_cons_of_mem _ hx),
    (pairwise_cons.mp h.precedes).2, fun n hn => ?_⟩
  · rcases mem_append.mp hn with hn | hn
    · exact h.had n hn
    · rw [mem_singleton.mp hn]
      exact h.old _ (mem_cons_self ..)
  rcases h.kept n hn with hmem | hmem | hmem
  · exact .inl (mem_append_left _ hmem)
  · rcases mem_cons.mp (show n ∈ l.id :: ids queue from hmem) with rfl | hmem
    · exact .inl (mem_append_right _ (mem_singleton_self _))
    · exact .inr (.inl hmem)
  · exact .inr (.inr hmem)

theorem flush {ls : List Line} (h : Flow (ls.map .line ++ .done :: queue) used dropped received)
    (hempty : ls = [] ∨ ids queue = []) : Flow (queue ++ ls.map .line) used dropped received := by
  have hids : ids (queue ++ ls.map .line) = ids (ls.map .line ++ .done :: queue) := by
    rw [ids_append, ids_append]
    show _ = ids (ls.map .line) ++ ids queue
    rcases hempty with rfl | hnil
    · exact append_nil _
    · rw [hnil, append_nil, nil_append]
  have hmem : ∀ x ∈ queue ++ ls.map .line, x ∈ ls.map .line ++ .done :: queue := by
    intro x hx
    rcases mem_append.mp hx with hx | hx
    · exact mem_append_right _ (mem_cons_of_mem _ hx)
    · exact mem_append_left _ hx
  obtain ⟨hlines, hqueue, -⟩ := pairwise_append.mp h.precedes
  refine ⟨hids ▸ h.ordered, h.had, fun x hx => h.old x (hmem x hx), ?_, hids ▸ h.kept⟩
  refine pairwise_append.mpr ⟨(pairwise_cons.mp hqueue).2, hlines, fun x _ y hy => ?_⟩
  obtain ⟨l, -, rfl⟩ := mem_map.mp hy
  exact precedes_line x l

/-- The lines in front of an event that drops them came before it. -/
theorem clear {ls : List Line} {item : Item} {r : Nat}
    (hitem : item = .interrupt r ∨ item = .suspend r)
    (h : Flow (ls.map .line ++ item :: queue) used dropped received) :
    Flow queue used (ls.map (·.id, r) ++ dropped) received := by
  have hid : item.id? = none := by rcases hitem with rfl | rfl <;> rfl
  have hids : ids (ls.map .line ++ item :: queue) = ls.map (·.id) ++ ids queue := by
    rw [ids_append, ids_lines, ids, filterMap_cons, hid]
    rfl
  obtain ⟨-, hqueue, hlines⟩ := pairwise_append.mp h.precedes
  have hordered := h.ordered
  have hkept := h.kept
  rw [hids] at hordered hkept
  refine ⟨?_, h.had, fun x hx => h.old x (mem_append_right _ (mem_cons_of_mem _ hx)),
    (pairwise_cons.mp hqueue).2, fun n hn => ?_⟩
  · obtain ⟨hused, hrest, hlt⟩ := pairwise_append.mp hordered
    exact pairwise_append.mpr ⟨hused, (pairwise_append.mp hrest).2.1,
      fun n hn m hm => hlt n hn m (mem_append_right _ hm)⟩
  · rcases hkept n hn with hmem | hmem | ⟨r', hmem, hr', hle⟩
    · exact .inl hmem
    · rcases mem_append.mp hmem with hmem | hmem
      · obtain ⟨l, hl, rfl⟩ := mem_map.mp hmem
        have hprecedes := hlines _ (mem_map_of_mem hl) item (mem_cons_self ..)
        have hold := h.old item (mem_append_right _ (mem_cons_self ..))
        refine .inr (.inr ⟨r, mem_append_left _ (mem_map_of_mem hl), ?_⟩)
        rcases hitem with rfl | rfl
        · exact ⟨hprecedes, hold⟩
        · exact ⟨hprecedes, hold⟩
      · exact .inr (.inl hmem)
    · exact .inr (.inr ⟨r', mem_append_right _ hmem, hr', hle⟩)

end Flow

/-! ## Lines of the shell -/

def State.queue (s : State) : List Item := s.linebuf.map .line ++ s.fifo

/-- The order of lines; those that are buffered are sent again when the task in foreground ends; and at
most one task is in foreground. -/
structure InOrder (s : State) : Prop where
  flow : Flow s.queue s.used s.dropped s.received
  resumed : s.linebuf = [] ∨ s.foreground ≠ none ∨ .done ∈ s.fifo
  single : ∀ t ∈ s.hooked, ∀ t' ∈ s.hooked, t ∉ s.background → t' ∉ s.background → t = t'

/-- A line that finds no task in foreground finds no line buffered; lines are sent again when no other line
is in the fifo; and the hook of a task in foreground does not fail while lines are buffered. -/
def SoundLines (s : State) : Event → Prop
  | .turn _ _ =>
    match s.fifo with
    | .line _ :: _ => s.foreground = none → s.linebuf = []
    | .done :: rest => s.linebuf = [] ∨ ids rest = []
    | _ => True
  | .finish t shown => s.foreground = some t → shown = true ∨ s.linebuf = []
  | _ => True

instance (s : State) : DecidablePred (SoundLines s)
  | .turn _ _ =>
    match h : s.fifo with
    | .line _ :: _ => decidable_of_iff (s.foreground = none → s.linebuf = []) (by rw [SoundLines, h])
    | .done :: rest => decidable_of_iff (s.linebuf = [] ∨ ids rest = []) (by rw [SoundLines, h])
    | .interrupt _ :: _ | .suspend _ :: _ | [] => isTrue (by rw [SoundLines, h]; trivial)
  | .finish _ _ => inferInstanceAs (Decidable (_ = _ → _ ∨ _))
  | .receive _ | .interrupt | .suspend | .killjob _ _ => isTrue trivial

def Numbered (s : State) : Prop := ∀ i t, s.runningjobs (.number i) = some (.task t) → t ∈ s.background

namespace Numbered

variable {s : State}

theorem die (h : Numbered s) (t : Task) (results : Option Bool) : Numbered (s.die t results) := by
  rcases s.die_cases t results with ⟨-, heq⟩ | ⟨-, -, heq⟩ | ⟨-, -, -, v, -, heq⟩ | ⟨-, -, -, heq⟩
  · rwa [heq]
  · rw [heq]
    exact h
  · rw [heq]
    intro i t' hjob
    simp only [Function.update_apply] at hjob
    split at hjob
    · cases hjob
    · split at hjob
      · cases hjob
      · exact h i t' hjob
  · rw [heq]
    exact h

theorem kill (h : Numbered s) (t : Task) (outcome : Outcome) : Numbered (s.kill t outcome) := by
  cases outcome with
  | survives => exact h.die t _
  | ends shown => exact h.die t _

theorem add (h : Numbered s) {s' : State} {i : Nat} {t : Task} (hback : s'.background = t :: s.background)
    (hjobs : s'.runningjobs = Function.update (Function.update s.runningjobs (.number i)
      (some (.task t))) (.task t) (some (.number i))) : Numbered s' := by
  intro i' t' hjob
  rw [hback]
  simp only [hjobs, Function.update_apply, Key.number.injEq, reduceCtorEq, if_false] at hjob
  split at hjob
  · cases hjob
    exact mem_cons_self ..
  · exact mem_cons_of_mem _ (h i' t' hjob)

theorem putInBackground (h : Numbered s) (border : Nat) : Numbered (s.putInBackground border) := by
  unfold State.putInBackground
  split
  · exact h
  · exact h.add rfl rfl

theorem handle (h : Numbered s) (load : List Str → Loaded) (border : Nat) (outcome : Outcome)
    (item : Item) : Numbered (s.handle load border outcome item) := by
  cases item with
  | line l =>
    unfold State.handle
    simp only
    split
    · have hline : Numbered { s with lines := s.lines ++ [l.text], used := s.used ++ [l.id] } := h
      rcases State.tryToCompileAndRun_cases load
        { s with lines := s.lines ++ [l.text], used := s.used ++ [l.id] } border with
        ⟨lines, heq⟩ | heq | heq
      · rw [heq]
        exact h
      · rw [heq]
        exact h
      · rw [heq]
        exact hline.add rfl rfl
    · exact h
  | done => exact h
  | interrupt received =>
    unfold State.handle
    simp only
    cases s.foreground with
    | none => exact h
    | some t => exact h.kill t outcome
  | suspend received => exact h.putInBackground border

theorem step (h : Numbered s) (load : List Str → Loaded) (e : Event) : Numbered (step load s e) := by
  cases e with
  | receive _ | interrupt | suspend => exact h
  | turn border outcome =>
    unfold Shell.step
    cases s.fifo with
    | nil => exact h
    | cons item fifo => exact handle (s := { s with fifo := fifo }) h load border outcome item
  | finish t shown => exact h.die t _
  | killjob jobid outcome =>
    unfold Shell.step
    simp only
    split
    · exact h.kill _ outcome
    · exact h

end Numbered

structure Lined (s : State) : Prop where
  flow : Flow s.queue s.used s.dropped s.received
  resumed : s.linebuf = [] ∨ s.foreground ≠ none ∨ .done ∈ s.fifo

namespace Lined

variable {s : State}

theorem init : Lined .init := ⟨.init, .inl rfl⟩

theorem push (h : Lined s) {s' : State} {item : Item} (hlinebuf : s'.linebuf = s.linebuf)
    (hfifo : s'.fifo = s.fifo ++ [item]) (hforeground : s'.foreground = s.foreground)
    (hflow : Flow (s.queue ++ [item]) s'.used s'.dropped s'.received) : Lined s' := by
  have hqueue : s'.queue = s.queue ++ [item] := by
    rw [State.queue, hlinebuf, hfifo, State.queue, append_assoc]
  refine ⟨hqueue ▸ hflow, ?_⟩
  rw [hlinebuf, hforeground, hfifo]
  exact h.resumed.imp_right fun hor => hor.imp_right (mem_append_left _)

theorem die (h : Lined s) (t : Task) {results : Option Bool}
    (hshown : s.foreground = some t → results = some true ∨ s.linebuf = []) :
    Lined (s.die t results) := by
  rcases s.die_cases t results with ⟨-, heq⟩ | ⟨-, hfg, heq⟩ | ⟨-, -, -, v, -, heq⟩ | ⟨-, -, -, heq⟩
  · rwa [heq]
  · rw [heq]
    by_cases hdone : results = some true
    · rw [if_pos hdone]
      refine ⟨?_, .inr (.inr (mem_append_right _ (mem_singleton_self _)))⟩
      have hflow := h.flow.done
      rwa [State.queue, append_assoc] at hflow
    · rw [if_neg hdone, append_nil]
      exact ⟨h.flow, .inl ((hshown hfg).resolve_left hdone)⟩
  · rw [heq]
    exact h.push rfl rfl rfl h.flow.done
  · rw [heq]
    exact ⟨h.flow, h.resumed⟩

variable {received : Nat}

/-- An event that drops the lines of the buffer, after which no task is in foreground. -/
theorem clear {s s' : State} {item : Item}
    (hitem : item = .interrupt received ∨ item = .suspend received)
    (h : Flow (s.linebuf.map .line ++ item :: s.fifo) s.used s.dropped s.received)
    (hlinebuf : s'.linebuf = s.linebuf) (hused : s'.used = s.used) (hdropped : s'.dropped = s.dropped)
    (hreceived : s'.received = s.received) (hfifo : s'.fifo = s.fifo ∨ s'.fifo = s.fifo ++ [.done]) :
    Lined (s'.clear received) := by
  refine ⟨?_, .inl rfl⟩
  have hflow := Flow.clear hitem h
  show Flow s'.fifo s'.used (s'.linebuf.map (·.id, received) ++ s'.dropped) s'.received
  rw [hlinebuf, hused, hdropped, hreceived]
  rcases hfifo with heq | heq
  · rwa [heq]
  · rw [heq]
    exact hflow.done

variable {rest : List Item}

theorem line {l : Line} (h : Lined s) (hfifo : s.fifo = .line l :: rest)
    (hsound : s.foreground = none → s.linebuf = []) (load : List Str → Loaded) (border : Nat)
    (outcome : Outcome) : Lined ({ s with fifo := rest }.handle load border outcome (.line l)) := by
  have hflow := h.flow
  rw [State.queue, hfifo] at hflow
  unfold State.handle
  simp only
  split
  · rename_i hnone
    have hempty := hsound hnone
    rw [hempty] at hflow
    have huse := Flow.use hflow
    have hlined : ∀ s' : State, s'.linebuf = s.linebuf → s'.fifo = rest →
        s'.used = s.used ++ [l.id] → s'.dropped = s.dropped → s'.received = s.received → Lined s' := by
      intro s' hlinebuf hrest hused hdropped hreceived
      refine ⟨?_, .inl (hlinebuf.trans hempty)⟩
      rw [State.queue, hlinebuf, hempty, hrest, hused, hdropped, hreceived]
      exact huse
    rcases State.tryToCompileAndRun_cases load { s with
        fifo := rest, lines := s.lines ++ [l.text], used := s.used ++ [l.id] } border with
      ⟨lines, heq⟩ | heq | heq <;>
    · rw [heq]
      exact hlined _ rfl rfl rfl rfl rfl
  · rename_i hsome
    refine ⟨?_, .inr (.inl hsome)⟩
    show Flow ((s.linebuf ++ [l]).map .line ++ rest) _ _ _
    rw [map_append, append_assoc]
    exact hflow

theorem done (h : Lined s) (hfifo : s.fifo = .done :: rest)
    (hsound : s.linebuf = [] ∨ ids rest = []) :
    Lined { s with fifo := rest ++ s.linebuf.map .line, linebuf := [] } := by
  have hflow := h.flow
  rw [State.queue, hfifo] at hflow
  exact ⟨hflow.flush hsound, .inl rfl⟩

theorem interrupt (h : Lined s)
    (hfifo : s.fifo = .interrupt received :: rest) (load : List Str → Loaded) (border : Nat)
    (outcome : Outcome) :
    Lined ({ s with fifo := rest }.handle load border outcome (.interrupt received)) := by
  have hflow := h.flow
  rw [State.queue, hfifo] at hflow
  unfold State.handle
  simp only
  split
  · exact clear (s := { s with fifo := rest }) (.inl rfl) hflow rfl rfl rfl rfl (.inl rfl)
  rename_i t _
  have hframe : ∀ results : Option Bool,
      Lined ({ ({ s with fifo := rest }.die t results) with foreground := none }.clear received) := by
    intro results
    rcases State.die_cases { s with fifo := rest } t results with
      ⟨-, heq⟩ | ⟨-, -, heq⟩ | ⟨-, -, -, v, -, heq⟩ | ⟨-, -, -, heq⟩ <;> rw [heq]
    · exact clear (s := { s with fifo := rest }) (.inl rfl) hflow rfl rfl rfl rfl (.inl rfl)
    · refine clear (s := { s with fifo := rest }) (.inl rfl) hflow rfl rfl rfl rfl ?_
      by_cases hdone : results = some true
      · exact .inr (by rw [if_pos hdone])
      · exact .inl (by rw [if_neg hdone, append_nil])
    · exact clear (s := { s with fifo := rest }) (.inl rfl) hflow rfl rfl rfl rfl (.inr rfl)
    · exact clear (s := { s with fifo := rest }) (.inl rfl) hflow rfl rfl rfl rfl (.inl rfl)
  cases outcome with
  | survives => exact hframe none
  | ends shown => exact hframe (some shown)

theorem suspend (h : Lined s)
    (hfifo : s.fifo = .suspend received :: rest) (border : Nat) :
    Lined (({ s with fifo := rest }.putInBackground border).clear received) := by
  have hflow := h.flow
  rw [State.queue, hfifo] at hflow
  unfold State.putInBackground
  split <;>
  exact clear (s := { s with fifo := rest }) (.inr rfl) hflow rfl rfl rfl rfl (.inl rfl)

theorem step (h : Lined s) (htasks : Tasks s) (hnumbered : Numbered s) (load : List Str → Loaded)
    {e : Event} (hs : SoundLines s e) : Lined (step load s e) := by
  cases e with
  | receive text => exact h.push rfl rfl rfl (h.flow.receive text)
  | interrupt => exact h.push rfl rfl rfl h.flow.interrupt
  | suspend => exact h.push rfl rfl rfl h.flow.suspend
  | turn border outcome =>
    cases hfifo : s.fifo with
    | nil =>
      rw [Shell.step, hfifo]
      exact h
    | cons item rest =>
      rw [SoundLines, hfifo] at hs
      rw [Shell.step, hfifo]
      cases item with
      | line l => exact h.line hfifo hs load border outcome
      | done => exact h.done hfifo hs
      | interrupt received => exact h.interrupt hfifo load border outcome
      | suspend received => exact h.suspend hfifo border
  | finish t shown => exact h.die t fun hfg => (hs hfg).imp_left (congrArg some)
  | killjob jobid outcome =>
    have hother : ∀ t, s.runningjobs (.number jobid) = some (.task t) → ∀ results,
        Lined (s.die t results) := by
      intro t hjob results
      refine h.die t fun hfg => ?_
      exact absurd (hnumbered jobid t hjob) (htasks.foreground t hfg).2
    cases hjob : s.runningjobs (.number jobid) with
    | none =>
      rw [Shell.step, hjob]
      exact h
    | some v =>
      rw [Shell.step, hjob]
      cases v with
      | number i => exact h
      | task t =>
        cases outcome with
        | survives => exact hother t hjob none
        | ends shown => exact hother t hjob (some shown)

end Lined

/-! ## Every run -/

/-- In every run in which no line overtakes those of the buffer, lines are used in their order of arrival,
and each is used once unless it is dropped. -/
theorem lines_in_order (load : List Str → Loaded) {s : State}
    (h : Runs (step load) (fun s e => Enabled s e ∧ SoundLines s e) .init s) : InOrder s := by
  have hinv : Tasks s ∧ Numbered s ∧ Lined s :=
    h.invariant (I := fun s => Tasks s ∧ Numbered s ∧ Lined s)
      (fun _ e he hi => ⟨hi.1.step load e, hi.2.1.step load e, hi.2.2.step hi.1 hi.2.1 load he.2⟩)
      ⟨.init, nofun, .init⟩
  obtain ⟨htasks, -, hlined⟩ := hinv
  refine ⟨hlined.flow, hlined.resumed, fun t ht t' ht' hback hback' => ?_⟩
  exact Option.some.inj ((htasks.single t ht hback).symm.trans (htasks.single t' ht' hback'))

/-- Two lines are typed while a task runs, and are used when it has ended. -/
theorem lines_in_order_buffered :
    InOrder ([.receive [], .turn 0 .survives, .receive ['a'], .receive ['b'], .turn 0 .survives,
      .turn 0 .survives, .finish 0 true, .turn 0 .survives, .turn 0 .survives].foldl
        (step fun _ => .code) .init) :=
  lines_in_order _ (Along.runs (by decide))

/-- A line is in the fifo when the task ends that has kept an earlier one waiting. -/
theorem line_overtakes :
    let events : List Event := [.receive [], .turn 0 .survives, .receive ['a'], .turn 0 .survives,
      .receive ['b'], .finish 0 true, .turn 0 .survives, .turn 0 .survives, .turn 0 .survives,
      .finish 1 true, .turn 0 .survives, .turn 0 .survives]
    Along (step fun _ => .code) Enabled .init events ∧
      (events.foldl (step fun _ => .code) .init).used = [0, 2, 1] := by
  decide

end Mihini.Shell
