import Mihini.Sched.Fd

/-!
# Which descriptors are watched

Beside the state goes a table of the owners of the watches: a task from its wait to the end of it,
a function from its registration to the end of it, nobody once the descriptor is closed.
-/

set_option linter.unusedSectionVars false

namespace Mihini.Sched.Fd

open Mihini.Lib Function AList

variable {FD Task Func : Type} [DecidableEq FD] [DecidableEq Task]

/-! ## The arrays -/

structure Watch.Exact (w : Watch FD Func) : Prop where
  filled : ∃ n, ∀ i, (w.array.lookup i).isSome ↔ 1 ≤ i ∧ i ≤ n
  index : ∀ i fd, w.array.lookup i = some fd ↔ w.index fd = some i

namespace Watch

variable {len : LuaTable Nat FD → Nat} {w : Watch FD Func} {fd : FD}

theorem add_spec (hlen : ∀ t : LuaTable Nat FD, t.IsBorder (len t)) (h : w.Exact) (hfd : w.index fd = none)
    (func : Option Func) :
    ∃ w', w.add len fd func = .ok w' ∧ w'.Exact ∧
      (∀ fd', (w'.index fd').isSome ↔ fd' = fd ∨ (w.index fd').isSome) ∧
      w'.func = update w.func fd func := by
  obtain ⟨n, hn⟩ := h.filled
  have hlast : len w.array = n := (hlen w.array).eq_of_filled hn
  refine ⟨_, by rw [add, hfd, if_neg (by exact nofun)], ⟨⟨n + 1, fun i => ?_⟩, fun i fd' => ?_⟩,
    fun fd' => ?_, rfl⟩
  · show ((w.array.insert (len w.array + 1) fd).lookup i).isSome ↔ _
    rw [hlast]
    by_cases hi : i = n + 1
    · rw [hi, lookup_insert]
      exact ⟨fun _ => ⟨by omega, le_refl _⟩, fun _ => rfl⟩
    · rw [lookup_insert_ne hi, hn]
      omega
  · show (w.array.insert (len w.array + 1) fd).lookup i = some fd' ↔
      update w.index fd (some (len w.array + 1)) fd' = some i
    rw [hlast]
    have hnew : w.array.lookup (n + 1) = none := by
      rw [← Option.not_isSome_iff_eq_none, hn]
      omega
    by_cases hi : i = n + 1 <;> by_cases heq : fd' = fd
    · rw [hi, heq, lookup_insert, update_self]
      exact ⟨fun _ => rfl, fun _ => rfl⟩
    · rw [hi, lookup_insert, update_of_ne heq, ← h.index, hnew]
      exact ⟨fun hsome => absurd (Option.some.inj hsome).symm heq, nofun⟩
    · rw [heq, lookup_insert_ne hi, update_self, h.index, hfd]
      exact ⟨nofun, fun hsome => absurd (Option.some.inj hsome).symm hi⟩
    · rw [lookup_insert_ne hi, update_of_ne heq]
      exact h.index i fd'
  · show (update w.index fd (some (len w.array + 1)) fd').isSome ↔ _
    by_cases heq : fd' = fd
    · rw [heq, update_self]
      exact ⟨fun _ => .inl rfl, fun _ => rfl⟩
    · rw [update_of_ne heq]
      exact ⟨.inr, fun hor => hor.resolve_left heq⟩

/-- The last descriptor takes the place of the one that is removed. -/
theorem remove_cells (hlen : ∀ t : LuaTable Nat FD, t.IsBorder (len t)) (h : w.Exact) {i : Nat}
    (hfd : w.index fd = some i) :
    ∃ n last w', w.remove len fd = .ok w' ∧
      (∀ j, (w.array.lookup j).isSome ↔ 1 ≤ j ∧ j ≤ n) ∧ w.array.lookup n = some last ∧
      (∀ j, w'.array.lookup j = if j = n then none else if j = i then some last
        else w.array.lookup j) ∧
      (∀ fd', w'.index fd' = if fd' = fd then none else if fd' = last then some i
        else w.index fd') ∧
      w'.func = update w.func fd none := by
  obtain ⟨n, hn⟩ := h.filled
  have hlast : len w.array = n := (hlen w.array).eq_of_filled hn
  have hi : w.array.lookup i = some fd := (h.index i fd).mpr hfd
  have hrange : 1 ≤ i ∧ i ≤ n := (hn i).mp (by rw [hi]; rfl)
  obtain ⟨last, hlastn⟩ := Option.isSome_iff_exists.mp ((hn n).mpr ⟨by omega, le_refl n⟩)
  by_cases hni : n = i
  · have heq : last = fd := by
      rw [hni, hi] at hlastn
      exact (Option.some.inj hlastn).symm
    refine ⟨n, last, ⟨w.array.erase n, update w.index fd none,
      update w.func fd none⟩, ?_, hn, hlastn, fun j => ?_, fun fd' => ?_, rfl⟩
    · rw [remove, hfd]
      simp only [hlast, hni, ne_eq, not_true, if_false]
    · by_cases hj : j = n
      · rw [if_pos hj, hj, lookup_erase]
      · rw [if_neg hj, if_neg (hni ▸ hj), lookup_erase_ne hj]
    · show update w.index fd none fd' = _
      by_cases hfd' : fd' = fd
      · rw [if_pos hfd', hfd', update_self]
      · rw [if_neg hfd', if_neg (heq ▸ hfd'), update_of_ne hfd']
  · refine ⟨n, last, ⟨(w.array.insert i last).erase n,
      update (update w.index last (some i)) fd none,
      update w.func fd none⟩, ?_, hn, hlastn, fun j => ?_, fun fd' => ?_, rfl⟩
    · rw [remove, hfd]
      simp only [hlast, ne_eq, hni, not_false_iff, if_true]
      rw [hlast, hlastn]
    · by_cases hj : j = n
      · rw [if_pos hj, hj, lookup_erase]
      · rw [if_neg hj, lookup_erase_ne hj]
        by_cases hji : j = i
        · rw [if_pos hji, hji, lookup_insert]
        · rw [if_neg hji, lookup_insert_ne hji]
    · show update (update w.index last (some i)) fd none fd' = _
      by_cases hfd' : fd' = fd
      · rw [if_pos hfd', hfd', update_self]
      · rw [if_neg hfd', update_of_ne hfd']
        by_cases heq : fd' = last
        · rw [if_pos heq, heq, update_self]
        · rw [if_neg heq, update_of_ne heq]

theorem remove_spec (hlen : ∀ t : LuaTable Nat FD, t.IsBorder (len t)) (h : w.Exact) {i : Nat}
    (hfd : w.index fd = some i) :
    ∃ w', w.remove len fd = .ok w' ∧ w'.Exact ∧
      (∀ fd', (w'.index fd').isSome ↔ fd' ≠ fd ∧ (w.index fd').isSome) ∧
      w'.func = update w.func fd none := by
  obtain ⟨n, last, w', hremove, hn, hlast, harray, hindex, hfunc⟩ := remove_cells hlen h hfd
  have hi : w.array.lookup i = some fd := (h.index i fd).mpr hfd
  have hlastindex : w.index last = some n := (h.index n last).mp hlast
  have hrange : 1 ≤ i ∧ i ≤ n := (hn i).mp (by rw [hi]; rfl)
  refine ⟨w', hremove, ⟨⟨n - 1, fun j => ?_⟩, fun j fd' => ?_⟩, fun fd' => ?_, hfunc⟩
  · rw [harray]
    split
    · next hj => exact ⟨nofun, fun hle => by omega⟩
    · split
      · next hj hji => exact ⟨fun _ => by omega, fun _ => rfl⟩
      · rw [hn]
        omega
  · have hold := h.index j fd'
    have holdi := h.index i fd'
    have holdn := h.index n fd'
    rw [harray, hindex]
    grind
  · rw [hindex]
    grind

end Watch

/-! ## The owners -/

inductive Owner (Task Func : Type) where
  | task (t : Task)
  | func (f : Func)

abbrev Owners (FD Task Func : Type) := Cond → FD → Option (Owner Task Func)

namespace Owners

def set (σ : Owners FD Task Func) (rw : Cond) (fd : FD) (o : Option (Owner Task Func)) :
    Owners FD Task Func :=
  update σ rw (update (σ rw) fd o)

def leave (σ : Owners FD Task Func) (t : Task) : Owners FD Task Func := fun rw fd =>
  match σ rw fd with
  | some (.task u) => if u = t then none else some (.task u)
  | o => o

def close (σ : Owners FD Task Func) (fd : FD) : Owners FD Task Func :=
  ((σ.set .read fd none).set .write fd none).set .except fd none

def claim (σ : Owners FD Task Func) (rw : Cond) (fd : FD) (o : Owner Task Func) :
    Owners FD Task Func :=
  match σ rw fd with
  | none => σ.set rw fd (some o)
  | some _ => σ

end Owners

def Op.own (σ : Owners FD Task Func) : Op FD Task Func → Owners FD Task Func
  | .close fd => σ.close fd
  | .when rw fd (some f) => σ.claim rw fd (.func f)
  | .when rw fd none => σ.set rw fd none
  | .signal _ _ => σ
  | .kill t => σ.leave t

abbrev Tracked (FD Task Func : Type) := State FD Task Func × Owners FD Task Func

def Event.own (p : Tracked FD Task Func) : Event FD Task Func → Owners FD Task Func
  | .op o => o.own p.2
  | .wait t rw fd _ _ _ =>
    match p.1.tasks t with
    | .free => p.2.claim rw fd (.task t)
    | _ => p.2
  | .expire _ => p.2
  | .resume t =>
    match p.1.tasks t with
    | .waits w => if w.woken.isSome then p.2.leave t else p.2
    | _ => p.2
  | .notify rw fd called result =>
    match p.2 rw fd with
    | some (.func _) =>
      let σ := called.foldl Op.own p.2
      if result = some false then σ.set rw fd none else σ
    | _ => p.2

section

variable (len : LuaTable Nat FD → Nat)

def Op.track (p : Tracked FD Task Func) (o : Op FD Task Func) : Tracked FD Task Func :=
  (o.run len p.1, o.own p.2)

def track (p : Tracked FD Task Func) (e : Event FD Task Func) : Tracked FD Task Func :=
  (step len p.1 e, e.own p)

def start : Tracked FD Task Func := (init, fun _ _ => none)

/-- No watch of a task is deregistered, and no task that owns a watch is killed. -/
def Op.Sound (p : Tracked FD Task Func) : Op FD Task Func → Prop
  | .when rw fd none => ∀ t, p.2 rw fd ≠ some (.task t)
  | .kill t => ∀ rw fd, p.2 rw fd ≠ some (.task t)
  | _ => True

/-- When a task returns from a wait, its descriptor has not got another owner. -/
def Event.Sound (p : Tracked FD Task Func) : Event FD Task Func → Prop
  | .op o => o.Sound p
  | .resume t => ∀ w, p.1.tasks t = .waits w →
      p.2 w.rw w.fd = some (.task t) ∨ p.2 w.rw w.fd = none
  | .notify _ _ called _ => Along (Op.track len) Op.Sound p called
  | _ => True

end

/-! ## The invariant -/

structure Lists (fdt : Cond → Watch FD Func) (σ : Owners FD Task Func) : Prop where
  exact : ∀ rw, (fdt rw).Exact
  owned : ∀ rw fd, ((fdt rw).index fd).isSome ↔ (σ rw fd).isSome
  func : ∀ rw fd f, (fdt rw).func fd = some f ↔ σ rw fd = some (.func f)

structure Waiting (tasks : Task → Status FD) (σ : Owners FD Task Func) : Prop where
  waits : ∀ rw fd t, σ rw fd = some (.task t) → ∃ w, tasks t = .waits w ∧ w.rw = rw ∧ w.fd = fd
  blocked : ∀ t w, tasks t = .waits w → w.woken = none → σ w.rw w.fd = some (.task t)

structure Inv (p : Tracked FD Task Func) : Prop where
  lists : Lists p.1.fdt p.2
  waiting : Waiting p.1.tasks p.2

section

variable {len : LuaTable Nat FD → Nat} {s : State FD Task Func} {σ : Owners FD Task Func}
  {rw : Cond} {fd : FD}

@[simp] theorem Owners.set_self (o : Option (Owner Task Func)) : σ.set rw fd o rw fd = o := by
  rw [set, update_self, update_self]

variable {rw' : Cond}

theorem Owners.set_of_ne {fd' : FD} (h : ¬ (rw' = rw ∧ fd' = fd))
    (o : Option (Owner Task Func)) : σ.set rw fd o rw' fd' = σ rw' fd' := by
  unfold set
  by_cases hrw : rw' = rw
  · rw [hrw, update_self, update_of_ne fun hfd => h ⟨hrw, hfd⟩]
  · rw [update_of_ne hrw]

theorem Owners.set_eq {fd' : FD} {o : Option (Owner Task Func)} :
    σ.set rw fd o rw' fd' = if rw' = rw ∧ fd' = fd then o else σ rw' fd' := by
  split
  · next h => rw [h.1, h.2, set_self]
  · next h => exact set_of_ne h o

theorem Owners.leave_eq_task {t u : Task} {rw : Cond} {fd : FD} :
    σ.leave t rw fd = some (.task u) ↔ u ≠ t ∧ σ rw fd = some (.task u) := by
  unfold leave
  cases h : σ rw fd with
  | none => exact ⟨nofun, fun hand => nomatch hand.2⟩
  | some o =>
    cases o with
    | task v => grind
    | func f => exact ⟨nofun, fun hand => nomatch hand.2⟩

theorem tasks_removeWatch : (s.removeWatch len rw fd).tasks = s.tasks := by
  unfold State.removeWatch
  split <;> rfl

theorem Lists.removeWatch (hlen : ∀ t : LuaTable Nat FD, t.IsBorder (len t))
    (h : Lists s.fdt σ) : Lists (s.removeWatch len rw fd).fdt (σ.set rw fd none) := by
  cases hfd : (s.fdt rw).index fd with
  | none =>
    have hnone : σ rw fd = none := by
      rw [← Option.not_isSome_iff_eq_none, ← h.owned, hfd]
      exact nofun
    have hset : σ.set rw fd none = σ := by
      funext rw' fd'
      rw [Owners.set_eq]
      split
      · next heq => rw [heq.1, heq.2, hnone]
      · rfl
    have hsame : s.removeWatch len rw fd = s := by
      rw [State.removeWatch, Watch.remove, hfd]
    rw [hset, hsame]
    exact h
  | some i =>
    obtain ⟨w', hremove, hexact, hindex, hfunc⟩ := Watch.remove_spec hlen (h.exact rw) hfd
    have hfdt : (s.removeWatch len rw fd).fdt = update s.fdt rw w' := by
      rw [State.removeWatch, hremove]
    rw [hfdt]
    refine ⟨fun rw' => ?_, fun rw' fd' => ?_, fun rw' fd' f => ?_⟩
    · by_cases hrw : rw' = rw
      · rw [hrw, update_self]
        exact hexact
      · rw [update_of_ne hrw]
        exact h.exact rw'
    · by_cases hrw : rw' = rw
      · rw [hrw, update_self, hindex, h.owned, Owners.set_eq]
        grind
      · rw [update_of_ne hrw, Owners.set_of_ne fun hand => hrw hand.1]
        exact h.owned rw' fd'
    · by_cases hrw : rw' = rw
      · rw [hrw, update_self, hfunc]
        by_cases heq : fd' = fd
        · rw [heq, update_self, Owners.set_self]
          exact ⟨nofun, nofun⟩
        · rw [update_of_ne heq, Owners.set_of_ne fun hand => heq hand.2]
          exact h.func rw fd' f
      · rw [update_of_ne hrw, Owners.set_of_ne fun hand => hrw hand.1]
        exact h.func rw' fd' f

theorem Owner.func_inj {o : Owner Task Func} {func : Option Func}
    (h : func = match o with | .func f => some f | .task _ => none) (f : Func) :
    func = some f ↔ some o = some (Owner.func f : Owner Task Func) := by
  cases o with
  | task t =>
    rw [h]
    exact ⟨nofun, nofun⟩
  | func g =>
    rw [h]
    constructor
    · intro hg
      rw [Option.some.inj hg]
    · intro hg
      injection Option.some.inj hg with hg
      rw [hg]

theorem Lists.add (hlen : ∀ t : LuaTable Nat FD, t.IsBorder (len t)) (h : Lists s.fdt σ)
    (hfree : σ rw fd = none) (o : Owner Task Func) (func : Option Func)
    (ho : func = match o with | .func f => some f | .task _ => none) :
    ∃ w', (s.fdt rw).add len fd func = .ok w' ∧
      Lists (update s.fdt rw w') (σ.set rw fd (some o)) := by
  have hfd : (s.fdt rw).index fd = none := by
    rw [← Option.not_isSome_iff_eq_none, h.owned, hfree]
    exact nofun
  obtain ⟨w', hadd, hexact, hindex, hfunc⟩ := Watch.add_spec hlen (h.exact rw) hfd func
  refine ⟨w', hadd, fun rw' => ?_, fun rw' fd' => ?_, fun rw' fd' f => ?_⟩
  · by_cases hrw : rw' = rw
    · rw [hrw, update_self]
      exact hexact
    · rw [update_of_ne hrw]
      exact h.exact rw'
  · by_cases hrw : rw' = rw
    · rw [hrw, update_self, hindex, h.owned, Owners.set_eq]
      grind
    · rw [update_of_ne hrw, Owners.set_of_ne fun hand => hrw hand.1]
      exact h.owned rw' fd'
  · by_cases hrw : rw' = rw
    · rw [hrw, update_self, hfunc]
      by_cases heq : fd' = fd
      · rw [heq, update_self, Owners.set_self]
        exact Owner.func_inj ho f
      · rw [update_of_ne heq, Owners.set_of_ne fun hand => heq hand.2]
        exact h.func rw fd' f
    · rw [update_of_ne hrw, Owners.set_of_ne fun hand => hrw hand.1]
      exact h.func rw' fd' f

theorem Lists.add_refused (h : Lists s.fdt σ) {o : Owner Task Func} (ho : σ rw fd = some o)
    (func : Option Func) :
    (s.fdt rw).add len fd func = .error "file descriptor already registered" := by
  have hsome : ((s.fdt rw).index fd).isSome := by
    rw [h.owned, ho]
    rfl
  rw [Watch.add, if_pos hsome]

/-! ## The tasks -/

/-- A signal wakes the tasks that listen to it and does nothing else. -/
theorem signal_tasks (s : State FD Task Func) (fd : FD) (e : Signal) (t : Task) :
    ((s.signal fd e).tasks t = s.tasks t ∧
      ∀ w, s.tasks t = .waits w → w.fd = fd → w.listens e → w.woken ≠ none) ∨
    ∃ w, s.tasks t = .waits w ∧ (s.signal fd e).tasks t = .waits { w with woken := some e } := by
  unfold State.signal
  cases ht : s.tasks t with
  | free => exact .inl ⟨by simp only [ht], nofun⟩
  | dead => exact .inl ⟨by simp only [ht], nofun⟩
  | waits w =>
    by_cases hw : w.fd = fd ∧ w.woken.isNone ∧ w.listens e
    · exact .inr ⟨w, rfl, by simp only [ht, if_pos hw]⟩
    · refine .inl ⟨by simp only [ht, if_neg hw], fun w' hw' hfd hlistens hnone => ?_⟩
      injection hw' with hw'
      subst hw'
      exact hw ⟨hfd, by rw [hnone]; rfl, hlistens⟩

theorem Waiting.wake {tasks tasks' : Task → Status FD} (h : Waiting tasks σ)
    (hwake : ∀ t, tasks' t = tasks t ∨
      ∃ w e, tasks t = .waits w ∧ tasks' t = .waits { w with woken := some e }) :
    Waiting tasks' σ := by
  refine ⟨fun rw fd t ht => ?_, fun t w ht hnone => ?_⟩
  · obtain ⟨w, hw, hrest⟩ := h.waits rw fd t ht
    rcases hwake t with heq | ⟨w', e, hw', heq⟩
    · exact ⟨w, heq.trans hw, hrest⟩
    · rw [hw'] at hw
      injection hw with hw
      exact ⟨_, heq, hw ▸ hrest⟩
  · rcases hwake t with heq | ⟨w', e, -, heq⟩
    · exact h.blocked t w (heq ▸ ht) hnone
    · rw [heq] at ht
      injection ht with ht
      rw [← ht] at hnone
      nomatch hnone

theorem Waiting.signal (h : Waiting s.tasks σ) (fd : FD) (e : Signal) :
    Waiting (s.signal fd e).tasks σ :=
  h.wake fun t => (signal_tasks s fd e t).imp And.left fun ⟨w, hw, heq⟩ => ⟨w, e, hw, heq⟩

variable {tasks : Task → Status FD}

theorem Waiting.set_none (h : Waiting tasks σ)
    (hfree : ∀ t, σ rw fd ≠ some (.task t)) : Waiting tasks (σ.set rw fd none) := by
  refine ⟨fun rw' fd' t ht => ?_, fun t w ht hnone => ?_⟩
  · rw [Owners.set_eq] at ht
    split at ht
    · nomatch ht
    · exact h.waits rw' fd' t ht
  · have hold := h.blocked t w ht hnone
    rw [Owners.set_of_ne]
    · exact hold
    · intro hand
      rw [hand.1, hand.2] at hold
      exact hfree t hold

theorem Waiting.claim_func (h : Waiting tasks σ) {f : Func}
    (hfree : σ rw fd = none) : Waiting tasks (σ.set rw fd (some (.func f))) := by
  refine ⟨fun rw' fd' t ht => ?_, fun t w ht hnone => ?_⟩
  · rw [Owners.set_eq] at ht
    split at ht
    · nomatch ht
    · exact h.waits rw' fd' t ht
  · have hold := h.blocked t w ht hnone
    rw [Owners.set_of_ne]
    · exact hold
    · intro hand
      rw [hand.1, hand.2, hfree] at hold
      nomatch hold

variable {t : Task}

theorem Waiting.claim_task (h : Waiting tasks σ)
    (hfree : σ rw fd = none) (ht : tasks t = .free) {w : Wait FD} (hrw : w.rw = rw)
    (hfd : w.fd = fd) :
    Waiting (update tasks t (.waits w)) (σ.set rw fd (some (.task t))) := by
  refine ⟨fun rw' fd' u hu => ?_, fun u w' hu hnone => ?_⟩
  · rw [Owners.set_eq] at hu
    split at hu
    · next heq =>
      injection Option.some.inj hu with hu
      subst hu
      exact ⟨w, update_self .., hrw.trans heq.1.symm, hfd.trans heq.2.symm⟩
    · obtain ⟨w', hw', hrest⟩ := h.waits rw' fd' u hu
      have hne : u ≠ t := by
        intro heq
        rw [heq, ht] at hw'
        nomatch hw'
      exact ⟨w', by rw [update_of_ne hne, hw'], hrest⟩
  · by_cases hut : u = t
    · rw [hut, update_self] at hu
      injection hu with hu
      rw [← hu, hrw, hfd, hut, Owners.set_self]
    · rw [update_of_ne hut] at hu
      have hold := h.blocked u w' hu hnone
      rw [Owners.set_of_ne]
      · exact hold
      · intro hand
        rw [hand.1, hand.2, hfree] at hold
        nomatch hold

theorem Waiting.leave (h : Waiting tasks σ)
    (status : Status FD) (hstatus : ∀ w, status ≠ .waits w) :
    Waiting (update tasks t status) (σ.leave t) := by
  refine ⟨fun rw fd u hu => ?_, fun u w hu hnone => ?_⟩
  · obtain ⟨hne, hu⟩ := Owners.leave_eq_task.mp hu
    rw [update_of_ne hne]
    exact h.waits rw fd u hu
  · have hne : u ≠ t := by
      intro heq
      rw [heq, update_self] at hu
      exact hstatus w hu
    rw [update_of_ne hne] at hu
    exact Owners.leave_eq_task.mpr ⟨hne, h.blocked u w hu hnone⟩

theorem Waiting.leave_eq_set (h : Waiting tasks σ)
    {w : Wait FD} (ht : tasks t = .waits w)
    (howner : σ w.rw w.fd = some (.task t) ∨ σ w.rw w.fd = none) :
    σ.leave t = σ.set w.rw w.fd none := by
  funext rw fd
  rw [Owners.set_eq]
  split
  · next heq =>
    rw [Owners.leave, heq.1, heq.2]
    rcases howner with howner | howner
    · rw [howner]
      exact if_pos rfl
    · rw [howner]
  · next hne =>
    rw [Owners.leave]
    split
    · next u hu =>
      rw [if_neg, hu]
      intro hut
      obtain ⟨w', hw', hrw, hfd⟩ := h.waits rw fd u hu
      rw [hut, ht] at hw'
      injection hw' with hw'
      rw [hw'] at hne
      exact hne ⟨hrw.symm, hfd.symm⟩
    · rfl

theorem expire_tasks (t u : Task) :
    (s.expire t).tasks u = s.tasks u ∨
      ∃ w e, s.tasks u = .waits w ∧ (s.expire t).tasks u = .waits { w with woken := some e } := by
  unfold State.expire
  split
  · next w ht =>
    split
    · by_cases hut : u = t
      · exact .inr ⟨w, .timeout, hut ▸ ht, by rw [hut]; exact update_self ..⟩
      · exact .inl (update_of_ne hut ..)
    · exact .inl rfl
  · exact .inl rfl

theorem Lists.func_none {fdt : Cond → Watch FD Func} (h : Lists fdt σ)
    (hnone : ∀ f, σ rw fd ≠ some (.func f)) : (fdt rw).func fd = none := by
  cases hfunc : (fdt rw).func fd with
  | none => rfl
  | some f => exact absurd ((h.func rw fd f).mp hfunc) (hnone f)

theorem Owners.leave_of_free (h : ∀ rw fd, σ rw fd ≠ some (.task t)) :
    σ.leave t = σ := by
  funext rw fd
  unfold leave
  cases ho : σ rw fd with
  | none => rfl
  | some o =>
    cases o with
    | func f => rfl
    | task u =>
      refine if_neg fun heq => h rw fd ?_
      rw [ho, heq]

theorem Owners.close_eq {fd' : FD} :
    σ.close fd rw' fd' = if fd' = fd then none else σ rw' fd' := by
  unfold close
  rw [set_eq, set_eq, set_eq]
  cases rw' <;> grind

theorem Waiting.close (h : Waiting s.tasks σ) :
    Waiting (s.signal fd .closed).tasks (σ.close fd) := by
  have hsignal := h.signal fd .closed
  refine ⟨fun rw fd' t ht => ?_, fun t w ht hnone => ?_⟩
  · rw [Owners.close_eq] at ht
    split at ht
    · nomatch ht
    · exact hsignal.waits rw fd' t ht
  · rw [Owners.close_eq, if_neg]
    · exact hsignal.blocked t w ht hnone
    · intro hfd
      rcases signal_tasks s fd .closed t with ⟨heq, hwoken⟩ | ⟨w', -, heq⟩
      · exact hwoken w (heq ▸ ht) hfd rfl hnone
      · rw [heq] at ht
        injection ht with ht
        rw [← ht] at hnone
        nomatch hnone

/-! ## Steps -/

theorem tasks_close : (s.close len fd).tasks = (s.signal fd .closed).tasks := by
  unfold State.close State.signal
  rw [tasks_removeWatch, tasks_removeWatch, tasks_removeWatch]

variable {p : Tracked FD Task Func}

theorem Inv.op (hlen : ∀ t : LuaTable Nat FD, t.IsBorder (len t))
    (h : Inv p) {o : Op FD Task Func} (ho : o.Sound p) : Inv (o.track len p) := by
  obtain ⟨s, σ⟩ := p
  cases o with
  | close fd =>
    refine ⟨((h.lists.removeWatch hlen).removeWatch hlen).removeWatch hlen, ?_⟩
    show Waiting (s.close len fd).tasks (σ.close fd)
    rw [tasks_close]
    exact h.waiting.close
  | «when» rw fd func =>
    cases func with
    | none =>
      refine ⟨h.lists.removeWatch hlen, ?_⟩
      show Waiting (s.removeWatch len rw fd).tasks (σ.set rw fd none)
      rw [tasks_removeWatch]
      exact h.waiting.set_none ho
    | some f =>
      show Inv (s.whenFd len rw fd (some f), σ.claim rw fd (.func f))
      cases howner : σ rw fd with
      | none =>
        obtain ⟨w', hadd, hlists⟩ := h.lists.add hlen howner (.func f) (some f) rfl
        rw [State.whenFd, hadd, Owners.claim, howner]
        exact ⟨hlists, h.waiting.claim_func howner⟩
      | some o =>
        rw [State.whenFd, h.lists.add_refused howner, Owners.claim, howner]
        exact h
  | signal fd e => exact ⟨h.lists, h.waiting.signal fd e⟩
  | kill t =>
    refine ⟨?_, h.waiting.leave .dead nofun⟩
    show Lists s.fdt (σ.leave t)
    rw [Owners.leave_of_free ho]
    exact h.lists

theorem Inv.ops (hlen : ∀ t : LuaTable Nat FD, t.IsBorder (len t))
    (h : Inv p) {called : List (Op FD Task Func)}
    (hcalled : Along (Op.track len) Op.Sound p called) : Inv (called.foldl (Op.track len) p) :=
  hcalled.runs.invariant (fun _ _ ho hp => hp.op hlen ho) h

theorem foldl_track (p : Tracked FD Task Func) (called : List (Op FD Task Func)) :
    called.foldl (Op.track len) p =
      (called.foldl (Op.run len) p.1, called.foldl Op.own p.2) := by
  induction called generalizing p with
  | nil => rfl
  | cons o called ih => exact ih (o.track len p)

theorem own_task {called : List (Op FD Task Func)}
    (h : called.foldl Op.own σ rw fd = some (.task t)) : σ rw fd = some (.task t) := by
  induction called generalizing σ with
  | nil => exact h
  | cons o called ih =>
    have hown : o.own σ rw fd = some (.task t) := ih h
    cases o with
    | close fd' =>
      rw [Op.own, Owners.close_eq] at hown
      split at hown
      · nomatch hown
      · exact hown
    | signal fd' e => exact hown
    | kill u => exact (Owners.leave_eq_task.mp hown).2
    | «when» rw' fd' func =>
      cases func with
      | none =>
        rw [Op.own, Owners.set_eq] at hown
        split at hown
        · nomatch hown
        · exact hown
      | some f =>
        cases hold : σ rw' fd' with
        | none =>
          simp only [Op.own, Owners.claim, hold, Owners.set_eq] at hown
          split at hown
          · nomatch hown
          · exact hown
        | some o =>
          simp only [Op.own, Owners.claim, hold] at hown
          exact hown

theorem Inv.step (hlen : ∀ t : LuaTable Nat FD, t.IsBorder (len t))
    (h : Inv p) {e : Event FD Task Func} (he : e.Sound len p) : Inv (track len p e) := by
  obtain ⟨s, σ⟩ := p
  cases e with
  | op o => exact h.op hlen he
  | wait t rw fd timelimit timedelay now =>
    show Inv (Fd.step len s _, Event.own (s, σ) _)
    cases ht : s.tasks t with
    | waits w =>
      simp only [Fd.step, Event.own, ht]
      exact h
    | dead =>
      simp only [Fd.step, Event.own, ht]
      exact h
    | free =>
      simp only [Fd.step, Event.own, ht, State.waitFd]
      cases howner : σ rw fd with
      | some o =>
        rw [h.lists.add_refused howner, Owners.claim, howner]
        exact h
      | none =>
        obtain ⟨w', hadd, hlists⟩ := h.lists.add hlen howner (.task t) none rfl
        rw [hadd, Owners.claim, howner]
        exact ⟨hlists, h.waiting.claim_task howner ht rfl rfl⟩
  | expire t =>
    refine ⟨?_, ?_⟩
    · have hfdt : (s.expire t).fdt = s.fdt := by
        unfold State.expire
        split
        · split <;> rfl
        · rfl
      show Lists (s.expire t).fdt σ
      rw [hfdt]
      exact h.lists
    · exact h.waiting.wake (expire_tasks t)
  | resume t =>
    show Inv ((s.resume len t).1, Event.own (s, σ) (.resume t))
    cases ht : s.tasks t with
    | free =>
      simp only [State.resume, Event.own, ht]
      exact h
    | dead =>
      simp only [State.resume, Event.own, ht]
      exact h
    | waits w =>
      cases hwoken : w.woken with
      | none =>
        simp only [State.resume, Event.own, ht, hwoken]
        exact h
      | some e =>
        simp only [State.resume, Event.own, ht, hwoken]
        have hleave : σ.leave t = σ.set w.rw w.fd none := h.waiting.leave_eq_set ht (he w ht)
        refine ⟨?_, ?_⟩
        · show Lists (s.removeWatch len w.rw w.fd).fdt (σ.leave t)
          rw [hleave]
          exact h.lists.removeWatch hlen
        · show Waiting (update (s.removeWatch len w.rw w.fd).tasks t .free) (σ.leave t)
          rw [tasks_removeWatch]
          exact h.waiting.leave .free (by rintro _ ⟨⟩)
  | notify rw fd called result =>
    show Inv (Fd.step len s _, Event.own (s, σ) _)
    cases howner : σ rw fd with
    | none =>
      have hfunc : (s.fdt rw).func fd = none := by
        apply h.lists.func_none
        show ∀ f, σ rw fd ≠ some (.func f)
        rw [howner]
        rintro _ ⟨⟩
      simp only [Fd.step, Event.own, hfunc, howner]
      exact ⟨h.lists, h.waiting.signal fd _⟩
    | some o =>
      cases o with
      | task t =>
        have hfunc : (s.fdt rw).func fd = none := by
          apply h.lists.func_none
          show ∀ f, σ rw fd ≠ some (.func f)
          rw [howner]
          rintro _ ⟨⟩
        simp only [Fd.step, Event.own, hfunc, howner]
        exact ⟨h.lists, h.waiting.signal fd _⟩
      | func f =>
        have hfunc : (s.fdt rw).func fd = some f := (h.lists.func rw fd f).mpr howner
        have hafter := h.ops hlen he
        rw [foldl_track] at hafter
        simp only [Fd.step, Event.own, hfunc, howner]
        cases result with
        | none => exact hafter
        | some r =>
          cases r with
          | true => exact ⟨hafter.lists, hafter.waiting.signal fd _⟩
          | false =>
            have hfree : ∀ t, called.foldl Op.own σ rw fd ≠ some (.task t) := by
              intro t ht
              have hold := own_task ht
              rw [howner] at hold
              cases hold
            refine ⟨hafter.lists.removeWatch hlen, ?_⟩
            have hwaiting := hafter.waiting.set_none hfree
            have htasks : ((called.foldl (Op.run len) s).removeWatch len rw fd).tasks =
                (called.foldl (Op.run len) s).tasks := tasks_removeWatch
            rw [← htasks] at hwaiting
            exact hwaiting.signal fd _

def Waits (p : Tracked FD Task Func) (t : Task) (rw : Cond) (fd : FD) : Prop :=
  p.2 rw fd = some (.task t) ∧ ∃ w, p.1.tasks t = .waits w ∧ w.rw = rw ∧ w.fd = fd

def Registered (p : Tracked FD Task Func) (rw : Cond) (fd : FD) (f : Func) : Prop :=
  p.2 rw fd = some (.func f)

end

end Mihini.Sched.Fd
