import Mihini.Mediation.Client

/-!
# The tasks and the timers of the mediation client

What the variables of the client say of its tasks and timers, and the operations that keep it.
-/

open Function

namespace Mihini.Mediation.Handles

variable {h : Handles} {t u : Task} {p : Place} {f : Call}

/-! ## Kinds of tasks -/

theorem place_die : (h.die t).place u = if u = t then none else h.place u := update_apply ..

theorem place_goto : (h.goto t p).place u = if u = t then some p else h.place u :=
  update_apply ..

theorem place_run : (h.run f).place u = if u = h.fresh then some (.called f) else h.place u :=
  update_apply ..

theorem kind_die : (h.die t).kind u = if u = t then none else h.kind u := by
  rw [kind, place_die]
  split <;> rfl

theorem kind_goto : (h.goto t p).kind u = if u = t then some p.kind else h.kind u := by
  rw [kind, place_goto]
  split <;> rfl

theorem kind_run : (h.run f).kind u = if u = h.fresh then some f.kind else h.kind u := by
  rw [kind, place_run]
  split <;> rfl

theorem kind_of_die {k : Kind} (hk : (h.die t).kind u = some k) : h.kind u = some k := by
  rw [kind_die] at hk
  split at hk
  · nomatch hk
  · exact hk

theorem ne_of_die {k : Kind} (hk : (h.die t).kind u = some k) : u ≠ t := by
  rw [kind_die] at hk
  split at hk
  · nomatch hk
  · rename_i hne
    exact hne

theorem woken_wake {g : Place → Option Wake} (hw : h.woken t ≠ none) : (h.wake g).woken t ≠ none := by
  obtain ⟨e, he⟩ := Option.ne_none_iff_exists'.mp hw
  have hwake : (h.wake g).woken t = (h.woken t).or ((h.place t).bind g) := rfl
  rw [hwake, he]
  nofun

theorem woken_run (hw : h.woken t ≠ none) : (h.run f).woken t ≠ none := by
  have hrun : (h.run f).woken t = if t = h.fresh then some .begins else h.woken t :=
    update_apply ..
  rw [hrun]
  split
  · nofun
  · exact hw

def Engine (h : Handles) (t : Task) : Prop := h.kind t = some .listener ∨ h.kind t = some .search

def Restarts (h : Handles) : Prop :=
  (∃ k, h.timers k = some .restart) ∨ ∃ t, h.kind t = some .restart

end Handles

/-- A task is not in a session, and was not begun by `sched.kill`. -/
def Place.Steady : Place → Prop
  | .connecting _ _ | .receiving none _ | .called (.findserver none) => False
  | _ => True

namespace Handles

variable {h : Handles} {t u : Task} {p : Place} {f : Call}

structure Sane (h : Handles) : Prop where
  old : ∀ n, h.fresh ≤ n → h.place n = none ∧ h.timers n = none
  ready : ∀ t f, h.place t = some (.called f) → h.woken t ≠ none
  steady : ∀ t p, h.place t = some p → p.Steady
  engine : ∀ t u, h.Engine t → h.Engine u → t = u
  named : ∀ t, h.kind t = some .listener → h.listener = some t
  listener : ∀ t, h.listener = some t → t < h.fresh ∧ (h.kind t = none ∨ h.kind t = some .listener)
  heartbeat : ∀ t, h.heartbeat = some t → t < h.fresh ∧ (h.kind t = none ∨ h.kind t = some .keepalive)
  chain : ∀ t u, h.kind t = some .keepalive → h.kind u = some .keepalive → t = u
  armed : ∀ k f, h.timers k = some f →
    (∃ id, f = .sendkeepalive id ∧ h.keepalive = some k ∧ ∀ t, h.kind t ≠ some .keepalive) ∨
      f = .restart ∧ h.restart = some k
  apart : ∀ k, h.keepalive = some k → k < h.fresh ∧ h.timers k ≠ some .restart
  delayed : h.restart ≠ none → h.Restarts

theorem Sane.lt (hs : Sane h) {k : Kind} (hk : h.kind t = some k) : t < h.fresh := by
  by_contra hge
  rw [kind, (hs.old t (Nat.le_of_not_lt hge)).1] at hk
  nomatch hk

theorem Sane.listener_place (hs : Sane h) (hk : h.kind t = some .listener) :
    (∃ index, h.place t = some (.called (.mediationlistener index)) ∧ h.woken t ≠ none) ∨
      ∃ index s, h.place t = some (.receiving (some index) s) := by
  cases hp : h.place t with
  | none =>
    rw [kind, hp] at hk
    nomatch hk
  | some p =>
    have hsteady := hs.steady t p hp
    rw [kind, hp] at hk
    cases p with
    | called f =>
      cases f with
      | mediationlistener index => exact Or.inl ⟨index, rfl, hs.ready t _ hp⟩
      | sendkeepalive | findserver | restart | netmanhook => nomatch hk
    | receiving index s =>
      cases index with
      | none => exact hsteady.elim
      | some index => exact Or.inr ⟨index, s, rfl⟩
    | connecting => exact hsteady.elim
    | acking | stopping => nomatch hk

theorem place_ne_none {k : Kind} (hk : h.kind t = some k) : h.place t ≠ none := by
  intro hp
  rw [kind, hp] at hk
  nomatch hk

theorem Sane.woken_of_kind (hs : Sane h) (hk : h.kind t = some .search ∨ h.kind t = some .restart) :
    h.woken t ≠ none := by
  cases hp : h.place t with
  | none => exact (hk.elim place_ne_none place_ne_none hp).elim
  | some p =>
    rw [kind, hp] at hk
    cases p with
    | called f => exact hs.ready t f hp
    | receiving | connecting | acking | stopping => rcases hk with hk | hk <;> nomatch hk

theorem Sane.woken (hs : Sane h) {g : Task → Option Wake}
    (hg : ∀ t, h.place t ≠ none → h.woken t ≠ none → g t ≠ none) : Sane { h with woken := g } where
  old := hs.old
  ready t f hf := hg t (by rw [show h.place t = some (.called f) from hf]; nofun) (hs.ready t f hf)
  steady := hs.steady
  engine := hs.engine
  named := hs.named
  listener := hs.listener
  heartbeat := hs.heartbeat
  chain := hs.chain
  armed := hs.armed
  apart := hs.apart
  delayed := hs.delayed

theorem Sane.wake (hs : Sane h) (g : Place → Option Wake) : Sane (h.wake g) :=
  hs.woken fun _ _ => woken_wake

theorem Sane.skip (hs : Sane h) : Sane { h with fresh := h.fresh + 1 } where
  old n hn := hs.old n (Nat.le_of_succ_le hn)
  ready := hs.ready
  steady := hs.steady
  engine := hs.engine
  named := hs.named
  listener t ht := ⟨Nat.lt_succ_of_lt (hs.listener t ht).1, (hs.listener t ht).2⟩
  heartbeat t ht := ⟨Nat.lt_succ_of_lt (hs.heartbeat t ht).1, (hs.heartbeat t ht).2⟩
  chain := hs.chain
  armed := hs.armed
  apart k hk := ⟨Nat.lt_succ_of_lt (hs.apart k hk).1, (hs.apart k hk).2⟩
  delayed := hs.delayed

theorem Sane.forgetListener (hs : Sane h) (hnone : ∀ t, h.kind t ≠ some .listener) :
    Sane { h with listener := none } where
  old := hs.old
  ready := hs.ready
  steady := hs.steady
  engine := hs.engine
  named t ht := absurd ht (hnone t)
  listener := nofun
  heartbeat := hs.heartbeat
  chain := hs.chain
  armed := hs.armed
  apart := hs.apart
  delayed := hs.delayed

theorem Sane.forgetHeartbeat (hs : Sane h) : Sane { h with heartbeat := none } where
  old := hs.old
  ready := hs.ready
  steady := hs.steady
  engine := hs.engine
  named := hs.named
  listener := hs.listener
  heartbeat := nofun
  chain := hs.chain
  armed := hs.armed
  apart := hs.apart
  delayed := hs.delayed

/-- Some places are changed, and the kinds of the others are kept. -/
theorem Sane.place (hs : Sane h) (place' : Task → Option Place) (woken' : Task → Option Wake)
    (hready : ∀ t f, place' t = some (.called f) → woken' t ≠ none)
    (hsteady : ∀ t p, place' t = some p → p.Steady)
    (hkind : ∀ t, (place' t).map Place.kind = h.kind t ∨ place' t = none ∨
      ((place' t).map Place.kind = some .stop ∧ t < h.fresh ∧ h.listener ≠ some t ∧ h.heartbeat ≠ some t))
    (hdelayed : h.restart ≠ none → ∀ t, h.kind t = some .restart → (place' t).map Place.kind = some .restart) :
    Sane { h with place := place', woken := woken' } := by
  have hback : ∀ t k, k ≠ .stop → (place' t).map Place.kind = some k → h.kind t = some k := by
    intro t k hk hp
    rcases hkind t with heq | hnone | ⟨hstop, -⟩
    · rw [← heq, hp]
    · rw [hnone] at hp
      nomatch hp
    · rw [hstop] at hp
      exact absurd (Option.some.inj hp).symm hk
  have hvar : ∀ t k, (h.kind t = none ∨ h.kind t = some k) → (h.listener = some t ∨ h.heartbeat = some t) →
      (place' t).map Place.kind = none ∨ (place' t).map Place.kind = some k := by
    intro t k hk hv
    rcases hkind t with heq | hnone | ⟨-, -, hl, hb⟩
    · rwa [heq]
    · exact Or.inl (by rw [hnone]; rfl)
    · exact (hv.elim hl hb).elim
  have hengine : ∀ t, Engine { h with place := place', woken := woken' } t → h.Engine t := by
    rintro t (ht | ht)
    · exact Or.inl (hback t _ nofun ht)
    · exact Or.inr (hback t _ nofun ht)
  constructor
  · intro n hn
    refine ⟨?_, (hs.old n hn).2⟩
    rcases hkind n with heq | hnone | ⟨-, hlt, -⟩
    · have hnone : h.kind n = none := by rw [kind, (hs.old n hn).1]; rfl
      exact Option.map_eq_none_iff.mp (heq.trans hnone)
    · exact hnone
    · exact absurd hlt (Nat.not_lt.mpr hn)
  · exact hready
  · exact hsteady
  · exact fun t u ht hu => hs.engine t u (hengine t ht) (hengine u hu)
  · exact fun t ht => hs.named t (hback t _ nofun ht)
  · exact fun t ht => ⟨(hs.listener t ht).1, hvar t _ (hs.listener t ht).2 (Or.inl ht)⟩
  · exact fun t ht => ⟨(hs.heartbeat t ht).1, hvar t _ (hs.heartbeat t ht).2 (Or.inr ht)⟩
  · exact fun t u ht hu => hs.chain t u (hback t _ nofun ht) (hback u _ nofun hu)
  · intro k f hk
    refine (hs.armed k f hk).imp_left ?_
    rintro ⟨id, hf, hkeep, hnone⟩
    exact ⟨id, hf, hkeep, fun t ht => hnone t (hback t _ nofun ht)⟩
  · exact hs.apart
  · intro hr
    exact (hs.delayed hr).imp_right fun ⟨t, ht⟩ => ⟨t, hdelayed hr t ht⟩

theorem Sane.die (hs : Sane h) (hr : h.kind t = some .restart → h.restart = none) : Sane (h.die t) := by
  refine hs.place _ h.woken (fun u f hu => ?_) (fun u p hu => ?_) (fun u => ?_) fun hne u hu => ?_
  · by_cases heq : u = t
    · rw [heq, update_self] at hu
      nomatch hu
    · rw [update_of_ne heq] at hu
      exact hs.ready u f hu
  · by_cases heq : u = t
    · rw [heq, update_self] at hu
      nomatch hu
    · rw [update_of_ne heq] at hu
      exact hs.steady u p hu
  · by_cases heq : u = t
    · exact Or.inr (Or.inl (by rw [heq, update_self]))
    · exact Or.inl (by rw [update_of_ne heq]; rfl)
  · by_cases heq : u = t
    · exact absurd (hr (heq ▸ hu)) hne
    · rw [update_of_ne heq]
      exact hu

theorem Sane.goto (hs : Sane h) (hp : p.Steady) (hcalled : ∀ f, p ≠ .called f)
    (hkind : h.kind t = some p.kind ∨
      p.kind = .stop ∧ t < h.fresh ∧ h.listener ≠ some t ∧ h.heartbeat ≠ some t ∧ h.restart = none) :
    Sane (h.goto t p) := by
  refine hs.place _ _ (fun u f hu => ?_) (fun u q hu => ?_) (fun u => ?_) fun hne u hu => ?_
  · by_cases heq : u = t
    · rw [heq, update_self] at hu
      exact absurd (Option.some.inj hu) (hcalled f)
    · rw [update_of_ne heq] at hu
      rw [update_of_ne heq]
      exact hs.ready u f hu
  · by_cases heq : u = t
    · rw [heq, update_self] at hu
      rwa [← Option.some.inj hu]
    · rw [update_of_ne heq] at hu
      exact hs.steady u q hu
  · by_cases heq : u = t
    · subst heq
      rw [update_self]
      rcases hkind with hsame | ⟨hstop, hlt, hl, hb, -⟩
      · exact Or.inl hsame.symm
      · exact Or.inr (Or.inr ⟨congrArg some hstop, hlt, hl, hb⟩)
    · exact Or.inl (by rw [update_of_ne heq]; rfl)
  · by_cases heq : u = t
    · subst heq
      rw [update_self]
      rcases hkind with hsame | ⟨-, -, -, -, hnone⟩
      · exact hsame.symm.trans hu
      · exact absurd hnone hne
    · rw [update_of_ne heq]
      exact hu

/-- A task is run; its kind says which variables name it, and a timer may have elapsed for it. -/
theorem Sane.run (hs : Sane h) {timers' : Timer → Option Call} {l b : Option Task}
    (hsteady : (Place.called f).Steady)
    (htimers : ∀ k g, timers' k = some g → h.timers k = some g ∧ (f.kind = .keepalive → g.kind ≠ .keepalive))
    (hengine : f.kind = .listener ∨ f.kind = .search → ∀ t, ¬ h.Engine t)
    (hkeep : f.kind = .keepalive → ∀ t, h.kind t ≠ some .keepalive)
    (hl : l = if f.kind = .listener then some h.fresh else h.listener)
    (hb : b = h.heartbeat ∨ f.kind = .keepalive ∧ b = some h.fresh)
    (hdelayed : h.restart ≠ none →
      (∃ k, timers' k = some .restart) ∨ f.kind = .restart ∨ ∃ t, h.kind t = some .restart) :
    Sane { Handles.run { h with timers := timers' } f with listener := l, heartbeat := b } := by
  have hkind : ∀ u, kind { Handles.run { h with timers := timers' } f with listener := l, heartbeat := b } u =
      if u = h.fresh then some f.kind else h.kind u := fun u => kind_run
  have hplace : ∀ u, (Handles.run { h with timers := timers' } f).place u =
      if u = h.fresh then some (.called f) else h.place u := fun u => place_run
  have hnone : h.kind h.fresh = none := by rw [kind, (hs.old _ (Nat.le_refl _)).1]; rfl
  have hold : ∀ u, u < h.fresh → kind { Handles.run { h with timers := timers' } f with
      listener := l, heartbeat := b } u = h.kind u := fun u hu => by rw [hkind, if_neg (Nat.ne_of_lt hu)]
  constructor
  · intro n hn
    have hlt : h.fresh < n := hn
    refine ⟨?_, ?_⟩
    · refine (hplace n).trans ?_
      rw [if_neg (Nat.ne_of_gt hlt)]
      exact (hs.old n (Nat.le_of_lt hlt)).1
    · cases hk : timers' n with
      | none => exact hk
      | some g => nomatch (hs.old n (Nat.le_of_lt hlt)).2.symm.trans (htimers n g hk).1
  · intro t g hg
    have hg' := (hplace t).symm.trans hg
    by_cases ht : t = h.fresh
    · subst ht
      show update h.woken h.fresh (some Wake.begins) h.fresh ≠ none
      rw [update_self]
      nofun
    · rw [if_neg ht] at hg'
      exact woken_run (f := f) (hs.ready t g hg')
  · intro t p hp
    have hp' := (hplace t).symm.trans hp
    by_cases ht : t = h.fresh
    · rw [if_pos ht] at hp'
      rwa [← Option.some.inj hp']
    · rw [if_neg ht] at hp'
      exact hs.steady t p hp'
  · intro t u ht hu
    unfold Engine at ht hu
    rw [hkind] at ht hu
    by_cases htf : t = h.fresh
    · rw [if_pos htf] at ht
      have hnot := hengine (ht.imp Option.some.inj Option.some.inj)
      by_cases huf : u = h.fresh
      · exact htf.trans huf.symm
      · rw [if_neg huf] at hu
        exact absurd hu (hnot u)
    · rw [if_neg htf] at ht
      by_cases huf : u = h.fresh
      · rw [if_pos huf] at hu
        exact absurd ht (hengine (hu.imp Option.some.inj Option.some.inj) t)
      · rw [if_neg huf] at hu
        exact hs.engine t u ht hu
  · intro t ht
    rw [hkind] at ht
    show l = some t
    by_cases htf : t = h.fresh
    · rw [if_pos htf] at ht
      rw [hl, if_pos (Option.some.inj ht), htf]
    · rw [if_neg htf] at ht
      rw [hl, if_neg fun hf => hengine (Or.inl hf) t (Or.inl ht)]
      exact hs.named t ht
  · intro t ht
    have ht' : l = some t := ht
    rw [hl] at ht'
    split at ht'
    · rename_i hf
      obtain rfl := Option.some.inj ht'
      exact ⟨Nat.lt_succ_self _, Or.inr (by rw [hkind, if_pos rfl, hf])⟩
    · obtain ⟨hlt, hk⟩ := hs.listener t ht'
      exact ⟨Nat.lt_succ_of_lt hlt, by rwa [hold t hlt]⟩
  · intro t ht
    rcases hb with hb | ⟨hf, hb⟩
    · obtain ⟨hlt, hk⟩ := hs.heartbeat t (hb.symm.trans ht)
      exact ⟨Nat.lt_succ_of_lt hlt, by rwa [hold t hlt]⟩
    · obtain rfl := Option.some.inj (hb.symm.trans ht)
      exact ⟨Nat.lt_succ_self _, Or.inr (by rw [hkind, if_pos rfl, hf])⟩
  · intro t u ht hu
    rw [hkind] at ht hu
    by_cases htf : t = h.fresh
    · rw [if_pos htf] at ht
      by_cases huf : u = h.fresh
      · exact htf.trans huf.symm
      · rw [if_neg huf] at hu
        exact absurd hu (hkeep (Option.some.inj ht) u)
    · rw [if_neg htf] at ht
      by_cases huf : u = h.fresh
      · rw [if_pos huf] at hu
        exact absurd ht (hkeep (Option.some.inj hu) t)
      · rw [if_neg huf] at hu
        exact hs.chain t u ht hu
  · intro k g hk
    obtain ⟨hk', hnot⟩ := htimers k g hk
    refine (hs.armed k g hk').imp_left ?_
    rintro ⟨id, rfl, hvar, hnone⟩
    refine ⟨id, rfl, hvar, fun t ht => ?_⟩
    rw [hkind] at ht
    by_cases htf : t = h.fresh
    · rw [if_pos htf] at ht
      exact hnot (Option.some.inj ht) rfl
    · rw [if_neg htf] at ht
      exact hnone t ht
  · intro k hk
    obtain ⟨hlt, hne⟩ := hs.apart k hk
    exact ⟨Nat.lt_succ_of_lt hlt, fun heq => hne (htimers k _ heq).1⟩
  · intro hr
    rcases hdelayed hr with hk | hf | ⟨t, ht⟩
    · exact Or.inl hk
    · exact Or.inr ⟨h.fresh, by rw [hkind, if_pos rfl, hf]⟩
    · exact Or.inr ⟨t, (hold t (hs.lt ht)).trans ht⟩

/-! ## Timers -/

def Still (h : Handles) : Prop := ∀ k id, h.timers k ≠ some (.sendkeepalive id)

def without (timers : Timer → Option Call) (cancelled : Option Timer) : Timer → Option Call :=
  fun k => if cancelled = some k then none else timers k

theorem without_some (timers : Timer → Option Call) (k : Timer) :
    without timers (some k) = update timers k none := by
  funext u
  rw [without, update_apply]
  by_cases hu : u = k
  · rw [if_pos hu, if_pos (congrArg some hu.symm)]
  · rw [if_neg hu, if_neg fun heq => hu (Option.some.inj heq).symm]

theorem cancelKeepalive_eq (h : Handles) :
    h.cancelKeepalive = { h with timers := without h.timers h.keepalive, keepalive := none } := by
  obtain ⟨place, woken, timers, fresh, keepalive, restart, listener, heartbeat⟩ := h
  cases keepalive with
  | none => rfl
  | some k => rw [without_some]; rfl

theorem cancelRestart_eq (h : Handles) :
    h.cancelRestart = { h with timers := without h.timers h.restart, restart := none } := by
  obtain ⟨place, woken, timers, fresh, keepalive, restart, listener, heartbeat⟩ := h
  cases restart with
  | none => rfl
  | some k => rw [without_some]; rfl

theorem without_eq_some {timers : Timer → Option Call} {cancelled : Option Timer} {k : Timer}
    (hk : without timers cancelled k = some f) : timers k = some f ∧ cancelled ≠ some k := by
  rw [without] at hk
  split at hk
  · nomatch hk
  · rename_i hne
    exact ⟨hk, hne⟩

theorem Sane.still_cancelKeepalive (hs : Sane h) : Still h.cancelKeepalive := by
  intro k id hk
  rw [cancelKeepalive_eq] at hk
  obtain ⟨hk, hne⟩ := without_eq_some hk
  rcases hs.armed k _ hk with ⟨-, -, hvar, -⟩ | ⟨heq, -⟩
  · exact hne hvar
  · nomatch heq

theorem Sane.cancelKeepalive (hs : Sane h) : Sane h.cancelKeepalive := by
  have hstill := hs.still_cancelKeepalive
  rw [cancelKeepalive_eq] at hstill ⊢
  constructor
  · intro n hn
    refine ⟨(hs.old n hn).1, ?_⟩
    cases hk : without h.timers h.keepalive n with
    | none => exact hk
    | some g => nomatch (hs.old n hn).2.symm.trans (without_eq_some hk).1
  · exact hs.ready
  · exact hs.steady
  · exact hs.engine
  · exact hs.named
  · exact hs.listener
  · exact hs.heartbeat
  · exact hs.chain
  · intro k g hk
    rcases hs.armed k g (without_eq_some hk).1 with ⟨id, rfl, -⟩ | hrestart
    · exact absurd hk (hstill k id)
    · exact Or.inr hrestart
  · nofun
  · intro hr
    refine (hs.delayed hr).imp_left ?_
    rintro ⟨k, hk⟩
    exact ⟨k, (if_neg fun hvar => (hs.apart k hvar).2 hk).trans hk⟩

theorem Sane.cancelRestart (hs : Sane h) : Sane h.cancelRestart := by
  rw [cancelRestart_eq]
  constructor
  · intro n hn
    refine ⟨(hs.old n hn).1, ?_⟩
    cases hk : without h.timers h.restart n with
    | none => exact hk
    | some g => nomatch (hs.old n hn).2.symm.trans (without_eq_some hk).1
  · exact hs.ready
  · exact hs.steady
  · exact hs.engine
  · exact hs.named
  · exact hs.listener
  · exact hs.heartbeat
  · exact hs.chain
  · intro k g hk
    obtain ⟨hk, hne⟩ := without_eq_some hk
    exact (hs.armed k g hk).imp_right fun ⟨_, hvar⟩ => absurd hvar hne
  · exact fun k hvar => ⟨(hs.apart k hvar).1, fun hk => (hs.apart k hvar).2 (without_eq_some hk).1⟩
  · exact fun hr => absurd rfl hr

theorem Sane.armKeepalive (hs : Sane h) (hstill : Still h) (hnone : ∀ t, h.kind t ≠ some .keepalive)
    (id : Nat) : Sane { h.arm (.sendkeepalive id) with keepalive := some h.fresh } where
  old n hn := by
    have hlt : h.fresh < n := hn
    refine ⟨(hs.old n (Nat.le_of_lt hlt)).1, ?_⟩
    exact (update_of_ne (Nat.ne_of_gt hlt) _ _).trans (hs.old n (Nat.le_of_lt hlt)).2
  ready := hs.ready
  steady := hs.steady
  engine := hs.engine
  named := hs.named
  listener t ht := ⟨Nat.lt_succ_of_lt (hs.listener t ht).1, (hs.listener t ht).2⟩
  heartbeat t ht := ⟨Nat.lt_succ_of_lt (hs.heartbeat t ht).1, (hs.heartbeat t ht).2⟩
  chain := hs.chain
  armed k g hk := by
    have hk' : update h.timers h.fresh (some (.sendkeepalive id)) k = some g := hk
    rw [update_apply] at hk'
    split at hk'
    · rename_i hfresh
      exact Or.inl ⟨id, (Option.some.inj hk').symm, congrArg some hfresh.symm, hnone⟩
    · rcases hs.armed k g hk' with ⟨id', rfl, -⟩ | hrestart
      · exact absurd hk' (hstill k id')
      · exact Or.inr hrestart
  apart k hk := by
    obtain rfl := Option.some.inj hk
    refine ⟨Nat.lt_succ_self _, fun heq => ?_⟩
    have heq' : update h.timers h.fresh (some (.sendkeepalive id)) h.fresh = some .restart := heq
    rw [update_self] at heq'
    nomatch heq'
  delayed hr := by
    refine (hs.delayed hr).imp_left ?_
    rintro ⟨k, hk⟩
    refine ⟨k, (update_of_ne (fun heq => ?_) _ _).trans hk⟩
    rw [heq, (hs.old _ (Nat.le_refl _)).2] at hk
    nomatch hk

theorem Sane.armRestart (hs : Sane h) (hnone : h.restart = none) :
    Sane { h.arm .restart with restart := some h.fresh } where
  old n hn := by
    have hlt : h.fresh < n := hn
    refine ⟨(hs.old n (Nat.le_of_lt hlt)).1, ?_⟩
    exact (update_of_ne (Nat.ne_of_gt hlt) _ _).trans (hs.old n (Nat.le_of_lt hlt)).2
  ready := hs.ready
  steady := hs.steady
  engine := hs.engine
  named := hs.named
  listener t ht := ⟨Nat.lt_succ_of_lt (hs.listener t ht).1, (hs.listener t ht).2⟩
  heartbeat t ht := ⟨Nat.lt_succ_of_lt (hs.heartbeat t ht).1, (hs.heartbeat t ht).2⟩
  chain := hs.chain
  armed k g hk := by
    have hk' : update h.timers h.fresh (some .restart) k = some g := hk
    rw [update_apply] at hk'
    split at hk'
    · rename_i hfresh
      exact Or.inr ⟨(Option.some.inj hk').symm, congrArg some hfresh.symm⟩
    · refine (hs.armed k g hk').imp_right ?_
      rintro ⟨-, hvar⟩
      rw [hnone] at hvar
      nomatch hvar
  apart k hk := by
    obtain ⟨hlt, hne⟩ := hs.apart k hk
    refine ⟨Nat.lt_succ_of_lt hlt, fun heq => hne ?_⟩
    exact (update_of_ne (Nat.ne_of_lt hlt) _ _).symm.trans heq
  delayed _ := Or.inl ⟨h.fresh, update_self ..⟩

end Handles

end Mihini.Mediation
