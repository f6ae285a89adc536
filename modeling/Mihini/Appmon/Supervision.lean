import Mathlib.Data.List.Forall2
import Mihini.Appmon.Daemon
import Mihini.Lib.Keyed
import Mihini.Lib.Run

/-!
# Supervision of applications

What holds of the applications and their children over whole runs, while every restart succeeds and no
process gets an identifier that an earlier application of the list has kept.
-/

namespace Mihini.Appmon

open Mihini.Lib List

/-! ## What supervision is -/

def App.Active (a : App) : Prop := a.status = .started ∨ a.status = .toBeKilled

def Owned (apps : List App) (c : Child) : Prop :=
  findByPid apps c.pid = findById apps c.owner

structure Supervised (s : State) : Prop where
  ids : (s.apps.map App.id).Nodup
  active : ∀ a ∈ s.apps, a.Active ↔ ∃ c ∈ s.children, c.owner = a.id ∧ a.pid = some c.pid
  waiting : ∀ a ∈ s.apps, a.status = .toBeRestarted → s.scheduled = true ∨ s.pending = true
  halted : ∀ a ∈ s.apps, a.id ∈ s.halted → a.status = .toBeKilled ∨ a.status = .killed

def Forks (s s' : State) (id : Nat) : Prop :=
  ∃ c ∈ s'.children, c.owner = id ∧ ∀ d ∈ s.children, d.pid ≠ c.pid

def Removes (s : State) (e : Event) (id : Nat) : Prop :=
  e = .remove id ∨ e = .stopped ∧ s.mode = .stopping id true

structure Right (s : State) (e : Event) (s' : State) : Prop where
  kept : ∀ a ∈ s.apps, (∃ b ∈ s'.apps, b.id = a.id) ∨ Removes s e a.id
  attributed : ∀ c ∈ s.children, e = .collect c.pid → Owned s.apps c
  quiet : ∀ id ∈ s.halted, Forks s s' id → ∃ fork, e = .start id fork
  failed : ∀ c ∈ s.children, ∀ x, e = .collect c.pid → c.exit = some x → x.isError = true →
    ∀ a ∈ s.apps, a.id = c.owner → a.status = .started →
      ∃ b ∈ s'.apps, b.id = a.id ∧ b.status = .toBeRestarted
  restarted : ∀ a ∈ s.apps, a.status = .toBeRestarted →
    (∃ b ∈ s'.apps, b.id = a.id ∧ (b.status = .toBeRestarted ∨ b.Active ∧ Forks s s' a.id)) ∨
      e = .stop a.id ∨ Removes s e a.id

/-! ## When it holds -/

/-- No application before an index has a process, those that are restarted aside. -/
def PidFree (s : State) (i pid : Nat) : Prop :=
  ∀ j < i, ∀ b, s.apps[j]? = some b → b.status ≠ .toBeRestarted → b.pid ≠ some pid

def Sound (s : State) : Event → Prop
  | .setup _ => s.nextAppId + 1 < 2 ^ 32
  | .start id fork =>
    ∀ i pid, findById s.apps id = some i → fork = some pid →
      ∀ j < i, ∀ b, s.apps[j]? = some b → b.pid ≠ some pid
  | .stopped =>
    ∀ id, s.mode = .stopping id true → ∀ c ∈ s.children, c.owner = id →
      ∀ a ∈ s.apps, a.id ≠ id → a.pid ≠ some c.pid
  | .collect pid => s.mode ≠ .forked pid
  | .alarm forks =>
    ∀ i a, s.apps[i]? = some a → a.status = .toBeRestarted →
      ∃ pid, forks a.id = some pid ∧ PidFree s i pid
  | _ => True

/-! ## Finding a child -/

theorem owned_nil (c : Child) : Owned [] c := rfl

variable {c : Child} {apps : List App} {a : App}

theorem owned_cons :
    Owned (a :: apps) c ↔ a.pid = some c.pid ∧ a.id = c.owner ∨
      a.pid ≠ some c.pid ∧ a.id ≠ c.owner ∧ Owned apps c := by
  simp only [Owned, findByPid, findById, List.findIdx?_cons, decide_eq_true_eq]
  have hsucc : ∀ o : Option Nat, some 0 ≠ o.map (fun i => i + 1) := by
    intro o
    cases o <;> simp
  by_cases hpid : a.pid = some c.pid
  · by_cases hid : a.id = c.owner
    · simp [hpid, hid]
    · simp [hpid, hid, hsucc]
  by_cases hid : a.id = c.owner
  · simp [hpid, hid, (hsucc _).symm]
  · have hinj : Function.Injective (Option.map fun i : Nat => i + 1) :=
      Option.map_injective fun _ _ h => Nat.succ.inj h
    simp [hpid, hid, hinj.eq_iff]

def Follows (c : Child) (a b : App) : Prop :=
  b.id = a.id ∧ (b.pid = a.pid ∨ b.pid ≠ some c.pid ∧ a.id ≠ c.owner)

theorem Owned.follows {apps apps' : List App} (h : Owned apps c)
    (hfollows : List.Forall₂ (Follows c) apps apps') : Owned apps' c := by
  induction hfollows with
  | nil => exact owned_nil c
  | @cons a b apps apps' hab _ ih =>
    obtain ⟨hid, hpid⟩ := hab
    rw [owned_cons] at h ⊢
    rw [hid]
    rcases h with ⟨hp, hi⟩ | ⟨hp, hi, htail⟩
    · exact .inl ⟨(hpid.resolve_right fun hne => hne.2 hi).trans hp, hi⟩
    · refine .inr ⟨?_, hi, ih htail⟩
      rcases hpid with heq | hne
      · rwa [heq]
      · exact hne.1

theorem Owned.append (h : Owned apps c)
    (hpid : a.pid ≠ some c.pid) (hid : a.id ≠ c.owner) : Owned (apps ++ [a]) c := by
  induction apps with
  | nil => exact owned_cons.mpr (.inr ⟨hpid, hid, owned_nil c⟩)
  | cons b apps ih =>
    rw [cons_append, owned_cons] at *
    exact h.imp_right fun ⟨hp, hi, htail⟩ => ⟨hp, hi, ih htail⟩

theorem Owned.pid_eq (h : Owned apps c)
    (hids : (apps.map App.id).Nodup) (ha : a ∈ apps) (hid : a.id = c.owner) :
    a.pid = some c.pid := by
  induction apps with
  | nil => cases ha
  | cons b apps ih =>
    obtain ⟨hb, hids⟩ := nodup_cons.mp hids
    rcases owned_cons.mp h with ⟨hp, hi⟩ | ⟨-, hi, htail⟩
    · rcases mem_cons.mp ha with rfl | ha
      · exact hp
      · refine absurd ?_ hb
        rw [hi, ← hid]
        exact mem_map_of_mem ha
    · rcases mem_cons.mp ha with rfl | ha
      · exact absurd hid hi
      · exact ih htail hids ha

variable {id : Nat}

theorem Owned.eraseP (h : Owned apps c)
    (hid : c.owner ≠ id) : Owned (apps.eraseP fun a => a.id = id) c := by
  induction apps with
  | nil => exact owned_nil c
  | cons b apps ih =>
    by_cases hb : b.id = id
    · rw [eraseP_cons_of_pos (by simpa using hb)]
      rcases owned_cons.mp h with ⟨-, hi⟩ | ⟨-, -, htail⟩
      · exact absurd (hi.symm.trans hb) hid
      · exact htail
    · rw [eraseP_cons_of_neg (by simpa using hb)]
      exact owned_cons.mpr ((owned_cons.mp h).imp_right fun ⟨hp, hi, htail⟩ => ⟨hp, hi, ih htail⟩)

theorem owned_of_forall_ne (hpid : ∀ a ∈ apps, a.pid ≠ some c.pid)
    (hid : ∀ a ∈ apps, a.id ≠ c.owner) : Owned apps c := by
  induction apps with
  | nil => exact owned_nil c
  | cons a apps ih =>
    obtain ⟨hpa, hpid⟩ := forall_mem_cons.mp hpid
    obtain ⟨hia, hid⟩ := forall_mem_cons.mp hid
    exact owned_cons.mpr (.inr ⟨hpa, hia, ih hpid hid⟩)

variable {i : Nat}

theorem owned_of_getElem? (ha : apps[i]? = some a)
    (hpid : a.pid = some c.pid) (hid : a.id = c.owner) (hids : (apps.map App.id).Nodup)
    (hfree : ∀ j < i, ∀ b, apps[j]? = some b → b.pid ≠ some c.pid) : Owned apps c := by
  induction apps generalizing i with
  | nil => cases ha
  | cons b apps ih =>
    cases i with
    | zero =>
      obtain rfl := Option.some.inj ha
      exact owned_cons.mpr (.inl ⟨hpid, hid⟩)
    | succ i =>
      obtain ⟨hb, hids⟩ := nodup_cons.mp hids
      refine owned_cons.mpr (.inr ⟨hfree 0 (Nat.succ_pos i) b rfl, fun heq => hb ?_, ?_⟩)
      · rw [heq, ← hid]
        exact mem_map_of_mem (mem_of_getElem? ha)
      · exact ih ha hids fun j hj b' hb' => hfree (j + 1) (Nat.succ_lt_succ hj) b' hb'

theorem forall₂_set {R : App → App → Prop} {b : App}
    (hrefl : ∀ a, R a a) (h : ∀ a, apps[i]? = some a → R a b) :
    List.Forall₂ R apps (apps.set i b) := by
  induction apps generalizing i with
  | nil => exact .nil
  | cons a apps ih =>
    cases i with
    | zero => exact .cons (h a rfl) (forall₂_same.mpr fun a _ => hrefl a)
    | succ i => exact .cons (hrefl a) (ih h)

/-! ## The invariant -/

structure Ready (s : State) : Prop where
  ids : (s.apps.map App.id).Nodup
  bound : ∀ a ∈ s.apps, a.id ≤ s.nextAppId
  owners : ∀ c ∈ s.children, c.owner ≤ s.nextAppId
  pids : (s.children.map Child.pid).Nodup
  owned : ∀ c ∈ s.children, Owned s.apps c
  active : ∀ a ∈ s.apps, a.Active ↔ ∃ c ∈ s.children, c.owner = a.id
  halted : ∀ a ∈ s.apps, a.id ∈ s.halted → a.status = .toBeKilled ∨ a.status = .killed

def Armed (s : State) : Prop :=
  ∀ a ∈ s.apps, a.status = .toBeRestarted → s.scheduled = true ∨ s.pending = true

variable {s : State}

theorem Ready.setStatus (h : Ready s) (ha : s.apps[i]? = some a)
    {status : AppStatus} {halted : List Nat}
    (hactive : (status = .started ∨ status = .toBeKilled) ↔ a.Active)
    (hsub : ∀ id ∈ halted, id ∈ s.halted ∨ id = a.id)
    (hhalted : a.id ∈ halted → status = .toBeKilled ∨ status = .killed) :
    Ready { s.setStatus i a status with halted := halted } := by
  have hmem := mem_of_getElem? ha
  have hids : (s.setStatus i a status).apps.map App.id = s.apps.map App.id := map_key_set ha rfl
  constructor
  · exact hids ▸ h.ids
  · intro b hb
    rcases mem_set_of_nodup h.ids ha hb with rfl | ⟨hb, -⟩
    · exact h.bound a hmem
    · exact h.bound b hb
  · exact h.owners
  · exact h.pids
  · intro c hc
    refine (h.owned c hc).follows (forall₂_set (fun _ => ⟨rfl, .inl rfl⟩) fun a' ha' => ?_)
    obtain rfl := Option.some.inj (ha.symm.trans ha')
    exact ⟨rfl, .inl rfl⟩
  · intro b hb
    rcases mem_set_of_nodup h.ids ha hb with rfl | ⟨hb, -⟩
    · exact hactive.trans (h.active a hmem)
    · exact h.active b hb
  · intro b hb hbh
    rcases mem_set_of_nodup h.ids ha hb with rfl | ⟨hb, hne⟩
    · exact hhalted hbh
    · exact h.halted b hb ((hsub b.id hbh).resolve_right hne)

theorem Ready.start (h : Ready s) {i pid : Nat} (ha : s.apps[i]? = some a)
    (hidle : ¬ a.Active) (hhalted : a.id ∉ s.halted) (hfresh : ∀ c ∈ s.children, c.pid ≠ pid)
    (hfree : ∀ j < i, ∀ b, s.apps[j]? = some b → b.pid ≠ some pid) : Ready (s.start i a pid) := by
  have hmem := mem_of_getElem? ha
  have hids : (s.start i a pid).apps.map App.id = s.apps.map App.id := map_key_set ha rfl
  have howner : ∀ c ∈ s.children, c.owner ≠ a.id := fun c hc heq =>
    hidle ((h.active a hmem).mpr ⟨c, hc, heq⟩)
  constructor
  · exact hids ▸ h.ids
  · intro b hb
    rcases mem_set_of_nodup h.ids ha hb with rfl | ⟨hb, -⟩
    · exact h.bound a hmem
    · exact h.bound b hb
  · intro c hc
    rcases mem_append.mp hc with hc | hc
    · exact h.owners c hc
    · rw [mem_singleton.mp hc]
      exact h.bound a hmem
  · simp only [State.start, map_append, map_singleton]
    refine nodup_append.mpr ⟨h.pids, by simp, fun p hp q hq heq => ?_⟩
    obtain ⟨c, hc, rfl⟩ := mem_map.mp hp
    exact hfresh c hc (heq.trans (mem_singleton.mp hq))
  · intro c hc
    rcases mem_append.mp hc with hc | hc
    · refine (h.owned c hc).follows (forall₂_set (fun _ => ⟨rfl, .inl rfl⟩) fun a' ha' => ?_)
      obtain rfl := Option.some.inj (ha.symm.trans ha')
      exact ⟨rfl, .inr ⟨fun heq => hfresh c hc (Option.some.inj heq).symm, (howner c hc).symm⟩⟩
    · obtain rfl := mem_singleton.mp hc
      have hi : i < s.apps.length := (List.getElem?_eq_some_iff.mp ha).1
      refine owned_of_getElem? (List.getElem?_set_self hi) rfl rfl (hids ▸ h.ids) fun j hj b hb => ?_
      exact hfree j hj b ((List.getElem?_set_ne (Nat.ne_of_gt hj)).symm.trans hb)
  · intro b hb
    simp only [State.start, mem_append, mem_singleton]
    rcases mem_set_of_nodup h.ids ha hb with rfl | ⟨hb, hne⟩
    · exact ⟨fun _ => ⟨_, .inr rfl, rfl⟩, fun _ => .inl rfl⟩
    · rw [h.active b hb]
      constructor
      · rintro ⟨c, hc, heq⟩
        exact ⟨c, .inl hc, heq⟩
      · rintro ⟨c, hc | rfl, heq⟩
        · exact ⟨c, hc, heq⟩
        · exact absurd heq.symm hne
  · intro b hb hbh
    rcases mem_set_of_nodup h.ids ha hb with rfl | ⟨hb, -⟩
    · exact absurd hbh hhalted
    · exact h.halted b hb hbh

theorem Ready.removeApp (h : Ready s)
    (hfree : ∀ c ∈ s.children, c.owner = id → ∀ a ∈ s.apps, a.id ≠ id → a.pid ≠ some c.pid) :
    Ready (s.removeApp id) := by
  have hmem : ∀ {a : App}, a ∈ (s.removeApp id).apps ↔ a ∈ s.apps ∧ a.id ≠ id :=
    fun {a} => mem_eraseP_key h.ids
  constructor
  · exact h.ids.sublist (eraseP_sublist.map App.id)
  · exact fun a ha => h.bound a (hmem.mp ha).1
  · exact h.owners
  · exact h.pids
  · intro c hc
    by_cases hid : c.owner = id
    · refine owned_of_forall_ne (fun a ha => ?_) fun a ha => ?_
      · exact hfree c hc hid a (hmem.mp ha).1 (hmem.mp ha).2
      · rw [hid]
        exact (hmem.mp ha).2
    · exact (h.owned c hc).eraseP hid
  · exact fun a ha => h.active a (hmem.mp ha).1
  · exact fun a ha => h.halted a (hmem.mp ha).1

theorem Ready.setup (h : Ready s) (hroom : s.nextAppId + 1 < 2 ^ 32) (valid : Bool) :
    Ready (setup s valid) := by
  cases valid with
  | false => exact h
  | true =>
    simp only [Appmon.setup, if_true, Nat.mod_eq_of_lt hroom]
    have hnew : ∀ a ∈ s.apps, a.id ≠ s.nextAppId + 1 := fun a ha heq => by
      have hle := h.bound a ha
      omega
    have howner : ∀ c ∈ s.children, s.nextAppId + 1 ≠ c.owner := fun c hc heq => by
      have hle := h.owners c hc
      omega
    constructor
    · simp only [map_append, map_singleton]
      refine nodup_append.mpr ⟨h.ids, by simp, fun x hx y hy heq => ?_⟩
      obtain ⟨a, ha, rfl⟩ := mem_map.mp hx
      exact hnew a ha (heq.trans (mem_singleton.mp hy))
    · intro a ha
      rcases mem_append.mp ha with ha | ha
      · exact Nat.le_succ_of_le (h.bound a ha)
      · exact Nat.le_of_eq (congrArg App.id (mem_singleton.mp ha))
    · exact fun c hc => Nat.le_succ_of_le (h.owners c hc)
    · exact h.pids
    · exact fun c hc => (h.owned c hc).append nofun (howner c hc)
    · intro a ha
      rcases mem_append.mp ha with ha | ha
      · exact h.active a ha
      · rw [mem_singleton.mp ha]
        constructor
        · rintro (hactive | hactive) <;> cases hactive
        · rintro ⟨c, hc, heq⟩
          exact absurd heq.symm (howner c hc)
    · intro a ha hhalted
      rcases mem_append.mp ha with ha | ha
      · exact h.halted a ha hhalted
      · rw [mem_singleton.mp ha]
        exact .inr rfl

variable {pid : Nat} {x : Exit}

theorem mem_die (hc : c ∈ (die s pid x).children) :
    ∃ d ∈ s.children, d.pid = c.pid ∧ d.owner = c.owner := by
  obtain ⟨d, hd, rfl⟩ := mem_map.mp hc
  refine ⟨d, hd, ?_⟩
  split_ifs <;> exact ⟨rfl, rfl⟩

theorem mem_die_of_mem (hc : c ∈ s.children) (pid : Nat) (x : Exit) :
    ∃ d ∈ (die s pid x).children, d.pid = c.pid ∧ d.owner = c.owner := by
  refine ⟨_, mem_map_of_mem hc, ?_⟩
  split_ifs <;> exact ⟨rfl, rfl⟩

theorem Ready.die (h : Ready s) (pid : Nat) (x : Exit) : Ready (die s pid x) := by
  constructor
  · exact h.ids
  · exact h.bound
  · intro c hc
    obtain ⟨d, hd, -, howner⟩ := mem_die hc
    exact howner ▸ h.owners d hd
  · have hmap : (Appmon.die s pid x).children.map Child.pid = s.children.map Child.pid := by
      simp only [Appmon.die, map_map]
      refine map_congr_left fun c _ => ?_
      simp only [Function.comp_apply]
      split_ifs <;> rfl
    exact hmap ▸ h.pids
  · intro c hc
    obtain ⟨d, hd, hpid, howner⟩ := mem_die hc
    have howned := h.owned d hd
    rwa [Owned, hpid, howner] at howned
  · intro a ha
    rw [h.active a ha]
    constructor
    · rintro ⟨c, hc, heq⟩
      obtain ⟨d, hd, -, howner⟩ := mem_die_of_mem hc pid x
      exact ⟨d, hd, howner.trans heq⟩
    · rintro ⟨c, hc, heq⟩
      obtain ⟨d, hd, -, howner⟩ := mem_die hc
      exact ⟨d, hd, howner.trans heq⟩
  · exact h.halted

/-! ## A child that has ended -/

theorem find_child (hpids : (s.children.map Child.pid).Nodup)
    (hc : c ∈ s.children) : s.children.find? (fun d => d.pid = c.pid) = some c := by
  cases hfind : s.children.find? fun d => d.pid = c.pid with
  | none => simpa using List.find?_eq_none.mp hfind c hc
  | some d =>
    have hpid : d.pid = c.pid := by simpa using List.find?_some hfind
    rw [inj_on_of_nodup_map hpids (mem_of_find?_eq_some hfind) hc hpid]

/-- The states that `collect` leads to: without the child, and with its application as its end
says. -/
theorem collect_eq (h : Ready s) (hc : c ∈ s.children)
    (hx : c.exit = some x) :
    ((∀ a ∈ s.apps, a.id ≠ c.owner) ∧
      collect s c.pid = { s with children := s.children.filter fun d => d.pid ≠ c.pid }) ∨
    ∃ i a, s.apps[i]? = some a ∧ a.id = c.owner ∧ a.Active ∧
      ((a.status = .started → x.isError = false) ∧
        collect s c.pid = { s.setStatus i a .killed with
          children := s.children.filter fun d => d.pid ≠ c.pid } ∨
      a.status = .started ∧ x.isError = true ∧
        collect s c.pid = { s.setStatus i a .toBeRestarted with
          children := s.children.filter fun d => d.pid ≠ c.pid
          scheduled := true }) := by
  obtain ⟨pid, owner, exit⟩ := c
  obtain rfl : exit = some x := hx
  have howned : findByPid s.apps pid = findById s.apps owner := h.owned _ hc
  simp only [collect, find_child h.pids hc, State.ended, howned]
  cases hfind : findById s.apps owner with
  | none =>
    refine .inl ⟨fun a ha heq => ?_, rfl⟩
    have hnone := List.findIdx?_eq_none_iff.mp hfind a ha
    simp [heq] at hnone
  | some i =>
    obtain ⟨hi, hid, -⟩ := List.findIdx?_eq_some_iff_getElem.mp hfind
    have ha : s.apps[i]? = some s.apps[i] := List.getElem?_eq_getElem hi
    have hid : s.apps[i].id = owner := by simpa using hid
    have hactive := (h.active _ (getElem_mem hi)).mpr ⟨_, hc, hid.symm⟩
    refine .inr ⟨i, s.apps[i], ha, hid, hactive, ?_⟩
    simp only [ha]
    split_ifs with hkilled herror
    · refine .inl ⟨fun hstarted => ?_, rfl⟩
      rcases hkilled with hkilled | ⟨-, rfl⟩
      · rw [hstarted] at hkilled
        cases hkilled
      · rfl
    · refine .inr ⟨hactive.resolve_right fun h => hkilled (.inl h), herror, rfl⟩
    · have hstarted := hactive.resolve_right fun h => hkilled (.inl h)
      cases x with
      | exited code =>
        have hcode : code = 0 := by simpa [Exit.isError] using herror
        exact absurd (.inr ⟨hstarted, by rw [hcode]⟩) hkilled
      | signaled signal => exact absurd rfl herror

theorem mem_filter_pid :
    (c ∈ s.children.filter fun d => d.pid ≠ pid) ↔ c ∈ s.children ∧ c.pid ≠ pid := by
  simp [mem_filter]

theorem Ready.child_unique (h : Ready s) (ha : a ∈ s.apps) {c d : Child}
    (hc : c ∈ s.children) (hd : d ∈ s.children) (hca : c.owner = a.id) (hda : d.owner = a.id) :
    c.pid = d.pid :=
  Option.some.inj (((h.owned c hc).pid_eq h.ids ha hca.symm).symm.trans
    ((h.owned d hd).pid_eq h.ids ha hda.symm))

theorem Ready.filter (h : Ready s) (hc : c ∈ s.children)
    (hnone : ∀ a ∈ s.apps, a.id ≠ c.owner) :
    Ready { s with children := s.children.filter fun d => d.pid ≠ c.pid } := by
  constructor
  · exact h.ids
  · exact h.bound
  · exact fun d hd => h.owners d (mem_filter_pid.mp hd).1
  · exact h.pids.sublist (filter_sublist.map Child.pid)
  · exact fun d hd => h.owned d (mem_filter_pid.mp hd).1
  · intro a ha
    rw [h.active a ha]
    constructor
    · rintro ⟨d, hd, heq⟩
      refine ⟨d, mem_filter_pid.mpr ⟨hd, fun hpid => hnone a ha ?_⟩, heq⟩
      obtain rfl := inj_on_of_nodup_map h.pids hd hc hpid
      exact heq.symm
    · rintro ⟨d, hd, heq⟩
      exact ⟨d, (mem_filter_pid.mp hd).1, heq⟩
  · exact h.halted

theorem Ready.ended (h : Ready s) (hc : c ∈ s.children)
    (ha : s.apps[i]? = some a) (hid : a.id = c.owner) {status : AppStatus}
    (hstatus : status = .killed ∨ status = .toBeRestarted)
    (hhalted : a.id ∈ s.halted → status = .killed) :
    Ready { s.setStatus i a status with
      children := s.children.filter fun d => d.pid ≠ c.pid } := by
  have hmem := mem_of_getElem? ha
  have hids : (s.setStatus i a status).apps.map App.id = s.apps.map App.id := map_key_set ha rfl
  constructor
  · exact hids ▸ h.ids
  · intro b hb
    rcases mem_set_of_nodup h.ids ha hb with rfl | ⟨hb, -⟩
    · exact h.bound a hmem
    · exact h.bound b hb
  · exact fun d hd => h.owners d (mem_filter_pid.mp hd).1
  · exact h.pids.sublist (filter_sublist.map Child.pid)
  · intro d hd
    refine (h.owned d (mem_filter_pid.mp hd).1).follows
      (forall₂_set (fun _ => ⟨rfl, .inl rfl⟩) fun a' ha' => ?_)
    obtain rfl := Option.some.inj (ha.symm.trans ha')
    exact ⟨rfl, .inl rfl⟩
  · intro b hb
    rcases mem_set_of_nodup h.ids ha hb with rfl | ⟨hb, hne⟩
    · constructor
      · rintro (heq | heq) <;> rcases hstatus with rfl | rfl <;> cases heq
      · rintro ⟨d, hd, heq⟩
        obtain ⟨hd, hpid⟩ := mem_filter_pid.mp hd
        exact absurd (h.child_unique hmem hd hc heq hid.symm) hpid
    · rw [h.active b hb]
      constructor
      · rintro ⟨d, hd, heq⟩
        refine ⟨d, mem_filter_pid.mpr ⟨hd, fun hpid => hne ?_⟩, heq⟩
        obtain rfl := inj_on_of_nodup_map h.pids hd hc hpid
        exact heq.symm.trans hid.symm
      · rintro ⟨d, hd, heq⟩
        exact ⟨d, (mem_filter_pid.mp hd).1, heq⟩
  · intro b hb hbh
    rcases mem_set_of_nodup h.ids ha hb with rfl | ⟨hb, -⟩
    · exact .inr (hhalted hbh)
    · exact h.halted b hb hbh

theorem Ready.collect (h : Ready s) (hc : c ∈ s.children)
    (hx : c.exit = some x) : Ready (collect s c.pid) := by
  rcases collect_eq h hc hx with ⟨hnone, heq⟩ | ⟨i, a, ha, hid, -, hended⟩
  · rw [heq]
    exact h.filter hc hnone
  rcases hended with ⟨-, heq⟩ | ⟨hstarted, -, heq⟩
  · rw [heq]
    exact h.ended hc ha hid (.inl rfl) fun _ => rfl
  · rw [heq]
    have hready := h.ended hc ha hid (.inr rfl) fun hhalted => by
      rcases h.halted a (mem_of_getElem? ha) hhalted with hstatus | hstatus <;>
        cases hstarted.symm.trans hstatus
    exact ⟨hready.ids, hready.bound, hready.owners, hready.pids, hready.owned, hready.active,
      hready.halted⟩

/-! ## The alarm -/

structure Restarted (s s' : State) : Prop where
  ready : Ready s'
  done : ∀ a ∈ s'.apps, a.status ≠ .toBeRestarted
  kept : ∀ a ∈ s.apps, ∃ b ∈ s'.apps, b.id = a.id ∧
    (a.status = .toBeRestarted → b.Active ∧ Forks s s' a.id) ∧
    (a.status ≠ .toBeRestarted → b.status = a.status)
  children : ∀ c ∈ s.children, c ∈ s'.children
  forked : ∀ c ∈ s'.children, c ∈ s.children ∨ ∃ a ∈ s.apps, a.id = c.owner ∧
    a.status = .toBeRestarted
  halted : s'.halted = s.halted
  mode : s'.mode = s.mode

theorem Restarted.refl (h : Ready s) (hdone : ∀ a ∈ s.apps, a.status ≠ .toBeRestarted) :
    Restarted s s :=
  ⟨h, hdone, fun a ha => ⟨a, ha, rfl, fun hstatus => absurd hstatus (hdone a ha), fun _ => rfl⟩,
    fun _ hc => hc, fun _ hc => .inl hc, rfl, rfl⟩

theorem Restarted.step {s s' : State} {i pid : Nat} (hids : (s.apps.map App.id).Nodup)
    (ha : s.apps[i]? = some a) (hstatus : a.status = .toBeRestarted)
    (hfresh : ∀ c ∈ s.children, c.pid ≠ pid) (h : Restarted (s.start i a pid) s') :
    Restarted s s' := by
  have hmem := mem_of_getElem? ha
  have hi : i < s.apps.length := (List.getElem?_eq_some_iff.mp ha).1
  have hchildren : ∀ c ∈ s.children, c ∈ (s.start i a pid).children :=
    fun c hc => mem_append_left _ hc
  have hforks : ∀ {id}, Forks (s.start i a pid) s' id → Forks s s' id :=
    fun ⟨c, hc, howner, hnew⟩ => ⟨c, hc, howner, fun d hd => hnew d (hchildren d hd)⟩
  constructor
  · exact h.ready
  · exact h.done
  · intro x hx
    by_cases hxa : x = a
    · subst hxa
      have hb : { x with status := .started, pid := some pid } ∈ (s.start i x pid).apps :=
        mem_of_getElem? (List.getElem?_set_self hi)
      obtain ⟨b, hb, hid, -, hsame⟩ := h.kept _ hb
      refine ⟨b, hb, hid, fun _ => ⟨.inl (hsame nofun), ?_⟩, fun hne => absurd hstatus hne⟩
      refine ⟨⟨pid, x.id, none⟩, h.children _ (mem_append_right _ (mem_singleton.mpr rfl)),
        rfl, hfresh⟩
    · obtain ⟨b, hb, hid, hrestarted, hsame⟩ := h.kept x (mem_set_of_ne ha hx hxa)
      exact ⟨b, hb, hid, fun hx => ⟨(hrestarted hx).1, hforks (hrestarted hx).2⟩, hsame⟩
  · exact fun c hc => h.children c (hchildren c hc)
  · intro c hc
    rcases h.forked c hc with hc | ⟨b, hb, hid, hb'⟩
    · rcases mem_append.mp hc with hc | hc
      · exact .inl hc
      · rw [mem_singleton.mp hc]
        exact .inr ⟨a, hmem, rfl, hstatus⟩
    · rcases mem_set_of_nodup hids ha hb with rfl | ⟨hb, -⟩
      · cases hb'
      · exact .inr ⟨b, hb, hid, hb'⟩
  · exact h.halted
  · exact h.mode

def Restartable (s : State) (forks : Nat → Option Nat) : Prop :=
  ∀ i a, s.apps[i]? = some a → a.status = .toBeRestarted →
    ∃ pid, forks a.id = some pid ∧ (∀ c ∈ s.children, c.pid ≠ pid) ∧ PidFree s i pid ∧
      ∀ j b, s.apps[j]? = some b → b.status = .toBeRestarted → forks b.id = some pid → j = i

variable {forks : Nat → Option Nat}

theorem Restartable.start (h : Restartable s forks)
    {i pid : Nat} (ha : s.apps[i]? = some a) (hstatus : a.status = .toBeRestarted)
    (hpid : forks a.id = some pid) : Restartable (s.start i a pid) forks := by
  have hi : i < s.apps.length := (List.getElem?_eq_some_iff.mp ha).1
  -- an application that still waits is not the one that was started
  have hold : ∀ {j b}, (s.start i a pid).apps[j]? = some b → b.status = .toBeRestarted →
      j ≠ i ∧ s.apps[j]? = some b := by
    intro j b hb hb'
    by_cases hj : j = i
    · subst hj
      obtain rfl := Option.some.inj ((List.getElem?_set_self hi).symm.trans hb)
      cases hb'
    · exact ⟨hj, (List.getElem?_set_ne (Ne.symm hj)).symm.trans hb⟩
  intro k b hb hb'
  obtain ⟨hki, hb⟩ := hold hb hb'
  obtain ⟨p, hp, hfresh, hfree, honly⟩ := h k b hb hb'
  have hne : pid ≠ p := by
    rintro rfl
    exact hki (honly i a ha hstatus hpid).symm
  refine ⟨p, hp, fun c hc => ?_, fun j hj x hx hx' => ?_, fun j x hx hx' => ?_⟩
  · rcases mem_append.mp hc with hc | hc
    · exact hfresh c hc
    · rw [mem_singleton.mp hc]
      exact hne
  · by_cases hji : j = i
    · subst hji
      obtain rfl := Option.some.inj ((List.getElem?_set_self hi).symm.trans hx)
      exact fun heq => hne (Option.some.inj heq)
    · exact hfree j hj x ((List.getElem?_set_ne (Ne.symm hji)).symm.trans hx) hx'
  · exact honly j x (hold hx hx').2 hx'

theorem restartLoop_restarts {n i : Nat} (h : Ready s)
    (hlength : s.apps.length ≤ i + n)
    (hdone : ∀ j < i, ∀ b, s.apps[j]? = some b → b.status ≠ .toBeRestarted)
    (hforks : Restartable s forks) : Restarted s (restartLoop forks n i s) := by
  induction n generalizing i s with
  | zero =>
    refine .refl h fun b hb => ?_
    obtain ⟨j, hj⟩ := mem_iff_getElem?.mp hb
    have hlt : j < s.apps.length := (List.getElem?_eq_some_iff.mp hj).1
    exact hdone j (by omega) b hj
  | succ n ih =>
    have hnext : ∀ {t : State}, t.apps.length = s.apps.length → t.apps.length ≤ i + 1 + n :=
      fun heq => by omega
    cases ha : s.apps[i]? with
    | none =>
      simp only [restartLoop, ha]
      refine ih h (hnext rfl) (fun j hj b hb => ?_) hforks
      have hne : j ≠ i := by
        rintro rfl
        cases ha.symm.trans hb
      exact hdone j (by omega) b hb
    | some a =>
      simp only [restartLoop, ha]
      split_ifs with hstatus
      · obtain ⟨pid, hpid, hfresh, hfree, -⟩ := hforks i a ha hstatus
        simp only [hpid]
        have hidle : ¬ a.Active := by
          rintro (hactive | hactive) <;> cases hstatus.symm.trans hactive
        have hhalted : a.id ∉ s.halted := fun hmem => by
          rcases h.halted a (mem_of_getElem? ha) hmem with hstatus' | hstatus' <;>
            cases hstatus.symm.trans hstatus'
        have hready := h.start ha hidle hhalted hfresh
          fun j hj b hb => hfree j hj b hb (hdone j hj b hb)
        refine Restarted.step h.ids ha hstatus hfresh
          (ih hready (hnext (length_set ..)) (fun j hj b hb => ?_) (hforks.start ha hstatus hpid))
        by_cases hji : j = i
        · subst hji
          have hi : j < s.apps.length := (List.getElem?_eq_some_iff.mp ha).1
          obtain rfl := Option.some.inj ((List.getElem?_set_self hi).symm.trans hb)
          nofun
        · exact hdone j (by omega) b ((List.getElem?_set_ne (Ne.symm hji)).symm.trans hb)
      · refine ih h (hnext rfl) (fun j hj b hb => ?_) hforks
        by_cases hji : j = i
        · subst hji
          obtain rfl := Option.some.inj (ha.symm.trans hb)
          exact hstatus
        · exact hdone j (by omega) b hb

/-! ## Steps -/

theorem not_forks {s s' : State}
    (h : ∀ c ∈ s'.children, ∃ d ∈ s.children, d.pid = c.pid) : ¬ Forks s s' id := by
  rintro ⟨c, hc, -, hnew⟩
  obtain ⟨d, hd, hpid⟩ := h c hc
  exact hnew d hd hpid

variable {e : Event}

theorem right_of_apps {s s' : State} (hcollect : ∀ pid, e ≠ .collect pid)
    (hquiet : ∀ id ∈ s.halted, Forks s s' id → ∃ fork, e = .start id fork)
    (happs : ∀ a ∈ s.apps, (∃ b ∈ s'.apps, b.id = a.id ∧
      (a.status = .toBeRestarted → b.status = .toBeRestarted ∨ e = .stop a.id)) ∨
      Removes s e a.id) : Right s e s' := by
  refine ⟨fun a ha => ?_, fun c _ heq => absurd heq (hcollect _), hquiet,
    fun c _ x heq => absurd heq (hcollect _), fun a ha hstatus => ?_⟩
  · exact (happs a ha).imp_left fun ⟨b, hb, hid, _⟩ => ⟨b, hb, hid⟩
  · rcases happs a ha with ⟨b, hb, hid, hb'⟩ | hremoves
    · rcases hb' hstatus with hb' | rfl
      · exact .inl ⟨b, hb, hid, .inl hb'⟩
      · exact .inr (.inl rfl)
    · exact .inr (.inr hremoves)

theorem right_of_same {s s' : State} (hcollect : ∀ pid, e ≠ .collect pid)
    (happs : s'.apps = s.apps) (hchildren : ∀ c ∈ s'.children, ∃ d ∈ s.children, d.pid = c.pid) :
    Right s e s' :=
  right_of_apps hcollect (fun _ _ hforks => absurd hforks (not_forks hchildren))
    fun a ha => .inl ⟨a, happs ▸ ha, rfl, fun hstatus => .inl hstatus⟩

theorem kept_set {a b : App} (ha : apps[i]? = some a)
    (hid : b.id = a.id)
    (hstatus : a.status = .toBeRestarted → b.status = .toBeRestarted ∨ e = .stop a.id) :
    ∀ x ∈ apps, ∃ y ∈ apps.set i b, y.id = x.id ∧
      (x.status = .toBeRestarted → y.status = .toBeRestarted ∨ e = .stop x.id) := by
  intro x hx
  by_cases hxa : x = a
  · subst hxa
    have hi : i < apps.length := (List.getElem?_eq_some_iff.mp ha).1
    exact ⟨b, mem_of_getElem? (List.getElem?_set_self hi), hid, hstatus⟩
  · exact ⟨x, mem_set_of_ne ha hx hxa, rfl, fun h => .inl h⟩

structure Step (s : State) (e : Event) (s' : State) : Prop where
  ready : Ready s'
  armed : Armed s'
  right : Right s e s'

theorem withApp_induction {P : State → Prop} {k : Nat → App → State}
    (hsame : P s) (h : ∀ i a, findById s.apps id = some i → s.apps[i]? = some a → a.id = id →
      P (k i a)) : P (s.withApp id k) := by
  unfold State.withApp
  split_ifs with hzero
  · exact hsame
  · split
    · exact hsame
    · rename_i i hfind
      split
      · exact hsame
      rename_i a ha
      split_ifs with hprivileged
      · exact hsame
      · refine h i a hfind ha ?_
        obtain ⟨hi, hid, -⟩ := List.findIdx?_eq_some_iff_getElem.mp hfind
        rw [List.getElem?_eq_getElem hi, Option.some.injEq] at ha
        subst ha
        simpa using hid

theorem armed_set (h : Armed s) (hids : (s.apps.map App.id).Nodup)
    (ha : s.apps[i]? = some a) {b : App} (hb : b.status ≠ .toBeRestarted) :
    ∀ x ∈ s.apps.set i b, x.status = .toBeRestarted → s.scheduled = true ∨ s.pending = true := by
  intro x hx hstatus
  rcases mem_set_of_nodup hids ha hx with rfl | ⟨hx, -⟩
  · exact absurd hstatus hb
  · exact h x hx hstatus

theorem same_step (h : Ready s) (harmed : Armed s)
    (hcollect : ∀ pid, e ≠ .collect pid) : Step s e s :=
  ⟨h, harmed, right_of_same hcollect rfl fun c hc => ⟨c, hc, rfl⟩⟩

theorem setup_step (h : Ready s) (harmed : Armed s) {valid : Bool}
    (hsound : Sound s (.setup valid)) : Step s (.setup valid) (setup s valid) := by
  refine ⟨h.setup hsound valid, ?_, ?_⟩
  · cases valid with
    | false => exact harmed
    | true =>
      intro a ha hstatus
      rcases mem_append.mp ha with ha | ha
      · exact harmed a ha hstatus
      · rw [mem_singleton.mp ha] at hstatus
        cases hstatus
  · cases valid with
    | false => exact (same_step h harmed (by nofun)).right
    | true =>
      refine right_of_apps (by nofun) (fun _ _ hforks => ?_) fun a ha => ?_
      · exact absurd hforks (not_forks fun c hc => ⟨c, hc, rfl⟩)
      · exact .inl ⟨a, mem_append_left _ ha, rfl, fun hstatus => .inl hstatus⟩

theorem start_step (h : Ready s) (harmed : Armed s) {fork : Option Nat}
    (hfresh : Fresh s fork) (hsound : Sound s (.start id fork)) :
    Step s (.start id fork) (startApp s id fork) := by
  refine withApp_induction (same_step h harmed nofun) fun i a hfind ha hid => ?_
  cases hfork : fork with
  | none => exact same_step h harmed nofun
  | some pid =>
    dsimp only
    split_ifs with hkilled
    · have hidle : ¬ a.Active := by
        rintro (hactive | hactive) <;> cases hkilled.symm.trans hactive
      -- the application is not halted any more, and then it is started
      have hready : Ready { s with halted := s.halted.filter (· ≠ id) } :=
        ⟨h.ids, h.bound, h.owners, h.pids, h.owned, h.active, fun b hb hbh =>
          h.halted b hb (mem_filter.mp hbh).1⟩
      have hstart := hready.start ha hidle (by simp [hid]) (hfresh pid hfork)
        fun j hj b hb => hsound i pid hfind hfork j hj b hb
      refine ⟨hstart, armed_set harmed h.ids ha nofun, right_of_apps (by nofun) ?_ fun x hx => ?_⟩
      · rintro id' - ⟨c, hc, howner, hnew⟩
        rcases mem_append.mp hc with hc | hc
        · exact absurd rfl (hnew c hc)
        · rw [mem_singleton.mp hc] at howner
          exact ⟨fork, by rw [← howner, ← hid, hfork]⟩
      · exact .inl (kept_set (b := { a with status := .started, pid := some pid }) ha rfl
          (fun hstatus => by cases hkilled.symm.trans hstatus) x hx)
    · exact same_step h harmed nofun

theorem stop_step (h : Ready s) (harmed : Armed s) :
    Step s (.stop id) (stopApp s id) := by
  refine withApp_induction (same_step h harmed nofun) fun i a _ ha hid => ?_
  have hsub : ∀ x ∈ id :: s.halted, x ∈ s.halted ∨ x = a.id := by
    intro x hx
    rcases mem_cons.mp hx with rfl | hx
    · exact .inr hid.symm
    · exact .inl hx
  have hquiet : ∀ {s' : State}, s'.children = s.children → ∀ x ∈ s.halted, Forks s s' x →
      ∃ fork, Event.stop id = .start x fork := fun heq x _ hforks =>
    absurd hforks (not_forks fun c hc => ⟨c, heq ▸ hc, rfl⟩)
  have hstop : ∀ status : AppStatus, a.status = .toBeRestarted →
      status = .toBeRestarted ∨ Event.stop id = .stop a.id := fun _ _ => .inr (by rw [hid])
  simp only
  split_ifs with hactive
  · have hready : Ready { s.setStatus i a .toBeKilled with halted := id :: s.halted } :=
      h.setStatus ha (iff_of_true (.inr rfl) hactive) hsub fun _ => .inl rfl
    refine ⟨⟨hready.ids, hready.bound, hready.owners, hready.pids, hready.owned, hready.active,
      hready.halted⟩, armed_set harmed h.ids ha nofun, right_of_apps (by nofun) (hquiet rfl) ?_⟩
    exact fun x hx => .inl (kept_set (b := { a with status := .toBeKilled }) ha rfl (hstop _) x hx)
  · have hready : Ready { s.setStatus i a .killed with halted := id :: s.halted } :=
      h.setStatus ha (iff_of_false (by simp) hactive) hsub fun _ => .inr rfl
    refine ⟨hready, armed_set harmed h.ids ha nofun, right_of_apps (by nofun) (hquiet rfl) ?_⟩
    exact fun x hx => .inl (kept_set (b := { a with status := .killed }) ha rfl (hstop _) x hx)

theorem removeApp_step (h : Ready s) (harmed : Armed s)
    (hfree : ∀ c ∈ s.children, c.owner = id → ∀ a ∈ s.apps, a.id ≠ id → a.pid ≠ some c.pid)
    (hcollect : ∀ pid, e ≠ .collect pid) (hremoves : Removes s e id) : Step s e (s.removeApp id) := by
  have hmem : ∀ {a : App}, a ∈ (s.removeApp id).apps ↔ a ∈ s.apps ∧ a.id ≠ id :=
    fun {a} => mem_eraseP_key h.ids
  refine ⟨h.removeApp hfree, fun a ha => harmed a (hmem.mp ha).1,
    right_of_apps hcollect (fun x _ hforks => ?_) fun a ha => ?_⟩
  · exact absurd hforks (not_forks fun c hc => ⟨c, hc, rfl⟩)
  · by_cases hid : a.id = id
    · exact .inr (hid ▸ hremoves)
    · exact .inl ⟨a, hmem.mpr ⟨ha, hid⟩, rfl, .inl⟩

theorem remove_step (h : Ready s) (harmed : Armed s) :
    Step s (.remove id) (remove s id) := by
  refine withApp_induction (same_step h harmed nofun) fun i a _ ha hid => ?_
  have hmem := mem_of_getElem? ha
  dsimp only
  split_ifs with hactive
  · have hready : Ready { s.setStatus i a .toBeKilled with halted := s.halted } :=
      h.setStatus ha (iff_of_true (.inr rfl) hactive) (fun _ => .inl) fun _ => .inl rfl
    refine ⟨⟨hready.ids, hready.bound, hready.owners, hready.pids, hready.owned, hready.active,
      hready.halted⟩, armed_set harmed h.ids ha nofun,
      right_of_apps (by nofun) (fun x _ hforks => ?_) fun x hx => ?_⟩
    · exact absurd hforks (not_forks fun c hc => ⟨c, hc, rfl⟩)
    · refine .inl (kept_set (b := { a with status := .toBeKilled }) ha rfl (fun hstatus => ?_) x hx)
      rcases hactive with hactive | hactive <;> cases hstatus.symm.trans hactive
  · refine removeApp_step h harmed (fun c hc howner => ?_) nofun (.inl rfl)
    exact absurd ((h.active a hmem).mpr ⟨c, hc, howner.trans hid.symm⟩) hactive

theorem stopped_step (h : Ready s) (harmed : Armed s)
    (henabled : Enabled s .stopped) (hsound : Sound s .stopped) : Step s .stopped (stopped s) := by
  obtain ⟨id, removes, hmode⟩ := henabled
  have hidle : Ready { s with mode := .idle } :=
    ⟨h.ids, h.bound, h.owners, h.pids, h.owned, h.active, h.halted⟩
  simp only [stopped, hmode]
  cases removes with
  | false => exact ⟨hidle, harmed, right_of_same (by nofun) rfl fun c hc => ⟨c, hc, rfl⟩⟩
  | true =>
    have hstep := removeApp_step h harmed (hsound id hmode) (by nofun) (.inr ⟨rfl, hmode⟩)
    obtain ⟨hready, harmed', hright⟩ := hstep
    exact ⟨⟨hready.ids, hready.bound, hready.owners, hready.pids, hready.owned, hready.active,
      hready.halted⟩, harmed', ⟨hright.kept, hright.attributed, hright.quiet, hright.failed,
      hright.restarted⟩⟩

theorem die_step (h : Ready s) (harmed : Armed s) :
    Step s (.die pid x) (die s pid x) :=
  ⟨h.die pid x, harmed, right_of_same (by nofun) rfl fun _ hc =>
    have ⟨d, hd, hpid, _⟩ := mem_die hc
    ⟨d, hd, hpid⟩⟩

theorem expire_step (h : Ready s) :
    Step s .expire (step s .expire) :=
  ⟨⟨h.ids, h.bound, h.owners, h.pids, h.owned, h.active, h.halted⟩, fun _ _ _ => .inr rfl,
    right_of_same (by nofun) rfl fun c hc => ⟨c, hc, rfl⟩⟩

theorem collect_step (h : Ready s) (harmed : Armed s)
    (henabled : Enabled s (.collect pid)) : Step s (.collect pid) (collect s pid) := by
  obtain ⟨c, hc, rfl, hexit⟩ := henabled
  obtain ⟨x, hx⟩ := Option.ne_none_iff_exists'.mp hexit
  have hready := h.collect hc hx
  have hself : ∀ d ∈ s.children, Event.collect c.pid = .collect d.pid → d = c := fun d hd heq =>
    inj_on_of_nodup_map h.pids hd hc (Event.collect.inj heq).symm
  have hquiet : ∀ {s' : State}, (s'.children = s.children.filter fun d => d.pid ≠ c.pid) →
      ∀ id ∈ s.halted, Forks s s' id → ∃ fork, Event.collect c.pid = .start id fork :=
    fun heq id _ hforks => absurd hforks (not_forks fun d hd =>
      ⟨d, (mem_filter_pid.mp (heq ▸ hd)).1, rfl⟩)
  rcases collect_eq h hc hx with ⟨hnone, heq⟩ | ⟨i, a, ha, hid, hactive, hended⟩
  · rw [heq] at hready ⊢
    refine ⟨hready, harmed, ⟨fun b hb => .inl ⟨b, hb, rfl⟩, fun d hd _ => h.owned d hd, hquiet rfl,
      fun d hd y hd' hy herror b hb hbid => ?_, fun b hb hstatus => .inl ⟨b, hb, rfl, .inl hstatus⟩⟩⟩
    obtain rfl := hself d hd hd'
    exact absurd hbid (hnone b hb)
  · have hnot : a.status ≠ .toBeRestarted := by
      rcases hactive with hactive | hactive <;> rw [hactive] <;> nofun
    have hmem := mem_of_getElem? ha
    have hi : i < s.apps.length := (List.getElem?_eq_some_iff.mp ha).1
    have hkept : ∀ status : AppStatus, ∀ x ∈ s.apps, ∃ y ∈ s.apps.set i { a with status := status },
        y.id = x.id ∧ (x.status = .toBeRestarted → y.status = .toBeRestarted ∨
          Event.collect c.pid = .stop x.id) := fun status =>
      kept_set ha rfl fun hstatus => absurd hstatus hnot
    have hrestarted : ∀ {s' : State} (status : AppStatus),
        s'.apps = s.apps.set i { a with status := status } →
        ∀ b ∈ s.apps, b.status = .toBeRestarted → ∃ b' ∈ s'.apps, b'.id = b.id ∧
          (b'.status = .toBeRestarted ∨ b'.Active ∧ Forks s s' b.id) := by
      intro s' status happs b hb hstatus
      obtain ⟨b', hb', hid', hsame⟩ := hkept status b hb
      exact ⟨b', happs ▸ hb', hid', .inl ((hsame hstatus).resolve_right nofun)⟩
    rcases hended with ⟨hnoerror, heq⟩ | ⟨hstarted, herror, heq⟩
    · rw [heq] at hready ⊢
      refine ⟨hready, armed_set harmed h.ids ha nofun, ⟨fun b hb => ?_, fun d hd _ => h.owned d hd,
        hquiet rfl, fun d hd y hd' hy herror b hb hbid hbs => ?_,
        fun b hb hstatus => .inl (hrestarted .killed rfl b hb hstatus)⟩⟩
      · obtain ⟨b', hb', hid', -⟩ := hkept .killed b hb
        exact .inl ⟨b', hb', hid'⟩
      · obtain rfl := hself d hd hd'
        obtain rfl := Option.some.inj (hx.symm.trans hy)
        obtain rfl : b = a := inj_on_of_nodup_map h.ids hb hmem (hbid.trans hid.symm)
        rw [hnoerror hbs] at herror
        cases herror
    · rw [heq] at hready ⊢
      refine ⟨hready, fun _ _ _ => .inl rfl, ⟨fun b hb => ?_, fun d hd _ => h.owned d hd,
        hquiet rfl, fun d hd y hd' hy herror b hb hbid hbs => ?_,
        fun b hb hstatus => .inl (hrestarted .toBeRestarted rfl b hb hstatus)⟩⟩
      · obtain ⟨b', hb', hid', -⟩ := hkept .toBeRestarted b hb
        exact .inl ⟨b', hb', hid'⟩
      · obtain rfl := hself d hd hd'
        exact ⟨_, mem_of_getElem? (List.getElem?_set_self hi), hid.trans hbid.symm, rfl⟩

theorem restartable {s : State} (h : Ready s) {forks : Nat → Option Nat}
    (henabled : Enabled s (.alarm forks)) (hsound : Sound s (.alarm forks)) :
    Restartable s forks := by
  obtain ⟨-, -, hfresh, hdistinct⟩ := henabled
  intro i a ha hstatus
  have hmem := mem_of_getElem? ha
  obtain ⟨pid, hpid, hfree⟩ := hsound i a ha hstatus
  refine ⟨pid, hpid, hfresh a hmem hstatus pid hpid, hfree, fun j b hb hb' hforks => ?_⟩
  have hid : a.id = b.id := by
    refine (hdistinct a hmem hstatus b (mem_of_getElem? hb) hb' ?_).resolve_left ?_
    · rw [hpid, hforks]
    · rw [hpid]
      nofun
  have hlt : j < s.apps.length := (List.getElem?_eq_some_iff.mp hb).1
  have hget : (s.apps.map App.id)[j]? = (s.apps.map App.id)[i]? := by
    rw [List.getElem?_map, List.getElem?_map, hb, ha, Option.map_some, Option.map_some, hid]
  exact (List.getElem?_inj (by rwa [length_map]) h.ids).mp hget

theorem alarm_step (h : Ready s)
    (henabled : Enabled s (.alarm forks)) (hsound : Sound s (.alarm forks)) :
    Step s (.alarm forks) (sigalrmHandler s forks) := by
  have hready : Ready { s with pending := false } :=
    ⟨h.ids, h.bound, h.owners, h.pids, h.owned, h.active, h.halted⟩
  have hrestarted : Restarted { s with pending := false } (sigalrmHandler s forks) :=
    restartLoop_restarts hready (by simp) (fun j hj => absurd hj (Nat.not_lt_zero j))
      (restartable h henabled hsound)
  refine ⟨hrestarted.ready, fun a ha hstatus => absurd hstatus (hrestarted.done a ha),
    fun a ha => ?_, fun c _ heq => ?_, ?_, fun c _ _ heq => ?_, fun a ha hstatus => ?_⟩
  · obtain ⟨b, hb, hid, -⟩ := hrestarted.kept a ha
    exact .inl ⟨b, hb, hid⟩
  · cases heq
  · rintro id hhalted ⟨c, hc, howner, hnew⟩
    rcases hrestarted.forked c hc with hc | ⟨a, ha, hid, hstatus⟩
    · exact absurd rfl (hnew c hc)
    · rw [← howner, ← hid] at hhalted
      rcases h.halted a ha hhalted with hstatus' | hstatus' <;> cases hstatus.symm.trans hstatus'
  · cases heq
  · obtain ⟨b, hb, hid, hb', -⟩ := hrestarted.kept a ha
    exact .inl ⟨b, hb, hid, .inr (hb' hstatus)⟩

/-! ## Runs -/

def Booting (s : State) : Prop :=
  s = State.init true ∨ ∃ pid x,
    s = { State.init true with mode := .forked pid, children := [⟨pid, 1, x⟩] }

def Settled (s : State) : Prop := s.mode ≠ .boot ∧ ∀ pid, s.mode ≠ .forked pid

def Inv (s : State) : Prop := Booting s ∨ Settled s ∧ Ready s ∧ Armed s

theorem inv_init (privileged : Bool) : Inv (State.init privileged) := by
  cases privileged with
  | true => exact .inl (.inl rfl)
  | false =>
    refine .inr ⟨⟨nofun, nofun⟩, ⟨nodup_nil, nofun, nofun, nodup_nil, nofun, nofun, nofun⟩,
      nofun⟩

theorem settled_step (hs : Settled s) (h : Ready s) (henabled : Enabled s e)
    (hsound : Sound s e) : Settled (step s e) := by
  cases e with
  | launch fork => exact absurd henabled.1 hs.1
  | launched =>
    obtain ⟨pid, hmode⟩ := henabled
    exact absurd hmode (hs.2 pid)
  | setup valid => cases valid <;> exact hs
  | start id fork =>
    refine withApp_induction hs fun i a _ _ _ => ?_
    split
    · split_ifs <;> exact hs
    · exact hs
  | stop id =>
    refine withApp_induction hs fun i a _ _ _ => ?_
    simp only
    split_ifs
    · exact ⟨nofun, nofun⟩
    · exact hs
  | remove id =>
    refine withApp_induction hs fun i a _ _ _ => ?_
    split_ifs
    · exact ⟨nofun, nofun⟩
    · exact hs
  | stopped =>
    obtain ⟨id, removes, hmode⟩ := henabled
    simp only [step, stopped, hmode]
    cases removes <;> exact ⟨nofun, nofun⟩
  | status id | list | die pid x | expire => exact hs
  | collect pid =>
    obtain ⟨c, hc, rfl, hexit⟩ := henabled
    obtain ⟨x, hx⟩ := Option.ne_none_iff_exists'.mp hexit
    rcases collect_eq h hc hx with ⟨-, heq⟩ | ⟨i, a, -, -, -, ⟨-, heq⟩ | ⟨-, -, heq⟩⟩
    all_goals
      simp only [step, heq]
      exact hs
  | alarm forks =>
    have hready : Ready { s with pending := false } :=
      ⟨h.ids, h.bound, h.owners, h.pids, h.owned, h.active, h.halted⟩
    have hrestarted : Restarted { s with pending := false } (sigalrmHandler s forks) :=
      restartLoop_restarts hready (by simp) (fun j hj => absurd hj (Nat.not_lt_zero j))
        (restartable h henabled hsound)
    simpa [Settled, step, hrestarted.mode] using hs

theorem ready_privileged (hid : a.id = 1) {children : List Child}
    (h : children = [] ∧ ¬ a.Active ∨ ∃ pid x, children = [⟨pid, 1, x⟩] ∧ a.Active ∧ a.pid = some pid)
    {scheduled pending : Bool} {mode : Mode} :
    Ready ⟨[a], 1, children, scheduled, pending, mode, []⟩ := by
  rcases h with ⟨rfl, hidle⟩ | ⟨pid, x, rfl, hactive, hpid⟩
  · constructor
    · simp
    · simp [hid]
    · exact nofun
    · simp
    · exact nofun
    · simpa using hidle
    · exact nofun
  · constructor
    · simp
    · simp [hid]
    · simp
    · simp
    · simpa [owned_cons, owned_nil, hid] using hpid
    · simpa [hid] using hactive
    · exact nofun

theorem right_booting {s s' : State} (hcollect : ∀ pid, e ≠ .collect pid)
    (hhalted : s.halted = []) (happs : ∀ a ∈ s.apps, a.status = .killed)
    (hkept : ∀ a ∈ s.apps, ∃ b ∈ s'.apps, b.id = a.id) : Right s e s' := by
  refine right_of_apps hcollect (fun id hid => ?_) fun a ha => ?_
  · rw [hhalted] at hid
    cases hid
  · obtain ⟨b, hb, hid⟩ := hkept a ha
    exact .inl ⟨b, hb, hid, fun hstatus => by cases (happs a ha).symm.trans hstatus⟩

theorem booting_step (h : Booting s) (henabled : Enabled s e)
    (hsound : Sound s e) : Inv (step s e) ∧ Right s e (step s e) := by
  rcases h with rfl | ⟨pid, x, rfl⟩
  · cases e with
    | launch fork =>
      refine ⟨?_, right_booting nofun rfl (by simp [State.init]) ?_⟩
      · cases fork with
        | none =>
          exact .inr ⟨⟨nofun, nofun⟩, ready_privileged rfl (.inl ⟨rfl, by simp [App.Active]⟩),
            by simp [Armed, step, launch, State.init]⟩
        | some pid => exact .inl (.inr ⟨pid, none, rfl⟩)
      · cases fork <;> simp [State.init, step, launch]
    | die pid x =>
      obtain ⟨c, hc, -⟩ := henabled
      cases hc
    | collect pid =>
      obtain ⟨c, hc, -⟩ := henabled
      cases hc
    | launched | stopped =>
      simp [Enabled, State.init] at henabled
    | _ => simp [Enabled, State.init] at henabled
  · cases e with
    | launched =>
      refine ⟨.inr ⟨⟨nofun, nofun⟩, ?_, by simp [Armed, step, launched, State.init]⟩,
        right_booting nofun rfl (by simp [State.init]) (by simp [State.init, step, launched])⟩
      exact ready_privileged rfl (.inr ⟨pid, x, rfl, .inl rfl, rfl⟩)
    | die p y =>
      obtain ⟨c, hc, rfl, -⟩ := henabled
      obtain rfl := mem_singleton.mp hc
      refine ⟨.inl (.inr ⟨pid, some y, ?_⟩),
        right_booting nofun rfl (by simp [State.init]) fun a ha => ⟨a, ha, rfl⟩⟩
      simp [step, die, State.init]
    | collect p =>
      obtain ⟨c, hc, rfl, -⟩ := henabled
      obtain rfl := mem_singleton.mp hc
      exact absurd rfl hsound
    | _ => simp [Enabled, State.init] at henabled

theorem inv_step (h : Inv s) (henabled : Enabled s e) (hsound : Sound s e) :
    Inv (step s e) ∧ Right s e (step s e) := by
  rcases h with h | ⟨hs, h, harmed⟩
  · exact booting_step h henabled hsound
  have hstep : Step s e (step s e) := by
    cases e with
    | launch fork => exact absurd henabled.1 hs.1
    | launched =>
      obtain ⟨pid, hmode⟩ := henabled
      exact absurd hmode (hs.2 pid)
    | setup valid => exact setup_step h harmed hsound
    | start id fork => exact start_step h harmed henabled.2 hsound
    | stop id => exact stop_step h harmed
    | remove id => exact remove_step h harmed
    | stopped => exact stopped_step h harmed henabled hsound
    | status id => exact same_step h harmed nofun
    | list => exact same_step h harmed nofun
    | die pid x => exact die_step h harmed
    | collect pid => exact collect_step h harmed henabled
    | expire => exact expire_step h
    | alarm forks => exact alarm_step h henabled hsound
  exact ⟨.inr ⟨settled_step hs h henabled hsound, hstep.ready, hstep.armed⟩, hstep.right⟩

theorem Inv.supervised (h : Inv s) : Supervised s := by
  rcases h with h | ⟨-, h, harmed⟩
  · rcases h with rfl | ⟨pid, x, rfl⟩ <;>
      exact ⟨by simp [State.init], by simp [State.init, App.Active], by simp [State.init],
        by simp [State.init]⟩
  · refine ⟨h.ids, fun a ha => (h.active a ha).trans ?_, harmed, h.halted⟩
    constructor
    · rintro ⟨c, hc, heq⟩
      exact ⟨c, hc, heq, (h.owned c hc).pid_eq h.ids ha heq.symm⟩
    · rintro ⟨c, hc, heq, -⟩
      exact ⟨c, hc, heq⟩

/-- After a run in which every step is possible and sound, the applications are supervised, and every
such step that follows is right. -/
theorem supervised_run {privileged : Bool} {s : State}
    (h : Runs step (fun s e => Enabled s e ∧ Sound s e) (State.init privileged) s) :
    Supervised s ∧ ∀ e, Enabled s e → Sound s e → Right s e (step s e) := by
  have hinv := h.invariant (I := Inv) (fun _ _ he hs => (inv_step hs he.1 he.2).1)
    (inv_init privileged)
  exact ⟨hinv.supervised, fun _ henabled hsound => (inv_step hinv henabled hsound).2⟩

theorem supervised_run_failed :
    let s := [.setup true, .start 1 (some 100), .die 100 (.exited 1), .collect 100].foldl step
      (State.init false)
    Supervised s ∧ s.apps.map App.status = [.toBeRestarted] ∧ s.scheduled = true := by
  have hrun : Runs step (fun s e => Enabled s e ∧ Sound s e) (State.init false)
      ([.setup true, .start 1 (some 100), .die 100 (.exited 1), .collect 100].foldl step
        (State.init false)) := by
    apply Along.runs
    refine ⟨⟨by decide, ?_⟩, ⟨by decide, fun i pid hi _ j hj => ?_⟩, ⟨by decide, trivial⟩,
      ⟨by decide, nofun⟩, trivial⟩
    · change 1 < 2 ^ 32
      decide
    · obtain rfl := Option.some.inj hi
      exact absurd hj (Nat.not_lt_zero j)
  exact ⟨(supervised_run hrun).1, by decide, by decide⟩

/-- The first application cannot be restarted: it leaves the list without a command, and the second one
is passed over, and waits without an alarm. -/
theorem restart_removes :
    let events := [.setup true, .setup true, .start 1 (some 100), .start 2 (some 101),
      .die 100 (.exited 1), .die 101 (.exited 1), .collect 100, .collect 101, .expire]
    let s := events.foldl step (State.init false)
    let forks := fun id => if id = 2 then some 102 else none
    Along step Enabled (State.init false) events ∧ Enabled s (.alarm forks) ∧
      s.apps.map App.id = [1, 2] ∧
      (step s (.alarm forks)).apps = [⟨2, some 101, .toBeRestarted, false⟩] ∧
      (step s (.alarm forks)).scheduled = false ∧ (step s (.alarm forks)).pending = false := by
  decide

end Mihini.Appmon
