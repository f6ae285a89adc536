import Mihini.Appcon.Container
import Mihini.Lib.Keyed
import Mihini.Lib.Run

/-!
# The agreement of the stores

The list in memory, its persisted copy and the daemon agree after every operation of a run, as long as
no operation changes one of them and gives up before the next one.
-/

namespace Mihini.Appcon

open Mihini.Lib AList State

/-! ## What the stores should be -/

structure Agree (s : State) : Prop where
  persisted : ∀ id, s.flash.lookup id = s.memory.lookup id
  numbers : (s.daemon.map Prod.fst).Nodup
  held : ∀ n id, (n, id) ∈ s.daemon ↔
    ∃ a, s.memory.lookup id = some a ∧ a.daemonId = some (.number n)
  stored : ∀ id a x, s.memory.lookup id = some a → a.daemonId = some x → ∃ n, x = .number n

structure Kept (s s' : State) (id : Str) : Prop where
  memory : s'.memory.lookup id = s.memory.lookup id
  flash : s'.flash.lookup id = s.flash.lookup id
  daemon : ∀ n, (n, id) ∈ s'.daemon ↔ (n, id) ∈ s.daemon

/-! ## When they are -/

def Prepared (known purge : Bool) (env : InstallEnv) : Prop := prepare known purge env = .ok ()

/-- The application is listed as `install` lists it before it is set up. -/
def State.Listed (s : State) (id : Str) (autostart : Bool) : Prop :=
  s.memory.lookup id = some ⟨autostart, none⟩

/-- The number that an application has in the list, if it has one, is the one it has in the daemon. -/
def State.Attached (s : State) (id : Str) : Prop :=
  ∀ a x, s.memory.lookup id = some a → a.daemonId = some x → ∃ n, x = .number n ∧ (n, id) ∈ s.daemon

structure State.Again (s : State) (id : Str) (n : Nat) : Prop where
  listed : ∃ a, s.memory.lookup id = some a ∧ a.daemonId = some (.number n)
  unheld : ∀ m, (m, id) ∉ s.daemon

def State.Leaves (s : State) (id : Str) (fate : Fate) : Prop :=
  ∀ a n, s.memory.lookup id = some a → a.daemonId = some (.number n) →
    if fate.carriedOut then ∀ k, (n, k) ∈ s.daemon → k = id else (n, id) ∉ s.daemon

/-- The condition on `initapps` for an application. -/
def SoundInit (s : State) (id : Str) (env : InitEnv) : Prop :=
  if env.path = false then s.Leaves id env.uninstall.remove ∧ env.uninstall.saved = true
  else if env.runnable = false then s.Attached id
  else
    match found s id env.list with
    | .error _ => s.Attached id
    | .ok (some _) => True
    | .ok none =>
      match env.setup with
      | .answered | .silent _ => s.Again id env.number
      | .refused _ | .lost _ => s.Attached id

def SoundInstall (s : State) (id : Str) (autostart purge : Bool) (env : InstallEnv) : Prop :=
  (∀ a, s.memory.lookup id = some a → a.daemonId ≠ none →
    env.remove.carriedOut = true ∧ Prepared true purge env) ∧
  (Prepared (s.memory.lookup id).isSome purge env →
    if env.runnable then
      env.setup = .answered ∧ env.saved = true ∨
        (∃ err, env.setup = .lost err) ∧ s.Listed id autostart
    else env.saved = true ∨ s.Listed id autostart)

def Sound (s : State) : Event → Prop
  | .install id autostart purge env =>
    env.data = true → validId id = true → SoundInstall s id autostart purge env
  | .uninstall id env =>
    ∀ a, s.memory.lookup id = some a →
      (a.daemonId ≠ none → env.remove.carriedOut = true) ∧ env.saved = true
  | .configure id autostart runnable saved =>
    ∀ a, s.memory.lookup id = some a → runnable = true → saved = true ∨ a.autostart = autostart
  | .command _ _ _ => True
  | .init loaded saved alive _ =>
    loaded = true ∨ (saved = true ∨ s.flash = ∅) ∧ (alive = true → s.daemon = [])
  | .initapps env => ∀ id todo, s.todo = id :: todo → SoundInit s id env

/-! ## The invariant -/

structure Coherent (s : State) : Prop where
  persisted : ∀ id, s.flash.lookup id = s.memory.lookup id
  numbers : (s.daemon.map Prod.fst).Nodup
  held : ∀ n id, (n, id) ∈ s.daemon →
    ∃ a, s.memory.lookup id = some a ∧ a.daemonId = some (.number n)
  stored : ∀ id a x, s.memory.lookup id = some a → a.daemonId = some x → ∃ n, x = .number n
  attached : ∀ id, id ∉ s.todo → s.Attached id

variable {s : State}

theorem Coherent.agree (h : Coherent s) (htodo : s.todo = []) : Agree s := by
  refine ⟨h.persisted, h.numbers, fun n id => ⟨h.held n id, ?_⟩, h.stored⟩
  rintro ⟨a, ha, hnumber⟩
  have hid : id ∉ s.todo := by
    rw [htodo]
    exact List.not_mem_nil
  obtain ⟨m, hm, hmem⟩ := h.attached id hid a _ ha hnumber
  obtain rfl := Answer.number.inj hm
  exact hmem

variable {n : Nat}

theorem eq_of_mem_daemon (h : (s.daemon.map Prod.fst).Nodup) {id k : Str}
    (hid : (n, id) ∈ s.daemon) (hk : (n, k) ∈ s.daemon) : k = id :=
  congrArg Prod.snd (List.inj_on_of_nodup_map h hk hid rfl)

theorem Coherent.change {s s' : State} (h : Coherent s) (id : Str)
    (hmemory : ∀ k ≠ id, s'.memory.lookup k = s.memory.lookup k)
    (hdaemon : ∀ n, ∀ k ≠ id, (n, k) ∈ s'.daemon ↔ (n, k) ∈ s.daemon)
    (htodo : ∀ k ≠ id, k ∉ s'.todo → k ∉ s.todo)
    (hpersisted : ∀ k, s'.flash.lookup k = s'.memory.lookup k)
    (hnumbers : (s'.daemon.map Prod.fst).Nodup)
    (hheld : ∀ n, (n, id) ∈ s'.daemon →
      ∃ a, s'.memory.lookup id = some a ∧ a.daemonId = some (.number n))
    (hattached : s'.Attached id) : Coherent s' := by
  constructor
  · exact hpersisted
  · exact hnumbers
  · intro n k hmem
    by_cases hk : k = id
    · subst hk
      exact hheld n hmem
    · rw [hmemory k hk]
      exact h.held n k ((hdaemon n k hk).mp hmem)
  · intro k a x ha hx
    by_cases hk : k = id
    · subst hk
      obtain ⟨n, hn, -⟩ := hattached a x ha hx
      exact ⟨n, hn⟩
    · rw [hmemory k hk] at ha
      exact h.stored k a x ha hx
  · intro k hmem a x ha hx
    by_cases hk : k = id
    · subst hk
      exact hattached a x ha hx
    · rw [hmemory k hk] at ha
      obtain ⟨n, hn, hn'⟩ := h.attached k (htodo k hk hmem) a x ha hx
      exact ⟨n, hn, (hdaemon n k hk).mpr hn'⟩

variable {id : Str} {todo : List Str}

theorem Coherent.visit (h : Coherent s)
    (htodo : s.todo = id :: todo) (hattached : s.Attached id) :
    Coherent { s with todo := todo } := by
  refine h.change id (fun _ _ => rfl) (fun _ _ _ => Iff.rfl) (fun k hk hmem => ?_) h.persisted h.numbers
    (fun n => h.held n id) hattached
  rw [htodo]
  exact fun h => (List.mem_cons.mp h).elim hk hmem

/-! ## The daemon -/

theorem remove_eq (s : State) (daemonId : Answer) (fate : Fate) :
    (remove s daemonId fate).1 = if fate.carriedOut then s.forget daemonId else s := by
  cases fate <;> rfl

theorem mem_forget (h : (s.daemon.map Prod.fst).Nodup) {n m : Nat} {k : Str} :
    (m, k) ∈ (s.forget (.number n)).daemon ↔ (m, k) ∈ s.daemon ∧ m ≠ n :=
  mem_eraseP_key h

theorem forget_numbers (h : (s.daemon.map Prod.fst).Nodup) (daemonId : Answer) :
    ((s.forget daemonId).daemon.map Prod.fst).Nodup := by
  cases daemonId with
  | number n => exact h.sublist (List.eraseP_sublist.map Prod.fst)
  | text text => exact h

theorem mem_append_number {l : List (Nat × Str)} {n m : Nat} {id k : Str} :
    (m, k) ∈ l ++ [(n, id)] ↔ (m, k) ∈ l ∨ m = n ∧ k = id := by
  rw [List.mem_append, List.mem_singleton, Prod.mk.injEq]

theorem nodup_append_number {l : List (Nat × Str)} (h : (l.map Prod.fst).Nodup)
    (hunused : ∀ x ∈ l, x.1 ≠ n) (id : Str) : ((l ++ [(n, id)]).map Prod.fst).Nodup := by
  rw [List.map_append, List.nodup_append]
  refine ⟨h, by simp, fun x hx y hy heq => ?_⟩
  obtain ⟨z, hz, rfl⟩ := List.mem_map.mp hx
  exact hunused z hz (heq.trans (List.mem_singleton.mp hy))

theorem forget_frame (s : State) (daemonId : Answer) :
    (s.forget daemonId).memory = s.memory ∧ (s.forget daemonId).flash = s.flash ∧
      (s.forget daemonId).todo = s.todo := by
  cases daemonId <;> exact ⟨rfl, rfl, rfl⟩

def State.without (s : State) (daemonId : Option Answer) (fate : Fate) : State :=
  match daemonId with
  | none => s
  | some x => (remove s x fate).1

structure Left (s s' : State) (id : Str) : Prop where
  memory : s'.memory = s.memory
  flash : s'.flash = s.flash
  todo : s'.todo = s.todo
  numbers : (s'.daemon.map Prod.fst).Nodup
  daemon : ∀ n k, (n, k) ∈ s'.daemon ↔ (n, k) ∈ s.daemon ∧ k ≠ id

variable {a : App}

theorem Coherent.number_eq (h : Coherent s) {n m : Nat}
    (ha : s.memory.lookup id = some a) (hn : a.daemonId = some (.number n))
    (hm : (m, id) ∈ s.daemon) : m = n := by
  obtain ⟨b, hb, hnumber⟩ := h.held m id hm
  obtain rfl := Option.some.inj (ha.symm.trans hb)
  exact Answer.number.inj (Option.some.inj (hnumber.symm.trans hn))

variable {fate : Fate}

theorem Coherent.left (h : Coherent s)
    (ha : s.memory.lookup id = some a) (hleaves : s.Leaves id fate) :
    Left s (s.without a.daemonId fate) id := by
  cases hid : a.daemonId with
  | none =>
    refine ⟨rfl, rfl, rfl, h.numbers, fun n k => ⟨fun hmem => ⟨hmem, ?_⟩, And.left⟩⟩
    rintro rfl
    obtain ⟨b, hb, hnumber⟩ := h.held n k hmem
    obtain rfl := Option.some.inj (ha.symm.trans hb)
    rw [hid] at hnumber
    cases hnumber
  | some x =>
    obtain ⟨n, rfl⟩ := h.stored id a x ha hid
    have hfate := hleaves a n ha hid
    rw [without, remove_eq]
    by_cases hout : fate.carriedOut = true
    · rw [if_pos hout] at hfate ⊢
      obtain ⟨hmemory, hflash, htodo⟩ := forget_frame s (.number n)
      refine ⟨hmemory, hflash, htodo, forget_numbers h.numbers _, fun m k => ?_⟩
      rw [mem_forget h.numbers]
      constructor
      · rintro ⟨hmem, hne⟩
        refine ⟨hmem, ?_⟩
        rintro rfl
        exact hne (h.number_eq ha hid hmem)
      · rintro ⟨hmem, hne⟩
        refine ⟨hmem, ?_⟩
        rintro rfl
        exact hne (hfate k hmem)
    · rw [if_neg hout] at hfate ⊢
      refine ⟨rfl, rfl, rfl, h.numbers, fun m k => ⟨fun hmem => ⟨hmem, ?_⟩, And.left⟩⟩
      rintro rfl
      rw [h.number_eq ha hid hmem] at hmem
      exact hfate hmem

theorem Coherent.leaves (h : Coherent s) (htodo : s.todo = [])
    (hout : ∀ a, s.memory.lookup id = some a → a.daemonId ≠ none → fate.carriedOut = true) :
    s.Leaves id fate := by
  intro a n ha hn
  rw [if_pos (hout a ha (by simp [hn]))]
  intro k hk
  exact eq_of_mem_daemon h.numbers (((h.agree htodo).held n id).mpr ⟨a, ha, hn⟩) hk

/-! ## The operations -/

theorem uninstall_eq {env : UninstallEnv}
    (ha : s.memory.lookup id = some a) :
    (uninstall s id env).1 =
      save { s.without a.daemonId env.remove with
        memory := (s.without a.daemonId env.remove).memory.erase id } env.saved := by
  rw [uninstall, ha]
  cases hid : a.daemonId <;> simp [without, hid]

theorem State.save_todo (s : State) (saved : Bool) : (s.save saved).todo = s.todo := by
  cases saved <;> rfl

theorem uninstall_todo (s : State) (id : Str) (env : UninstallEnv) :
    (uninstall s id env).1.todo = s.todo := by
  cases ha : s.memory.lookup id with
  | none => rw [uninstall, ha]
  | some a =>
    rw [uninstall_eq ha, save_todo]
    cases hid : a.daemonId with
    | none => rfl
    | some x =>
      rw [without, remove_eq]
      split_ifs
      · exact (forget_frame s x).2.2
      · rfl

theorem uninstall_coherent (h : Coherent s) {env : UninstallEnv}
    (htodo : ∀ k ≠ id, k ∉ todo → k ∉ s.todo)
    (hlisted : ∀ a, s.memory.lookup id = some a → s.Leaves id env.remove ∧ env.saved = true) :
    Coherent { (uninstall s id env).1 with todo := todo } := by
  cases ha : s.memory.lookup id with
  | none =>
    rw [uninstall, ha]
    refine h.change id (fun _ _ => rfl) (fun _ _ _ => Iff.rfl) htodo h.persisted h.numbers
      (fun n => h.held n id) (fun a x hlookup => ?_)
    cases ha.symm.trans hlookup
  | some a =>
    obtain ⟨hleaves, hsaved⟩ := hlisted a ha
    have hleft := h.left ha hleaves
    rw [uninstall_eq ha, hsaved, save, if_pos rfl, hleft.memory]
    refine h.change id (fun k hk => lookup_erase_ne hk) (fun n k hk => ?_) htodo (fun _ => rfl)
      hleft.numbers (fun n hmem => ?_) (fun b x hlookup => ?_)
    · exact (hleft.daemon n k).trans (and_iff_left hk)
    · exact absurd rfl ((hleft.daemon n id).mp hmem).2
    · rw [lookup_erase] at hlookup
      cases hlookup

theorem Coherent.write (h : Coherent s) {a b : App} (saved : Bool)
    (ha : s.memory.lookup id = some a) (hid : b.daemonId = a.daemonId) (hattached : s.Attached id)
    (hsaved : saved = true ∨ b = a) :
    Coherent (save { s with memory := s.memory.insert id b } saved) := by
  have hset : ∀ c x, (s.memory.insert id b).lookup id = some c → c.daemonId = some x →
      a.daemonId = some x := by
    intro c x hc hx
    rw [lookup_insert] at hc
    obtain rfl := Option.some.inj hc
    exact hid.symm.trans hx
  have hheld : ∀ n, (n, id) ∈ s.daemon →
      ∃ c, (s.memory.insert id b).lookup id = some c ∧ c.daemonId = some (.number n) := by
    intro n hmem
    obtain ⟨c, hc, hn⟩ := h.held n id hmem
    obtain rfl := Option.some.inj (ha.symm.trans hc)
    exact ⟨b, lookup_insert s.memory, hid.trans hn⟩
  by_cases hs : saved = true
  · rw [save, if_pos hs]
    exact h.change id (fun k hk => lookup_insert_ne hk) (fun _ _ _ => Iff.rfl) (fun _ _ hk => hk)
      (fun _ => rfl) h.numbers hheld fun c x hc hx => hattached a x ha (hset c x hc hx)
  obtain rfl := hsaved.resolve_left hs
  rw [save, if_neg hs]
  refine h.change id (fun k hk => lookup_insert_ne hk) (fun _ _ _ => Iff.rfl) (fun _ _ hk => hk)
    (fun k => ?_) h.numbers hheld fun c x hc hx => hattached _ x ha (hset c x hc hx)
  exact (h.persisted k).trans (LuaTable.lookup_insert_of_lookup ha k).symm

theorem configure_coherent (h : Coherent s) (htodo : s.todo = [])
    {autostart runnable saved : Bool} (hsound : Sound s (.configure id autostart runnable saved)) :
    Coherent (configure s id autostart runnable saved).1 := by
  unfold configure
  cases ha : s.memory.lookup id with
  | none => exact h
  | some a =>
    dsimp only
    split_ifs with hrunnable
    · exact h
    · have hid : id ∉ s.todo := htodo ▸ List.not_mem_nil
      have hsaved : saved = true ∨ { a with autostart := autostart } = a := by
        refine (hsound a ha (by simpa using hrunnable)).imp_right fun heq => ?_
        rw [← heq]
      exact h.write saved ha rfl (h.attached id hid) hsaved

/-! ## Installation -/

structure Cleaned (s s' : State) (id : Str) : Prop where
  memory : ∀ k ≠ id, s'.memory.lookup k = s.memory.lookup k
  flash : s'.flash = s.flash
  todo : s'.todo = s.todo
  numbers : (s'.daemon.map Prod.fst).Nodup
  daemon : ∀ n k, (n, k) ∈ s'.daemon ↔ (n, k) ∈ s.daemon ∧ k ≠ id

theorem Cleaned.insert {s s' : State} (h : Cleaned s s' id) (a : App) :
    Cleaned s { s' with memory := s'.memory.insert id a } id :=
  { h with memory := fun k hk => (lookup_insert_ne hk).trans (h.memory k hk) }

variable {env : InstallEnv}

theorem clean_eq_self
    (h : ∀ a, s.memory.lookup id = some a → a.daemonId = none) : clean s id env = s := by
  unfold clean
  split
  · rename_i autostart daemonId ha
    cases h _ ha
  · rfl

theorem clean_cleaned (h : Coherent s)
    (hleaves : s.Leaves id env.remove) : Cleaned s (clean s id env) id := by
  unfold clean
  split
  · rename_i autostart daemonId ha
    have hleft : Left s (remove s daemonId env.remove).1 id := h.left ha hleaves
    refine ⟨fun k hk => ?_, hleft.flash, hleft.todo, hleft.numbers, hleft.daemon⟩
    exact (lookup_insert_ne hk).trans (congrArg (lookup k) hleft.memory)
  · rename_i hother
    refine ⟨fun _ _ => rfl, rfl, rfl, h.numbers, fun n k => ⟨fun hmem => ⟨hmem, ?_⟩, And.left⟩⟩
    rintro rfl
    obtain ⟨⟨autostart, daemonId⟩, ha, hnumber⟩ := h.held n k hmem
    obtain rfl : daemonId = some (.number n) := hnumber
    exact hother _ _ ha

theorem Coherent.list {s s' : State} (h : Coherent s) {autostart : Bool} (saved : Bool)
    (hclean : Cleaned s s' id) (hsaved : saved = true ∨ s.Listed id autostart) :
    Coherent (save { s' with memory := s'.memory.insert id ⟨autostart, none⟩ } saved) := by
  have hmemory : ∀ k ≠ id, (s'.memory.insert id ⟨autostart, none⟩).lookup k = s.memory.lookup k :=
    fun k hk => (lookup_insert_ne hk).trans (hclean.memory k hk)
  have hdaemon : ∀ n, ∀ k ≠ id, (n, k) ∈ s'.daemon ↔ (n, k) ∈ s.daemon :=
    fun n k hk => (hclean.daemon n k).trans (and_iff_left hk)
  have hheld : ∀ n, (n, id) ∈ s'.daemon →
      ∃ a, (s'.memory.insert id ⟨autostart, none⟩).lookup id = some a ∧
        a.daemonId = some (.number n) :=
    fun n hmem => absurd rfl ((hclean.daemon n id).mp hmem).2
  have hnone : ∀ a x, (s'.memory.insert id ⟨autostart, none⟩).lookup id = some a →
      a.daemonId ≠ some x := by
    rintro a x ha
    rw [lookup_insert] at ha
    obtain rfl := Option.some.inj ha
    exact nofun
  by_cases hs : saved = true
  · rw [save, if_pos hs]
    exact h.change id hmemory hdaemon (fun k _ hk => hclean.todo ▸ hk) (fun _ => rfl) hclean.numbers hheld
      fun a x ha hx => absurd hx (hnone a x ha)
  rw [save, if_neg hs]
  refine h.change id hmemory hdaemon (fun k _ hk => hclean.todo ▸ hk) (fun k => ?_) hclean.numbers hheld
    fun a x ha hx => absurd hx (hnone a x ha)
  rw [hclean.flash]
  by_cases hk : k = id
  · subst hk
    exact (h.persisted k).trans
      ((hsaved.resolve_left hs).trans (lookup_insert s'.memory).symm)
  · exact (h.persisted k).trans (hmemory k hk).symm

theorem Coherent.setup {s s' : State} (h : Coherent s)
    (hclean : Cleaned s s' id) (hunused : s.Unused n) (hid : a.daemonId = some (.number n)) :
    Coherent { s' with
      memory := s'.memory.insert id a
      flash := s'.memory.insert id a
      daemon := s'.daemon ++ [(n, id)] } := by
  refine h.change id (fun k hk => ?_) (fun m k hk => ?_) (fun k _ hk => hclean.todo ▸ hk)
    (fun _ => rfl) (nodup_append_number hclean.numbers (fun x hx => ?_) id) (fun m hm => ?_)
    fun b x hb hx => ?_
  · exact (lookup_insert_ne hk).trans (hclean.memory k hk)
  · rw [mem_append_number, hclean.daemon]
    exact ⟨fun h => (h.resolve_right fun h => hk h.2).1, fun h => .inl ⟨h, hk⟩⟩
  · exact hunused x ((hclean.daemon x.1 x.2).mp hx).1
  · rcases mem_append_number.mp hm with hm | ⟨rfl, -⟩
    · exact absurd rfl ((hclean.daemon m id).mp hm).2
    · exact ⟨a, lookup_insert s'.memory, hid⟩
  · rw [lookup_insert] at hb
    obtain rfl := Option.some.inj hb
    obtain rfl := Option.some.inj (hid.symm.trans hx)
    exact ⟨n, rfl, mem_append_number.mpr (.inr ⟨rfl, rfl⟩)⟩

variable {autostart purge : Bool}

/-- An installation that is possible, of valid data under a valid name. -/
theorem register_coherent (h : Coherent s) (htodo : s.todo = [])
    (hunused : s.Unused env.number)
    (hsound : SoundInstall s id autostart purge env)
    (hprepared : Prepared (s.memory.lookup id).isSome purge env) :
    Coherent (register (clean s id env) id autostart env).1 := by
  have hclean : Cleaned s (clean s id env) id :=
    clean_cleaned h (h.leaves htodo fun a ha hid => (hsound.1 a ha hid).1)
  have hready := hsound.2 hprepared
  unfold register
  by_cases hrunnable : env.runnable = true
  · rw [if_pos hrunnable] at hready ⊢
    rcases hready with ⟨hsetup, hsaved⟩ | ⟨⟨err, hlost⟩, hlisted⟩
    · have hset := h.setup (a := ⟨autostart, some (.number env.number)⟩)
        (hclean.insert ⟨autostart, none⟩) hunused rfl
      rw [hsetup, hsaved]
      exact hset
    · have hlist := h.list false hclean (.inr hlisted)
      rw [hlost]
      exact hlist
  · rw [if_neg hrunnable] at hready ⊢
    exact h.list env.saved hclean hready

/-- An installation gives up early for an application that is not set up only. -/
theorem SoundInstall.idle
    (h : SoundInstall s id autostart purge env) {err : String}
    (hprepare : prepare (s.memory.lookup id).isSome purge env = .error err) :
    ∀ a, s.memory.lookup id = some a → a.daemonId = none := by
  intro a ha
  by_contra hnumber
  have hprepared := (h.1 a ha hnumber).2
  rw [ha] at hprepare
  cases hprepare.symm.trans hprepared

theorem install_coherent (h : Coherent s) (htodo : s.todo = [])
    (hunused : s.Unused env.number)
    (hsound : Sound s (.install id autostart purge env)) :
    Coherent (install s id autostart purge env).1 := by
  unfold install
  split_ifs with hdata hid
  · exact h
  · exact h
  · have hsound : SoundInstall s id autostart purge env :=
      hsound (by simpa using hdata) (by simpa using hid)
    dsimp only
    cases hprepare : prepare (s.memory.lookup id).isSome purge env with
    | error err =>
      rw [clean_eq_self (hsound.idle hprepare)]
      exact h
    | ok _ => exact register_coherent h htodo hunused hsound hprepare

/-! ## Restarts -/

theorem init_coherent (h : Coherent s) {loaded saved alive : Bool} {order : List Str}
    (henabled : Enabled s (.init loaded saved alive order))
    (hsound : Sound s (.init loaded saved alive order)) :
    Coherent (init s loaded saved alive order) := by
  have hmem : ∀ id a, s.flash.lookup id = some a → loaded = true → id ∈ order := by
    rintro id a ha rfl
    have hkeys : id ∈ s.flash.keys := mem_keys.mp (lookup_isSome.mp (by simp [ha]))
    exact (List.Perm.mem_iff henabled).mpr hkeys
  cases loaded with
  | true =>
    have hmemory : ∀ k, s.flash.lookup k = s.memory.lookup k := h.persisted
    refine ⟨fun k => ?_, ?_, fun n k hk => ?_, fun k a x ha => ?_, fun k hk a x ha hx => ?_⟩
    · cases saved <;> rfl
    · cases alive with
      | true => exact h.numbers
      | false => exact List.nodup_nil
    · cases alive with
      | true =>
        obtain ⟨a, ha, hn⟩ := h.held n k hk
        exact ⟨a, (hmemory k).trans ha, hn⟩
      | false => cases hk
    · exact h.stored k a x ((hmemory k).symm.trans ha)
    · exact absurd (hmem k a ha rfl) hk
  | false =>
    obtain ⟨hflash, hdaemon⟩ := hsound.resolve_left (by simp)
    have hempty : (init s false saved alive order).daemon = [] := by
      cases alive with
      | true => exact hdaemon rfl
      | false => rfl
    refine ⟨fun k => ?_, ?_, fun n k hk => ?_, nofun, nofun⟩
    · cases saved with
      | true => rfl
      | false =>
        obtain hflash := hflash.resolve_left (by simp)
        simp [init, hflash]
    · rw [hempty]
      exact List.nodup_nil
    · rw [hempty] at hk
      cases hk

theorem found_mem
    (h : found s id fate = .ok (some n)) : (n, id) ∈ s.daemon := by
  cases fate with
  | answered =>
    obtain ⟨⟨m, k⟩, hfind, hn⟩ := Option.map_eq_some_iff.mp (Except.ok.inj h)
    obtain rfl : m = n := hn
    rw [List.findRev?_eq_find?_reverse] at hfind
    obtain rfl : k = id := by simpa using List.find?_some hfind
    exact List.mem_reverse.mp (List.mem_of_find?_eq_some hfind)
  | silent err => cases h
  | refused text => cases h
  | lost err => cases h

theorem Coherent.again (h : Coherent s)
    {memory : LuaTable Str App} (htodo : s.todo = id :: todo) (hagain : s.Again id n)
    (hunused : s.Unused n) (hmemory : ∀ k, memory.lookup k = s.memory.lookup k) :
    Coherent ⟨memory, s.flash, s.daemon ++ [(n, id)], todo⟩ := by
  obtain ⟨⟨a, ha, hn⟩, hunheld⟩ := hagain
  refine h.change id (fun k _ => hmemory k) (fun m k hk => ?_) (fun k hk hmem => ?_)
    (fun k => (h.persisted k).trans (hmemory k).symm) (nodup_append_number h.numbers hunused id)
    (fun m hm => ?_) fun b x hb hx => ?_
  · exact mem_append_number.trans (or_iff_left fun h => hk h.2)
  · rw [htodo]
    exact fun h => (List.mem_cons.mp h).elim hk hmem
  · rcases mem_append_number.mp hm with hm | ⟨rfl, -⟩
    · exact absurd hm (hunheld m)
    · exact ⟨a, (hmemory id).trans ha, hn⟩
  · obtain rfl := Option.some.inj (ha.symm.trans ((hmemory id).symm.trans hb))
    obtain rfl := Option.some.inj (hn.symm.trans hx)
    exact ⟨n, rfl, mem_append_number.mpr (.inr ⟨rfl, rfl⟩)⟩

theorem initapp_coherent (h : Coherent s) {env : InitEnv}
    (htodo : s.todo = id :: todo) (ha : s.memory.lookup id = some a)
    (hunused : s.Unused env.number) (hpath : env.path ≠ false) (hrunnable : env.runnable ≠ false)
    (hsound : SoundInit s id env) : Coherent { (initapp s id a env).1 with todo := todo } := by
  rw [SoundInit, if_neg hpath, if_neg hrunnable] at hsound
  unfold initapp
  cases hfound : found s id env.list with
  | error err =>
    rw [hfound] at hsound
    exact h.visit htodo hsound
  | ok found =>
    rw [hfound] at hsound
    cases found with
    | some n =>
      have hmem := found_mem hfound
      obtain ⟨b, hb, hn⟩ := h.held n id hmem
      obtain rfl := Option.some.inj (ha.symm.trans hb)
      have hattached : s.Attached id := by
        intro b x hb hx
        obtain rfl := Option.some.inj (ha.symm.trans hb)
        obtain rfl := Option.some.inj (hn.symm.trans hx)
        exact ⟨n, rfl, hmem⟩
      have hwrite : Coherent
          { s with memory := s.memory.insert id { a with daemonId := some (.number n) } } :=
        h.write false ha hn.symm hattached (.inr (by rw [← hn]))
      refine hwrite.visit htodo fun b x hb hx => ?_
      rw [lookup_insert] at hb
      obtain rfl := Option.some.inj hb
      obtain rfl := Option.some.inj hx
      exact ⟨n, rfl, hmem⟩
    | none =>
      dsimp only at hsound ⊢
      cases hsetup : env.setup with
      | answered =>
        rw [hsetup] at hsound
        obtain ⟨b, hb, hn⟩ := hsound.listed
        obtain rfl := Option.some.inj (ha.symm.trans hb)
        refine h.again htodo hsound hunused (LuaTable.lookup_insert_of_lookup ?_)
        rw [ha, ← hn]
      | silent err =>
        rw [hsetup] at hsound
        exact h.again htodo hsound hunused fun _ => rfl
      | refused text =>
        rw [hsetup] at hsound
        exact h.visit htodo hsound
      | lost err =>
        rw [hsetup] at hsound
        exact h.visit htodo hsound

theorem initapps_coherent (h : Coherent s) {env : InitEnv}
    (henabled : Enabled s (.initapps env)) (hsound : Sound s (.initapps env)) :
    Coherent (initapps s env) := by
  obtain ⟨hne, hunused⟩ := henabled
  obtain ⟨id, todo, htodo⟩ := List.exists_cons_of_ne_nil hne
  have hsound : SoundInit s id env := hsound id todo htodo
  have hrest : ∀ k ≠ id, k ∉ todo → k ∉ s.todo := by
    intro k hk hmem
    rw [htodo]
    exact fun h => (List.mem_cons.mp h).elim hk hmem
  unfold initapps
  rw [htodo]
  dsimp only
  unfold initOne
  by_cases hpath : env.path = false
  · rw [SoundInit, if_pos hpath] at hsound
    rw [if_pos hpath]
    exact uninstall_coherent h hrest fun _ _ => hsound
  rw [if_neg hpath]
  cases ha : s.memory.lookup id with
  | none =>
    refine h.visit htodo fun a x hlookup => ?_
    cases ha.symm.trans hlookup
  | some a =>
    by_cases hrunnable : env.runnable = true
    · dsimp only
      rw [if_pos hrunnable]
      exact initapp_coherent h htodo ha hunused hpath (by simp [hrunnable]) hsound
    · dsimp only
      rw [if_neg hrunnable]
      rw [SoundInit, if_neg hpath, if_pos (by simpa using hrunnable)] at hsound
      exact h.visit htodo hsound

/-! ## Runs -/

theorem step_coherent (h : Coherent s) {e : Event} (henabled : Enabled s e)
    (hsound : Sound s e) : Coherent (step s e) := by
  cases e with
  | install id autostart purge env => exact install_coherent h henabled.1 henabled.2 hsound
  | uninstall id env =>
    refine uninstall_coherent h (fun k _ hk => ?_) fun a ha =>
      ⟨h.leaves henabled fun b hb => (hsound b hb).1, (hsound a ha).2⟩
    exact uninstall_todo s id env ▸ hk
  | configure id autostart runnable saved => exact configure_coherent h henabled hsound
  | command id runnable reply => exact h
  | init loaded saved alive order => exact init_coherent h henabled hsound
  | initapps env => exact initapps_coherent h henabled hsound

theorem init_state_coherent : Coherent .init :=
  ⟨fun _ => rfl, List.nodup_nil, nofun, nofun, nofun⟩

/-- An installation that fails leaves every application as it was. -/
theorem install_kept
    (hsound : Sound s (.install id autostart purge env)) {err : String}
    (herror : (install s id autostart purge env).2 = .error err) (k : Str) :
    Kept s (install s id autostart purge env).1 k := by
  have hself : Kept s s k := ⟨rfl, rfl, fun _ => Iff.rfl⟩
  unfold install at herror ⊢
  split_ifs at herror ⊢ with hdata hid
  · exact hself
  · exact hself
  · have hsound : SoundInstall s id autostart purge env :=
      hsound (by simpa using hdata) (by simpa using hid)
    dsimp only at herror ⊢
    cases hprepare : prepare (s.memory.lookup id).isSome purge env with
    | error err =>
      rw [clean_eq_self (hsound.idle hprepare)]
      exact hself
    | ok _ =>
      rw [hprepare] at herror
      dsimp only at herror ⊢
      have hready := hsound.2 hprepare
      unfold register at herror ⊢
      by_cases hrunnable : env.runnable = true
      · rw [if_pos hrunnable] at hready herror ⊢
        rcases hready with ⟨hsetup, -⟩ | ⟨⟨err, hlost⟩, hlisted⟩
        · rw [hsetup] at herror
          cases herror
        · have hclean : clean s id env = s := by
            refine clean_eq_self fun a ha => ?_
            obtain rfl := Option.some.inj (hlisted.symm.trans ha)
            rfl
          rw [hlost, hclean]
          exact ⟨LuaTable.lookup_insert_of_lookup hlisted k, rfl, fun _ => Iff.rfl⟩
      · rw [if_neg hrunnable] at herror
        cases herror

/-- As long as no operation leaves one of the stores half done, they agree whenever the applications are
visited, and an installation that fails then leaves every application as it was. -/
theorem applications_agree {s : State}
    (h : Runs step (fun s e => Enabled s e ∧ Sound s e) .init s) (htodo : s.todo = []) :
    Agree s ∧ ∀ id autostart purge env err, Sound s (.install id autostart purge env) →
      (install s id autostart purge env).2 = .error err →
        ∀ k, Kept s (install s id autostart purge env).1 k := by
  have hcoherent := h.invariant (I := Coherent) (fun _ _ he hs => step_coherent hs he.1 he.2)
    init_state_coherent
  exact ⟨hcoherent.agree htodo, fun _ _ _ _ _ hsound herror => install_kept hsound herror⟩

/-- An installation of a runnable application that succeeds under the number `n`. -/
def InstallEnv.ok (n : Nat) : InstallEnv :=
  ⟨true, .answered, true, true, .ok (), true, .answered, n, true⟩

def InitEnv.ok (n : Nat) : InitEnv :=
  ⟨true, ⟨.answered, true, 0, true⟩, true, .answered, .answered, n, .ok "ok"⟩

/-- An application is installed, the agent starts again and visits it. -/
theorem applications_agree_one :
    let s := [.install "a".toList true false (.ok 2), .init true true true ["a".toList],
      .initapps (.ok 3)].foldl step .init
    Agree s ∧ s.daemon = [(2, "a".toList)] := by
  have hrun : Runs step (fun s e => Enabled s e ∧ Sound s e) .init
      ([.install "a".toList true false (.ok 2), .init true true true ["a".toList],
        .initapps (.ok 3)].foldl step .init) := by
    apply Along.runs
    refine ⟨⟨by decide, fun _ _ => ⟨nofun, fun _ => .inl ⟨rfl, rfl⟩⟩⟩, ⟨by decide, .inl rfl⟩,
      ⟨by decide, fun id todo htodo => ?_⟩, trivial⟩
    obtain ⟨rfl, rfl⟩ := List.cons.inj htodo
    exact trivial
  exact ⟨(applications_agree hrun rfl).1, rfl⟩

/-- An application that is set up is installed again, and its files cannot be copied: it has left the
daemon, and its number is gone from the list and not from its persisted copy. -/
theorem reinstall_forgets :
    let events := [.install "a".toList true false (.ok 2),
      .install "a".toList true false { InstallEnv.ok 3 with copied := .error "cannot copy" }]
    let s := events.foldl step .init
    Along step Enabled .init events ∧ s.todo = [] ∧
      (install (step .init (.install "a".toList true false (.ok 2))) "a".toList true false
        { InstallEnv.ok 3 with copied := .error "cannot copy" }).2.isOk = false ∧
      s.memory.lookup "a".toList = some ⟨true, none⟩ ∧
      s.flash.lookup "a".toList = some ⟨true, some (.number 2)⟩ ∧ s.daemon = [] := by
  decide

end Mihini.Appcon
