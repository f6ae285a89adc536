import Mihini.Airvantage.Dispatch
import Mihini.Lib.Keyed
import Mihini.Lib.Run

/-!
# The lock and the list of the assets

What every event keeps, and with it every run, while no event meets a gap.
-/

namespace Mihini.Airvantage

open Mihini.Lib List

/-! ## The list -/

variable {s : State} {p : Nat} {o : Option Asset} {a : Asset}

theorem started_update_self {l : List (Str × Nat)}
    {name : Str} :
    State.Started { s with heap := Function.update s.heap p o, assetList := l } name p a ↔
      o = some a ∧ a.started = true ∧ a.assetId = name := by
  constructor
  · rintro ⟨hheap, hstarted, hid⟩
    exact ⟨by simpa using hheap, hstarted, hid⟩
  · rintro ⟨rfl, hstarted, hid⟩
    exact ⟨by simp, hstarted, hid⟩

theorem started_update_of_ne {p q : Nat} {l : List (Str × Nat)}
    {name : Str} (hq : q ≠ p) :
    State.Started { s with heap := Function.update s.heap p o, assetList := l } name q a ↔
      s.Started name q a := by
  have hheap : Function.update s.heap p o q = s.heap q := Function.update_of_ne hq _ _
  exact ⟨fun h => ⟨hheap.symm.trans h.heap, h.started, h.assetId⟩,
    fun h => ⟨hheap.trans h.heap, h.started, h.assetId⟩⟩

theorem State.Lists.update (hs : s.Lists)
    (h : ∀ name, (∃ a, o = some a ∧ a.started = true ∧ a.assetId = name) ↔
      ∃ a, s.Started name p a) :
    ({ s with heap := Function.update s.heap p o } : State).Lists := by
  refine ⟨hs.nodup, fun name q => ?_⟩
  by_cases hq : q = p
  · subst hq
    simp only [started_update_self, h]
    exact hs.mem name q
  · simp only [started_update_of_ne hq]
    exact hs.mem name q

theorem State.Lists.set (hs : s.Lists) {a b : Asset}
    (ha : s.heap p = some a) (hstarted : b.started = a.started) (hid : b.assetId = a.assetId) :
    ({ s with heap := Function.update s.heap p (some b) } : State).Lists := by
  refine hs.update fun name => ?_
  constructor
  · rintro ⟨_, ⟨⟩, hb, hname⟩
    exact ⟨a, ha, hstarted ▸ hb, hid ▸ hname⟩
  · rintro ⟨c, hheap, hc, hname⟩
    obtain rfl : a = c := Option.some.inj (ha.symm.trans hheap)
    exact ⟨b, rfl, hstarted.trans hc, hid.trans hname⟩

theorem start_lists (hs : s.Lists) (ha : s.heap p = some a)
    (hidle : a.started = false) (hname : ∀ q b, s.Started a.assetId q b → q = p) :
    ({ s with
        heap := Function.update s.heap p (some { a with started := true })
        assetList := s.assetList ++ [(a.assetId, p)] } : State).Lists := by
  have hother : ∀ name b, ¬ s.Started name p b := by
    intro name b hb
    obtain rfl : a = b := Option.some.inj (ha.symm.trans hb.heap)
    rw [hb.started] at hidle
    cases hidle
  have hfresh : ∀ q, (a.assetId, q) ∉ s.assetList := by
    intro q hmem
    obtain ⟨b, hb⟩ := (hs.mem _ q).mp hmem
    obtain rfl := hname q b hb
    exact hother _ b hb
  constructor
  · rw [map_append, map_singleton, nodup_append]
    refine ⟨hs.nodup, by simp, fun x hx y hy heq => ?_⟩
    obtain ⟨z, hz, hzx⟩ := mem_map.mp hx
    have hid : z.1 = a.assetId := hzx.trans (heq.trans (mem_singleton.mp hy))
    exact hfresh z.2 (hid ▸ hz)
  · intro name q
    rw [mem_append, mem_singleton, hs.mem]
    by_cases hq : q = p
    · subst hq
      simp only [started_update_self]
      constructor
      · rintro (⟨b, hb⟩ | heq)
        · exact absurd hb (hother name b)
        · exact ⟨_, rfl, rfl, (congrArg Prod.fst heq).symm⟩
      · rintro ⟨_, ⟨⟩, -, hid⟩
        exact .inr (by rw [← hid])
    · simp only [started_update_of_ne hq]
      constructor
      · rintro (h | heq)
        · exact h
        · exact absurd (congrArg Prod.snd heq) hq
      · exact .inl

theorem destroy_lists (hs : s.Lists) (ha : s.heap p = some a)
    (hstarted : a.started = true) :
    ({ s with
        heap := Function.update s.heap p none
        assetList := s.assetList.eraseP fun x => x.1 = a.assetId } : State).Lists := by
  have hp : s.Started a.assetId p a := ⟨ha, hstarted, rfl⟩
  constructor
  · exact hs.nodup.sublist ((eraseP_sublist).map Prod.fst)
  · intro name q
    rw [mem_eraseP_key hs.nodup, hs.mem]
    by_cases hq : q = p
    · subst hq
      simp only [started_update_self]
      constructor
      · rintro ⟨⟨b, hb⟩, hne⟩
        obtain rfl : a = b := Option.some.inj (ha.symm.trans hb.heap)
        exact absurd hb.assetId.symm hne
      · rintro ⟨_, ⟨⟩, -⟩
    · simp only [started_update_of_ne hq]
      constructor
      · exact And.left
      · rintro ⟨b, hb⟩
        refine ⟨⟨b, hb⟩, fun hname => hq ?_⟩
        obtain rfl : name = a.assetId := hname
        exact hs.unique hb hp

/-! ## Steps -/

theorem findAsset_heap {path : Str} {x : State × Outcome}
    (h : findAsset s path = .error x) : x.1.heap = s.heap := by
  unfold findAsset at h
  split at h
  · cases h
    rfl
  · cases h
    rfl
  · split_ifs at h
    · cases h
      rfl
    · split at h
      · cases h
        rfl
      · cases h

theorem passData_heap (s : State) (m : Message) (rest : Str) (p : Nat) :
    (passData s m rest p).1.heap = s.heap := by
  unfold passData
  repeat' split
  all_goals rfl

theorem passUpdate_heap (s : State) (version file : Str) (more : List Json) (rest : Str) (p : Nat) :
    (passUpdate s version file more rest p).1.heap = s.heap := by
  unfold passUpdate
  repeat' split
  all_goals rfl

theorem message_heap (s : State) {e : Event} (he : e.isMessage = true) :
    (step s e).heap = s.heap := by
  cases e with
  | sendData payload =>
    simp only [step, perform, empSendDataHdlr]
    split
    · split
      · rfl
      · split
        · exact findAsset_heap ‹_›
        · exact passData_heap ..
    · rfl
  | softwareUpdate payload =>
    simp only [step, perform, empUpdateNotifHdlr]
    split
    · split
      · exact findAsset_heap ‹_›
      · exact passUpdate_heap ..
    · rfl
  | _ => cases he

theorem State.Lists.congr {s s' : State} (hs : s.Lists) (hheap : s'.heap = s.heap)
    (hlist : s'.assetList = s.assetList) : s'.Lists := by
  have hstarted : ∀ name p a, s'.Started name p a ↔ s.Started name p a := fun name p a =>
    ⟨fun h => ⟨hheap ▸ h.heap, h.started, h.assetId⟩,
      fun h => ⟨hheap ▸ h.heap, h.started, h.assetId⟩⟩
  exact ⟨hlist ▸ hs.nodup, fun name p => by simp only [hlist, hs.mem, hstarted]⟩

def State.Ready (s : State) : Prop := s.locked = false ∧ s.Lists

theorem step_ready {e : Event} (he : Sound s e) (h : s.Ready) : (step s e).Ready := by
  obtain ⟨hfree, hs⟩ := h
  cases e with
  | create p assetId =>
    simp only [step, perform, create]
    split_ifs
    · exact ⟨hfree, hs⟩
    · refine ⟨hfree, hs.update fun name => ?_⟩
      constructor
      · rintro ⟨_, ⟨⟩, hstarted, -⟩
        cases hstarted
      · rintro ⟨a, ha⟩
        have hnone : s.heap p = none := he
        cases hnone.symm.trans ha.heap
  | registerDataWrite p cb =>
    obtain ⟨a, ha⟩ := Option.ne_none_iff_exists'.mp he
    simp only [step, perform, registerDataWrite, ha]
    exact ⟨hfree, hs.set ha rfl rfl⟩
  | registerUpdateNotification p cb =>
    obtain ⟨a, ha⟩ := Option.ne_none_iff_exists'.mp he
    simp only [step, perform, registerUpdateNotification, ha]
    exact ⟨hfree, hs.set ha rfl rfl⟩
  | start p answer =>
    obtain ⟨a, ha, hname⟩ := he
    simp only [step, perform, start, ha]
    split_ifs with hstarted hanswer hlocked
    · exact ⟨hfree, hs⟩
    · exact ⟨hfree, hs⟩
    · rw [hfree] at hlocked
      cases hlocked
    · exact ⟨hfree, start_lists hs ha (by simpa using hstarted) (hname (by simpa using hanswer))⟩
  | destroy p answer =>
    obtain ⟨a, ha⟩ := Option.ne_none_iff_exists'.mp he
    simp only [step, perform, destroy, ha]
    split_ifs with hstarted hanswer hlocked
    · exact ⟨hfree, hs⟩
    · exact ⟨hfree, hs⟩
    · exact ⟨hfree, hs⟩
    · exact ⟨hfree, destroy_lists hs ha (by simpa using hstarted)⟩
  | sendData payload =>
    obtain ⟨-, -, hlist, hfree', -⟩ := (handled_iff_sound hs hfree rfl).mpr he
    exact ⟨hfree', hs.congr (message_heap s rfl) hlist⟩
  | softwareUpdate payload =>
    obtain ⟨-, -, hlist, hfree', -⟩ := (handled_iff_sound hs hfree rfl).mpr he
    exact ⟨hfree', hs.congr (message_heap s rfl) hlist⟩

/-! ## Runs -/

theorem ready_of_runs (h : Runs step Sound .init s) : s.Ready := by
  refine h.invariant (fun _ _ => step_ready) ⟨rfl, nodup_nil, fun name p => ?_⟩
  constructor
  · exact nofun
  · rintro ⟨a, ha⟩
    cases ha.heap

theorem findAsset_not_blocked {s s' : State} (hs : s.Lists) (hfree : s.locked = false) {path : Str} :
    findAsset s path ≠ .error (s', .blocked) := by
  rcases findAsset_cases hs hfree path with ⟨-, heq⟩ | ⟨-, -, heq⟩ | ⟨-, -, -, heq⟩ |
    ⟨-, -, p, a, -, heq⟩
  all_goals
    rw [heq]
    simp

theorem passData_not_blocked (s : State) (m : Message) (rest : Str) (p : Nat) :
    (passData s m rest p).2 ≠ .blocked := by
  unfold passData State.dataWrite
  repeat' split
  all_goals nofun

theorem passUpdate_not_blocked (s : State) (version file : Str) (more : List Json) (rest : Str)
    (p : Nat) : (passUpdate s version file more rest p).2 ≠ .blocked := by
  unfold passUpdate
  repeat' split
  all_goals nofun

theorem not_blocked (hs : s.Ready) (e : Event) : (perform s e).2 ≠ .blocked := by
  obtain ⟨hfree, hs⟩ := hs
  cases e with
  | sendData payload =>
    simp only [perform, empSendDataHdlr]
    split
    · split
      · rintro ⟨⟩
      · split
        · rename_i x heq
          rintro hblocked
          exact findAsset_not_blocked hs hfree (heq.trans (by rw [← hblocked]))
        · exact passData_not_blocked _ _ _ _
    · rintro ⟨⟩
  | softwareUpdate payload =>
    simp only [perform, empUpdateNotifHdlr]
    split
    · split
      · rename_i x heq
        rintro hblocked
        exact findAsset_not_blocked hs hfree (heq.trans (by rw [← hblocked]))
      · exact passUpdate_not_blocked _ _ _ _ _ _
    · rintro ⟨⟩
  | start p answer =>
    simp only [perform, start, hfree]
    repeat' split
    all_goals simp_all
  | destroy p answer =>
    simp only [perform, destroy, hfree]
    repeat' split
    all_goals simp_all
  | create p assetId =>
    simp only [perform, create]
    split_ifs <;> rintro ⟨⟩
  | registerDataWrite p cb =>
    simp only [perform, registerDataWrite]
    split <;> rintro ⟨⟩
  | registerUpdateNotification p cb =>
    simp only [perform, registerUpdateNotification]
    split <;> rintro ⟨⟩

/-- While no event meets a gap, the lock is free after each of them, the list has the assets that are
started, and nothing is blocked; a message is then passed on or refused as it should be exactly when
it does not meet a gap either. -/
theorem dispatched {s : State} (h : Runs step Sound .init s) :
    s.locked = false ∧ s.Lists ∧ (∀ e, (perform s e).2 ≠ .blocked) ∧
      ∀ e : Event, e.isMessage = true → (Handled s e ↔ Sound s e) :=
  have hready := ready_of_runs h
  ⟨hready.1, hready.2, not_blocked hready, fun _ he => handled_iff_sound hready.2 hready.1 he⟩

def messageTo (path : String) (body : Json) : Json :=
  .object [("__class".toList, .string "AWT-DA::Message".toList), ("Path".toList, .string path.toList),
    ("TicketId".toList, .number ⟨5, true, 0, true⟩), ("Body".toList, body)]

theorem dispatched_one :
    let s := [.create 1 "a".toList, .registerDataWrite 1 (.function 7), .start 1 .ok].foldl step .init
    s.locked = false ∧
      Handled s (.sendData (some (messageTo "a.b" (.object [("x".toList, .bool true)])))) := by
  have hrun : Runs step Sound .init
      ([.create 1 "a".toList, .registerDataWrite 1 (.function 7), .start 1 .ok].foldl step .init) := by
    apply Along.runs
    refine ⟨rfl, by rintro ⟨⟩, ⟨_, rfl, fun _ q b hb => ?_⟩, trivial⟩
    by_contra hq
    have hheap := hb.heap
    simp [step, perform, create, registerDataWrite, State.init, Function.update_of_ne hq] at hheap
  refine ⟨(dispatched hrun).1, ((dispatched hrun).2.2.2 _ rfl).mpr ?_⟩
  rintro _ m ⟨⟩ hm
  have hread := readMessage_eq_some.mpr hm
  change some (Message.mk "a.b".toList 5 (.object [("x".toList, .bool true)]) none) = some m at hread
  obtain rfl := Option.some.inj hread
  refine ⟨by rintro ⟨⟩, fun _ => ⟨1, _, 7, ⟨rfl, rfl, rfl⟩, rfl, fun _ => ?_, by rintro ⟨⟩, by rintro ⟨⟩⟩⟩
  simp [Json.Named, Json.entries]

/-- A message for an asset that is not started keeps the lock, and the next asset cannot be
started. -/
theorem lock_kept :
    let e := .sendData (some (messageTo "x.y" (.object [])))
    let s := step .init e
    ¬ Handled .init e ∧ s.locked = true ∧
      (perform (step s (.create 1 "a".toList)) (.start 1 .ok)).2 = .blocked := by
  refine ⟨?_, rfl, rfl⟩
  rintro ⟨-, -, -, hlocked, -⟩
  cases hlocked

end Mihini.Airvantage
