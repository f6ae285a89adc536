import Mathlib.Logic.Function.Basic
import Mihini.Lib.LuaTable
import Mihini.Lib.Run

/-!
# Notifications of external variables

`src/agent/agent/treemgr/handlers/extvars/extvars.c`: threads of C handlers hand their notifications
over to the Lua thread, in one buffer under a mutex, and wait on a semaphore until it has handled
them.  The Lua thread itself takes a direct path.  The steps of all threads are interleaved.
-/

namespace Mihini.Treemgr.ExtVars

open Mihini.Lib Function

set_option linter.unusedSectionVars false

variable {T ν : Type} [DecidableEq T]

/-- `handler_name`, and `vars` with their `values`: a value is `none` for the types that are pushed
as `nil`. -/
structure Note (ν : Type) where
  handlerName : Option String
  vars : List (Int × Option ν)

/-- The table that `handle_notification` fills. -/
def Note.hmap (n : Note ν) : LuaTable Int ν :=
  n.vars.foldl (fun t x => match x.2 with
    | some v => t.insert x.1 v
    | none => t.erase x.1) ∅

/-- The arguments of `treemgr.notify`. -/
def Note.report (n : Note ν) : Option String × LuaTable Int ν := (n.handlerName, n.hmap)

/-- Where a thread is in `trigger_notification`: what it does next. -/
inductive Point (ν : Type) where
  /-- It is not in a call. -/
  | out
  | lock (n : Note ν)
  | store (n : Note ν)
  | emit (n : Note ν)
  | wait (n : Note ν)
  | unlock (n : Note ν)

inductive LuaPoint (ν : Type) where
  | idle
  /-- In a call of `trigger_notification` from a `set` callback. -/
  | trigger (p : Point ν)
  /-- In the direct call of `handle_notification`, before `sem_post`. -/
  | handled (n : Note ν)
  /-- In the hooks of a signal: those left, and whether the current one is before `sem_post`. -/
  | hook (left : Nat) (posting : Bool)
  /-- In `l_load`, before the mutex and the semaphore are initialised. -/
  | loading (connected : Bool)
  | subscribing

structure State (T ν : Type) where
  mutex : Option (Option T)
  /-- The value of `handled`. -/
  sem : Nat
  buffer : Note ν
  signals : Nat
  hooks : Nat
  pc : T → Point ν
  lua : LuaPoint ν
  notified : List (Option String × LuaTable Int ν)
  /-- The calls of `trigger_notification` that have returned. -/
  returned : List (Note ν)

def init : State T ν where
  mutex := none
  sem := 0
  buffer := ⟨none, []⟩
  signals := 0
  hooks := 0
  pc := fun _ => .out
  lua := .idle
  notified := []
  returned := []

namespace State

variable (s : State T ν)

/-- `treemgr.notify`, with what the buffer holds. -/
def notify : State T ν := { s with notified := s.notified ++ [s.buffer.report] }

def call (t : T) (n : Note ν) : State T ν :=
  match s.pc t with
  | .out =>
    if s.mutex.isNone then { s with pc := update s.pc t (.store n), mutex := some (some t) }
    else { s with pc := update s.pc t (.lock n) }
  | _ => s

def run (t : T) : State T ν :=
  match s.pc t with
  | .out => s
  | .lock n =>
    if s.mutex.isNone then { s with pc := update s.pc t (.store n), mutex := some (some t) } else s
  | .store n => { s with pc := update s.pc t (.emit n), buffer := n }
  | .emit n => { s with pc := update s.pc t (.wait n), signals := s.signals + 1 }
  | .wait n => if 0 < s.sem then { s with pc := update s.pc t (.unlock n), sem := s.sem - 1 } else s
  | .unlock n => { s with pc := update s.pc t .out, mutex := none, returned := s.returned ++ [n] }

/-- The signal cannot be sent; `LUASIGNAL_SignalT` returns an error, which is ignored. -/
def lost (t : T) : State T ν :=
  match s.pc t with
  | .emit n => { s with pc := update s.pc t (.wait n) }
  | _ => s

/-- `sem_wait` returns `EINTR`, which is ignored. -/
def interrupt (t : T) : State T ν :=
  match s.pc t with
  | .wait n => { s with pc := update s.pc t (.unlock n) }
  | _ => s

def luaCall (n : Note ν) : State T ν :=
  match s.lua with
  | .idle =>
    if s.mutex.isNone then { s with lua := .trigger (.store n), mutex := some none }
    else { s with lua := .trigger (.lock n) }
  | _ => s

def luaRun : State T ν :=
  match s.lua with
  | .idle => s
  | .trigger .out => s
  | .trigger (.lock n) =>
    if s.mutex.isNone then { s with lua := .trigger (.store n), mutex := some none } else s
  | .trigger (.store n) => { s with lua := .trigger (.emit n), buffer := n }
  | .trigger (.emit n) => { s.notify with lua := .handled n }
  | .handled n => { s with lua := .trigger (.wait n), sem := s.sem + 1 }
  | .trigger (.wait n) =>
    if 0 < s.sem then { s with lua := .trigger (.unlock n), sem := s.sem - 1 } else s
  | .trigger (.unlock n) => { s with lua := .idle, mutex := none, returned := s.returned ++ [n] }
  | .hook left false => { s.notify with lua := .hook left true }
  | .hook left true =>
    { s with sem := s.sem + 1, lua := if left ≤ 1 then .idle else .hook (left - 1) false }
  | .loading connected =>
    { s with mutex := none, sem := 0, lua := if connected then .subscribing else .idle }
  | .subscribing => { s with hooks := s.hooks + 1, lua := .idle }

def deliver : State T ν :=
  match s.lua with
  | .idle =>
    if s.signals = 0 then s
    else { s with signals := s.signals - 1, lua := if s.hooks = 0 then .idle else .hook s.hooks false }
  | _ => s

/-- `l_load`, up to the notifier that it sets; `connected` tells whether `LUASIGNAL_Init` will
succeed. -/
def load (connected : Bool) : State T ν :=
  match s.lua with
  | .idle => { s with lua := .loading connected }
  | _ => s

end State

inductive Event (T ν : Type) where
  | call (t : T) (n : Note ν)
  | run (t : T)
  | lost (t : T)
  | interrupt (t : T)
  | luaCall (n : Note ν)
  | luaRun
  | deliver
  | load (connected : Bool)

def step (s : State T ν) : Event T ν → State T ν
  | .call t n => s.call t n
  | .run t => s.run t
  | .lost t => s.lost t
  | .interrupt t => s.interrupt t
  | .luaCall n => s.luaCall n
  | .luaRun => s.luaRun
  | .deliver => s.deliver
  | .load connected => s.load connected

/-! ## The condition -/

def LuaPoint.Loads : LuaPoint ν → Prop
  | .loading _ => True
  | .subscribing => True
  | _ => False

/-- Threads call when one handler is loaded, the Lua thread when nobody holds the mutex, and a
handler is loaded when no call is under way. -/
def Event.Sound (s : State T ν) : Event T ν → Prop
  | .call _ _ => s.hooks = 1 ∧ ¬ s.lua.Loads
  | .run _ => True
  | .lost _ => False
  | .interrupt _ => False
  | .luaCall _ => s.mutex = none
  | .luaRun => True
  | .deliver => True
  | .load _ => ∀ t, s.pc t = .out

/-! ## The invariant -/

def Point.Outside : Point ν → Prop
  | .out => True
  | .lock _ => True
  | _ => False

/-- The notifications that are made are those of the calls that have returned, and of `l`. -/
def Made (s : State T ν) (l : List (Note ν)) : Prop :=
  s.notified = (s.returned ++ l).map Note.report

/-- How far the call of a thread has got, with the counters. -/
inductive ThreadStage (s : State T ν) (t : T) (n : Note ν) : Prop where
  | store (pc : s.pc t = .store n) (lua : s.lua = .idle) (sem : s.sem = 0)
      (signals : s.signals = 0) (made : Made s [])
  | emit (pc : s.pc t = .emit n) (lua : s.lua = .idle) (sem : s.sem = 0)
      (signals : s.signals = 0) (buffer : s.buffer = n) (made : Made s [])
  | sent (pc : s.pc t = .wait n) (lua : s.lua = .idle) (sem : s.sem = 0)
      (signals : s.signals = 1) (buffer : s.buffer = n) (made : Made s [])
  | hook (pc : s.pc t = .wait n) (lua : s.lua = .hook 1 false) (sem : s.sem = 0)
      (signals : s.signals = 0) (buffer : s.buffer = n) (made : Made s [])
  | handled (pc : s.pc t = .wait n) (lua : s.lua = .hook 1 true) (sem : s.sem = 0)
      (signals : s.signals = 0) (made : Made s [n])
  | posted (pc : s.pc t = .wait n) (lua : s.lua = .idle) (sem : s.sem = 1)
      (signals : s.signals = 0) (made : Made s [n])
  | unlock (pc : s.pc t = .unlock n) (lua : s.lua = .idle) (sem : s.sem = 0)
      (signals : s.signals = 0) (made : Made s [n])

inductive LuaStage (s : State T ν) (n : Note ν) : Prop where
  | store (lua : s.lua = .trigger (.store n)) (sem : s.sem = 0) (made : Made s [])
  | emit (lua : s.lua = .trigger (.emit n)) (sem : s.sem = 0) (buffer : s.buffer = n)
      (made : Made s [])
  | handled (lua : s.lua = .handled n) (sem : s.sem = 0) (made : Made s [n])
  | wait (lua : s.lua = .trigger (.wait n)) (sem : s.sem = 1) (made : Made s [n])
  | unlock (lua : s.lua = .trigger (.unlock n)) (sem : s.sem = 0) (made : Made s [n])

inductive Stage (s : State T ν) : Prop where
  | free (mutex : s.mutex = none) (lua : s.lua = .idle ∨ s.lua.Loads) (sem : s.sem = 0)
      (signals : s.signals = 0) (made : Made s [])
  | thread (t : T) (n : Note ν) (mutex : s.mutex = some (some t)) (stage : ThreadStage s t n)
  | lua (n : Note ν) (mutex : s.mutex = some none) (signals : s.signals = 0)
      (stage : LuaStage s n)

structure Inv (s : State T ν) : Prop where
  hooks : ∀ t, s.pc t ≠ .out → s.hooks = 1
  loads : ∀ t, s.pc t ≠ .out → ¬ s.lua.Loads
  others : ∀ t, s.mutex ≠ some (some t) → (s.pc t).Outside
  stage : Stage s

section

variable {s s' : State T ν} {t : T} {n : Note ν} {p : Point ν}

/-! ## The steps of a thread -/

theorem ThreadStage.frame {pc : T → Point ν} (h : ThreadStage s t n) (hpc : pc t = s.pc t) :
    ThreadStage { s with pc := pc } t n := by
  cases h with
  | store pc lua sem signals made => exact .store (hpc.trans pc) lua sem signals made
  | emit pc lua sem signals buffer made => exact .emit (hpc.trans pc) lua sem signals buffer made
  | sent pc lua sem signals buffer made => exact .sent (hpc.trans pc) lua sem signals buffer made
  | hook pc lua sem signals buffer made => exact .hook (hpc.trans pc) lua sem signals buffer made
  | handled pc lua sem signals made => exact .handled (hpc.trans pc) lua sem signals made
  | posted pc lua sem signals made => exact .posted (hpc.trans pc) lua sem signals made
  | unlock pc lua sem signals made => exact .unlock (hpc.trans pc) lua sem signals made

theorem LuaStage.frame {pc : T → Point ν} (h : LuaStage s n) : LuaStage { s with pc := pc } n := by
  cases h with
  | store lua sem made => exact .store lua sem made
  | emit lua sem buffer made => exact .emit lua sem buffer made
  | handled lua sem made => exact .handled lua sem made
  | wait lua sem made => exact .wait lua sem made
  | unlock lua sem made => exact .unlock lua sem made

theorem ThreadStage.pc_ne_out (h : ThreadStage s t n) : s.pc t ≠ .out := by
  cases h with
  | store pc | emit pc | sent pc | hook pc | handled pc | posted pc | unlock pc =>
    rw [pc]
    exact nofun

theorem Made.append (h : Made s [n]) : s.notified = (s.returned ++ [n] ++ []).map Note.report := by
  rw [List.append_nil]
  exact h

theorem Inv.holder (h : Inv s) (hpc : ¬ (s.pc t).Outside) :
    s.mutex = some (some t) ∧ ∃ n, ThreadStage s t n := by
  have hmutex : s.mutex = some (some t) := by
    by_contra hne
    exact hpc (h.others t hne)
  refine ⟨hmutex, ?_⟩
  cases h.stage with
  | free mutex => exact nomatch mutex.symm.trans hmutex
  | lua n mutex => exact nomatch mutex.symm.trans hmutex
  | thread u n mutex stage =>
    have heq : u = t := Option.some.inj (Option.some.inj (mutex.symm.trans hmutex))
    exact ⟨n, heq ▸ stage⟩

/-- A thread in a call moves on. -/
theorem Inv.advance (h : Inv s) (hout : s.pc t ≠ .out) (hpc : s'.pc = update s.pc t p)
    (hhooks : s'.hooks = s.hooks) (hlua : s'.lua = s.lua)
    (hothers : ∀ u, u ≠ t → s'.mutex ≠ some (some u) → s.mutex ≠ some (some u))
    (hself : s'.mutex ≠ some (some t) → p.Outside) (hstage : Stage s') : Inv s' := by
  refine ⟨fun _ _ => hhooks.trans (h.hooks t hout), fun _ _ => hlua ▸ h.loads t hout,
    fun u hu => ?_, hstage⟩
  rw [hpc]
  by_cases hut : u = t
  · rw [hut, update_self]
    exact hself (hut ▸ hu)
  · rw [update_of_ne hut]
    exact h.others u (hothers u hut hu)

theorem Inv.free (h : Inv s) (hmutex : s.mutex = none) :
    (s.lua = .idle ∨ s.lua.Loads) ∧ s.sem = 0 ∧ s.signals = 0 ∧ Made s [] := by
  cases h.stage with
  | free _ lua sem signals made => exact ⟨lua, sem, signals, made⟩
  | thread t n mutex => exact nomatch hmutex.symm.trans mutex
  | lua n mutex => exact nomatch hmutex.symm.trans mutex

section

variable {m : Note ν} (h : ThreadStage s t m)

include h

theorem ThreadStage.of_store (hpc : s.pc t = .store n) :
    s.lua = .idle ∧ s.sem = 0 ∧ s.signals = 0 ∧ Made s [] := by
  cases h with
  | store _ lua sem signals made => exact ⟨lua, sem, signals, made⟩
  | emit pc | sent pc | hook pc | handled pc | posted pc | unlock pc =>
    exact nomatch hpc.symm.trans pc

theorem ThreadStage.of_emit (hpc : s.pc t = .emit n) :
    s.lua = .idle ∧ s.sem = 0 ∧ s.signals = 0 ∧ s.buffer = n ∧ Made s [] := by
  cases h with
  | emit pc lua sem signals buffer made =>
    injection hpc.symm.trans pc with heq
    exact ⟨lua, sem, signals, buffer.trans heq.symm, made⟩
  | store pc | sent pc | hook pc | handled pc | posted pc | unlock pc =>
    exact nomatch hpc.symm.trans pc

theorem ThreadStage.of_wait (hpc : s.pc t = .wait n) (hsem : 0 < s.sem) :
    s.lua = .idle ∧ s.sem = 1 ∧ s.signals = 0 ∧ Made s [n] := by
  cases h with
  | posted pc lua sem signals made =>
    injection hpc.symm.trans pc with heq
    exact ⟨lua, sem, signals, heq ▸ made⟩
  | sent _ _ sem | hook _ _ sem | handled _ _ sem =>
    rw [sem] at hsem
    nomatch hsem
  | store pc | emit pc | unlock pc => exact nomatch hpc.symm.trans pc

theorem ThreadStage.buffer_of_wait (hpc : s.pc t = .wait n)
    (hnext : 0 < s.signals ∨ ∃ k, s.lua = .hook k false) : s.buffer = n := by
  cases h with
  | sent pc _ _ _ buffer | hook pc _ _ _ buffer =>
    injection hpc.symm.trans pc with heq
    exact buffer.trans heq.symm
  | handled _ lua _ signals | posted _ lua _ signals =>
    rcases hnext with hpos | ⟨k, hk⟩
    · rw [signals] at hpos
      nomatch hpos
    · exact nomatch hk.symm.trans lua
  | store pc | emit pc | unlock pc => exact nomatch hpc.symm.trans pc

theorem ThreadStage.of_unlock (hpc : s.pc t = .unlock n) :
    s.lua = .idle ∧ s.sem = 0 ∧ s.signals = 0 ∧ Made s [n] := by
  cases h with
  | unlock pc lua sem signals made =>
    injection hpc.symm.trans pc with heq
    exact ⟨lua, sem, signals, heq ▸ made⟩
  | store pc | emit pc | sent pc | hook pc | handled pc | posted pc =>
    exact nomatch hpc.symm.trans pc

end

theorem Inv.run (h : Inv s) (t : T) : Inv (s.run t) := by
  unfold State.run
  split
  · exact h
  · next n hpc =>
    have hout : s.pc t ≠ .out := by
      rw [hpc]
      exact nofun
    split
    · next hnone =>
      have hmutex := Option.isNone_iff_eq_none.mp hnone
      obtain ⟨hlua, hsem, hsignals, hmade⟩ := h.free hmutex
      have hidle : s.lua = .idle := hlua.resolve_right (h.loads t hout)
      exact h.advance hout rfl rfl rfl (fun u _ _ => by rw [hmutex]; exact nofun)
        (fun hne => absurd rfl hne)
        (.thread t n rfl (.store (update_self ..) hidle hsem hsignals hmade))
    · exact h
  · next n hpc =>
    have hout : s.pc t ≠ .out := by
      rw [hpc]
      exact nofun
    obtain ⟨hmutex, m, hstage⟩ := h.holder (t := t) (by rw [hpc]; exact id)
    obtain ⟨hlua, hsem, hsignals, hmade⟩ := hstage.of_store hpc
    exact h.advance hout rfl rfl rfl (fun _ _ => id) (fun hne => absurd hmutex hne)
      (.thread t n hmutex (.emit (update_self ..) hlua hsem hsignals rfl hmade))
  · next n hpc =>
    have hout : s.pc t ≠ .out := by
      rw [hpc]
      exact nofun
    obtain ⟨hmutex, m, hstage⟩ := h.holder (t := t) (by rw [hpc]; exact id)
    obtain ⟨hlua, hsem, hsignals, hbuffer, hmade⟩ := hstage.of_emit hpc
    exact h.advance hout rfl rfl rfl (fun _ _ => id) (fun hne => absurd hmutex hne)
      (.thread t n hmutex (.sent (update_self ..) hlua hsem (by rw [hsignals]) hbuffer
        hmade))
  · next n hpc =>
    have hout : s.pc t ≠ .out := by
      rw [hpc]
      exact nofun
    obtain ⟨hmutex, m, hstage⟩ := h.holder (t := t) (by rw [hpc]; exact id)
    split
    · next hsem =>
      obtain ⟨hlua, hone, hsignals, hmade⟩ := hstage.of_wait hpc hsem
      exact h.advance hout rfl rfl rfl (fun _ _ => id) (fun hne => absurd hmutex hne)
        (.thread t n hmutex (.unlock (update_self ..) hlua (by rw [hone]) hsignals hmade))
    · exact h
  · next n hpc =>
    have hout : s.pc t ≠ .out := by
      rw [hpc]
      exact nofun
    obtain ⟨hmutex, m, hstage⟩ := h.holder (t := t) (by rw [hpc]; exact id)
    obtain ⟨hlua, hsem, hsignals, hmade⟩ := hstage.of_unlock hpc
    refine h.advance hout rfl rfl rfl (fun u hut _ => ?_) (fun _ => trivial)
      (.free rfl (.inl hlua) hsem hsignals hmade.append)
    rw [hmutex]
    exact fun heq => hut (Option.some.inj (Option.some.inj heq)).symm

theorem Inv.call (h : Inv s) (t : T) (n : Note ν) (hhooks : s.hooks = 1) (hloads : ¬ s.lua.Loads) :
    Inv (s.call t n) := by
  unfold State.call
  split
  · next hout =>
    have hpc : ∀ p : Point ν, (∀ u, u ≠ t → s.mutex ≠ some (some u) →
        (update s.pc t p u).Outside) := by
      intro p u hut hu
      rw [update_of_ne hut]
      exact h.others u hu
    split
    · next hnone =>
      have hmutex := Option.isNone_iff_eq_none.mp hnone
      obtain ⟨hlua, hsem, hsignals, hmade⟩ := h.free hmutex
      refine ⟨fun _ _ => hhooks, fun _ _ => hloads, fun u hu => ?_,
        .thread t n rfl (.store (update_self ..) (hlua.resolve_right hloads) hsem hsignals
          hmade)⟩
      have hut : u ≠ t := fun heq => hu (by rw [heq])
      exact hpc _ u hut (by rw [hmutex]; exact nofun)
    · next hsome =>
      refine ⟨fun _ _ => hhooks, fun _ _ => hloads, fun u hu => ?_, ?_⟩
      · by_cases hut : u = t
        · show (update s.pc t (.lock n) u).Outside
          rw [hut, update_self]
          trivial
        · exact hpc _ u hut hu
      · cases h.stage with
        | free mutex lua sem signals made => exact .free mutex lua sem signals made
        | lua m mutex signals stage => exact .lua m mutex signals stage.frame
        | thread u m mutex stage =>
          have hut : u ≠ t := by
            intro heq
            exact absurd (heq ▸ hout) stage.pc_ne_out
          exact .thread u m mutex (stage.frame (update_of_ne hut ..))
  · exact h

/-! ## The steps of the Lua thread -/

theorem Inv.luaAdvance (h : Inv s) (hpc : s'.pc = s.pc) (hhooks : s'.hooks = s.hooks)
    (hlua : s'.lua.Loads → s.lua.Loads)
    (hothers : ∀ u, s'.mutex ≠ some (some u) → s.mutex ≠ some (some u)) (hstage : Stage s') :
    Inv s' := by
  refine ⟨fun t ht => hhooks.trans (h.hooks t (hpc ▸ ht)), fun t ht hloads => ?_, fun u hu => ?_,
    hstage⟩
  · exact h.loads t (hpc ▸ ht) (hlua hloads)
  · rw [hpc]
    exact h.others u (hothers u hu)

theorem Inv.luaHolder (h : Inv s) (hidle : s.lua ≠ .idle) (hloads : ¬ s.lua.Loads)
    (hhook : ∀ k b, s.lua ≠ .hook k b) :
    s.mutex = some none ∧ s.signals = 0 ∧ ∃ n, LuaStage s n := by
  cases h.stage with
  | free _ lua => exact absurd lua (not_or.mpr ⟨hidle, hloads⟩)
  | lua n mutex signals stage => exact ⟨mutex, signals, n, stage⟩
  | thread t n _ stage =>
    cases stage with
    | hook _ lua | handled _ lua => exact absurd lua (hhook _ _)
    | store _ lua | emit _ lua | sent _ lua | posted _ lua | unlock _ lua => exact absurd lua hidle

theorem Inv.loads_free (h : Inv s) (hloads : s.lua.Loads) :
    s.mutex = none ∧ s.sem = 0 ∧ s.signals = 0 ∧ Made s [] := by
  cases h.stage with
  | free mutex _ sem signals made => exact ⟨mutex, sem, signals, made⟩
  | lua n _ _ stage =>
    cases stage with
    | store lua | emit lua | handled lua | wait lua | unlock lua =>
      rw [lua] at hloads
      exact hloads.elim
  | thread t n _ stage => exact absurd hloads (h.loads t stage.pc_ne_out)

theorem Inv.hookHolder (h : Inv s) {k : Nat} {b : Bool} (hlua : s.lua = .hook k b) :
    ∃ t n, s.mutex = some (some t) ∧ s.pc t = .wait n ∧ k = 1 ∧ s.sem = 0 ∧ s.signals = 0 ∧
      (b = false → s.buffer = n ∧ Made s []) ∧ (b = true → Made s [n]) := by
  cases h.stage with
  | free _ lua =>
    rw [hlua] at lua
    rcases lua with lua | lua
    · nomatch lua
    · exact lua.elim
  | lua n _ _ stage =>
    cases stage with
    | store lua | emit lua | handled lua | wait lua | unlock lua => exact nomatch hlua.symm.trans lua
  | thread t n mutex stage =>
    cases stage with
    | hook pc lua sem signals buffer made =>
      injection hlua.symm.trans lua with hk hb
      exact ⟨t, n, mutex, pc, hk, sem, signals, fun _ => ⟨buffer, made⟩,
        fun htrue => nomatch hb.symm.trans htrue⟩
    | handled pc lua sem signals made =>
      injection hlua.symm.trans lua with hk hb
      exact ⟨t, n, mutex, pc, hk, sem, signals, fun hfalse => (nomatch hb.symm.trans hfalse),
        fun _ => made⟩
    | store _ lua | emit _ lua | sent _ lua | posted _ lua | unlock _ lua =>
      exact nomatch hlua.symm.trans lua

section

variable {m : Note ν} (h : LuaStage s m)

include h

theorem LuaStage.of_store (hlua : s.lua = .trigger (.store n)) : s.sem = 0 ∧ Made s [] := by
  cases h with
  | store _ sem made => exact ⟨sem, made⟩
  | emit lua | handled lua | wait lua | unlock lua => exact nomatch hlua.symm.trans lua

theorem LuaStage.of_emit (hlua : s.lua = .trigger (.emit n)) :
    s.sem = 0 ∧ s.buffer = n ∧ Made s [] := by
  cases h with
  | emit lua sem buffer made =>
    injection hlua.symm.trans lua with heq
    injection heq with heq
    exact ⟨sem, buffer.trans heq.symm, made⟩
  | store lua | handled lua | wait lua | unlock lua => exact nomatch hlua.symm.trans lua

theorem LuaStage.of_handled (hlua : s.lua = .handled n) : s.sem = 0 ∧ Made s [n] := by
  cases h with
  | handled lua sem made =>
    injection hlua.symm.trans lua with heq
    exact ⟨sem, heq ▸ made⟩
  | store lua | emit lua | wait lua | unlock lua => exact nomatch hlua.symm.trans lua

theorem LuaStage.of_wait (hlua : s.lua = .trigger (.wait n)) : s.sem = 1 ∧ Made s [n] := by
  cases h with
  | wait lua sem made =>
    injection hlua.symm.trans lua with heq
    injection heq with heq
    exact ⟨sem, heq ▸ made⟩
  | store lua | emit lua | handled lua | unlock lua => exact nomatch hlua.symm.trans lua

theorem LuaStage.of_unlock (hlua : s.lua = .trigger (.unlock n)) : s.sem = 0 ∧ Made s [n] := by
  cases h with
  | unlock lua sem made =>
    injection hlua.symm.trans lua with heq
    injection heq with heq
    exact ⟨sem, heq ▸ made⟩
  | store lua | emit lua | handled lua | wait lua => exact nomatch hlua.symm.trans lua

end

theorem Inv.triggerHolder (h : Inv s) (hlua : s.lua = .trigger p) :
    s.mutex = some none ∧ s.signals = 0 ∧ ∃ n, LuaStage s n :=
  h.luaHolder (by rw [hlua]; exact nofun) (by rw [hlua]; exact id) (by rw [hlua]; exact nofun)

/-- The Lua thread is never blocked at the mutex. -/
theorem Inv.lua_ne_lock (h : Inv s) : s.lua ≠ .trigger (.lock n) := by
  intro hlua
  obtain ⟨-, -, m, hstage⟩ := h.triggerHolder hlua
  cases hstage with
  | store lua | emit lua | handled lua | wait lua | unlock lua => exact nomatch hlua.symm.trans lua

theorem Made.notify (h : Made s []) (hbuffer : s.buffer = n) :
    s.notified ++ [s.buffer.report] = (s.returned ++ [n]).map Note.report := by
  have hmade : s.notified = (s.returned ++ []).map Note.report := h
  rw [hmade, hbuffer, List.append_nil, List.map_append]
  rfl

theorem Inv.luaRun (h : Inv s) : Inv s.luaRun := by
  unfold State.luaRun
  split
  · exact h
  · exact h
  · next n hlua => exact absurd hlua h.lua_ne_lock
  · next n hlua =>
    obtain ⟨hmutex, hsignals, m, hstage⟩ := h.triggerHolder hlua
    obtain ⟨hsem, hmade⟩ := hstage.of_store hlua
    exact h.luaAdvance rfl rfl (fun hloads => hloads.elim) (fun _ => id)
      (.lua n hmutex hsignals (.emit rfl hsem rfl hmade))
  · next n hlua =>
    obtain ⟨hmutex, hsignals, m, hstage⟩ := h.triggerHolder hlua
    obtain ⟨hsem, hbuffer, hmade⟩ := hstage.of_emit hlua
    exact h.luaAdvance rfl rfl (fun hloads => hloads.elim) (fun _ => id)
      (.lua n hmutex hsignals (.handled rfl hsem (hmade.notify hbuffer)))
  · next n hlua =>
    obtain ⟨hmutex, hsignals, m, hstage⟩ := h.luaHolder (by rw [hlua]; exact nofun)
      (by rw [hlua]; exact id) (by rw [hlua]; exact nofun)
    obtain ⟨hsem, hmade⟩ := hstage.of_handled hlua
    exact h.luaAdvance rfl rfl (fun hloads => hloads.elim) (fun _ => id)
      (.lua n hmutex hsignals (.wait rfl (by rw [hsem]) hmade))
  · next n hlua =>
    obtain ⟨hmutex, hsignals, m, hstage⟩ := h.triggerHolder hlua
    obtain ⟨hsem, hmade⟩ := hstage.of_wait hlua
    split
    · exact h.luaAdvance rfl rfl (fun hloads => hloads.elim) (fun _ => id)
        (.lua n hmutex hsignals (.unlock rfl (by rw [hsem]) hmade))
    · exact h
  · next n hlua =>
    obtain ⟨hmutex, hsignals, m, hstage⟩ := h.triggerHolder hlua
    obtain ⟨hsem, hmade⟩ := hstage.of_unlock hlua
    exact h.luaAdvance rfl rfl (fun hloads => hloads.elim) (fun _ _ => by rw [hmutex]; exact nofun)
      (.free rfl (.inl rfl) hsem hsignals hmade.append)
  · next k hlua =>
    obtain ⟨t, n, hmutex, hpc, rfl, hsem, hsignals, hread, -⟩ := h.hookHolder hlua
    obtain ⟨hbuffer, hmade⟩ := hread rfl
    exact h.luaAdvance rfl rfl (fun hloads => hloads.elim) (fun _ => id)
      (.thread t n hmutex (.handled hpc rfl hsem hsignals (hmade.notify hbuffer)))
  · next k hlua =>
    obtain ⟨t, n, hmutex, hpc, rfl, hsem, hsignals, -, hmade⟩ := h.hookHolder hlua
    exact h.luaAdvance rfl rfl (fun hloads => hloads.elim) (fun _ => id)
      (.thread t n hmutex (.posted hpc rfl (by rw [hsem]) hsignals (hmade rfl)))
  · next connected hlua =>
    have hloads : s.lua.Loads := by
      rw [hlua]
      trivial
    obtain ⟨hmutex, -, hsignals, hmade⟩ := h.loads_free hloads
    refine h.luaAdvance rfl rfl (fun _ => hloads) (fun _ _ => by rw [hmutex]; exact nofun)
      (.free rfl ?_ rfl hsignals hmade)
    cases connected with
    | true => exact .inr trivial
    | false => exact .inl rfl
  · next hlua =>
    have hloads : s.lua.Loads := by
      rw [hlua]
      trivial
    obtain ⟨hmutex, hsem, hsignals, hmade⟩ := h.loads_free hloads
    refine ⟨fun t ht => absurd hloads (h.loads t ht), fun _ _ => id, h.others,
      .free hmutex (.inl rfl) hsem hsignals hmade⟩

theorem Inv.deliver (h : Inv s) : Inv s.deliver := by
  unfold State.deliver
  split
  · next hidle =>
    split
    · exact h
    · next hsignals =>
      cases h.stage with
      | free _ _ _ signals => exact absurd signals hsignals
      | lua _ _ signals => exact absurd signals hsignals
      | thread t n mutex stage =>
        cases stage with
        | sent pc lua sem signals buffer made =>
          have hhooks : s.hooks = 1 := h.hooks t (by rw [pc]; exact nofun)
          refine h.luaAdvance rfl rfl (fun hloads => ?_) (fun _ => id)
            (.thread t n mutex (.hook pc ?_ sem (by rw [signals]) buffer made))
          · rw [hhooks] at hloads
            exact hloads.elim
          · rw [hhooks]
            rfl
        | store _ _ _ signals | emit _ _ _ signals | hook _ _ _ signals | handled _ _ _ signals
        | posted _ _ _ signals | unlock _ _ _ signals => exact absurd signals hsignals
  · exact h

theorem Inv.luaCall (h : Inv s) (n : Note ν) (hmutex : s.mutex = none) : Inv (s.luaCall n) := by
  obtain ⟨-, hsem, hsignals, hmade⟩ := h.free hmutex
  unfold State.luaCall
  split
  · rw [if_pos (by rw [hmutex]; rfl)]
    exact h.luaAdvance rfl rfl (fun hloads => hloads.elim) (fun _ _ => by rw [hmutex]; exact nofun)
      (.lua n rfl hsignals (.store rfl hsem hmade))
  · exact h

theorem Inv.load (h : Inv s) (connected : Bool) (hout : ∀ t, s.pc t = .out) :
    Inv (s.load connected) := by
  unfold State.load
  split
  · next hidle =>
    refine ⟨h.hooks, fun t ht => absurd (hout t) ht, h.others, ?_⟩
    cases h.stage with
    | free mutex _ sem signals made => exact .free mutex (.inr trivial) sem signals made
    | thread t n _ stage => exact absurd (hout t) stage.pc_ne_out
    | lua n _ _ stage =>
      cases stage with
      | store lua | emit lua | handled lua | wait lua | unlock lua =>
        exact nomatch hidle.symm.trans lua
  · exact h

theorem Inv.step (h : Inv s) {e : Event T ν} (he : e.Sound s) : Inv (step s e) := by
  cases e with
  | call t n => exact h.call t n he.1 he.2
  | run t => exact h.run t
  | lost t => exact he.elim
  | interrupt t => exact he.elim
  | luaCall n => exact h.luaCall n he
  | luaRun => exact h.luaRun
  | deliver => exact h.deliver
  | load connected => exact h.load connected he

theorem inv_init : Inv (init : State T ν) :=
  ⟨fun _ ht => absurd rfl ht, fun _ _ => id, fun _ _ => trivial,
    .free rfl (.inl rfl) rfl rfl rfl⟩

end

/-! ## Runs -/

def State.UnderWay (s : State T ν) (n : Note ν) : Prop :=
  (∃ t, s.pc t = .wait n ∨ s.pc t = .unlock n) ∨
    s.lua = .handled n ∨ s.lua = .trigger (.wait n) ∨ s.lua = .trigger (.unlock n)

/-- A call that has filled the buffer and whose notification has not been made. -/
def State.Stored (s : State T ν) (n : Note ν) : Prop :=
  (∃ t, s.pc t = .emit n ∨ s.pc t = .wait n ∧ (0 < s.signals ∨ ∃ k, s.lua = .hook k false)) ∨
    s.lua = .trigger (.emit n)

section

variable {s : State T ν}

theorem Inv.made (h : Inv s) :
    ∃ l, Made s l ∧ l.length ≤ 1 ∧ ∀ n ∈ l, s.UnderWay n := by
  have hone : ∀ n, Made s [n] → s.UnderWay n →
      ∃ l, Made s l ∧ l.length ≤ 1 ∧ ∀ n ∈ l, s.UnderWay n :=
    fun n hmade hway => ⟨[n], hmade, le_refl 1, fun m hm => List.mem_singleton.mp hm ▸ hway⟩
  have hnone : Made s [] → ∃ l, Made s l ∧ l.length ≤ 1 ∧ ∀ n ∈ l, s.UnderWay n :=
    fun hmade => ⟨[], hmade, Nat.zero_le 1, nofun⟩
  cases h.stage with
  | free _ _ _ _ made => exact hnone made
  | thread t n _ stage =>
    cases stage with
    | store _ _ _ _ made => exact hnone made
    | emit _ _ _ _ _ made | sent _ _ _ _ _ made | hook _ _ _ _ _ made => exact hnone made
    | handled pc _ _ _ made | posted pc _ _ _ made => exact hone n made (.inl ⟨t, .inl pc⟩)
    | unlock pc _ _ _ made => exact hone n made (.inl ⟨t, .inr pc⟩)
  | lua n _ _ stage =>
    cases stage with
    | store _ _ made => exact hnone made
    | emit _ _ _ made => exact hnone made
    | handled lua _ made => exact hone n made (.inr (.inl lua))
    | wait lua _ made => exact hone n made (.inr (.inr (.inl lua)))
    | unlock lua _ made => exact hone n made (.inr (.inr (.inr lua)))

theorem Inv.buffer (h : Inv s) {n : Note ν} (hn : s.Stored n) : s.buffer = n := by
  rcases hn with ⟨t, hpc | ⟨hpc, hnext⟩⟩ | hlua
  · obtain ⟨-, m, hstage⟩ := h.holder (t := t) (by rw [hpc]; exact id)
    exact (hstage.of_emit hpc).2.2.2.1
  · obtain ⟨-, m, hstage⟩ := h.holder (t := t) (by rw [hpc]; exact id)
    exact hstage.buffer_of_wait hpc hnext
  · obtain ⟨-, -, m, hstage⟩ := h.triggerHolder hlua
    exact (hstage.of_emit hlua).2.1

end

end Mihini.Treemgr.ExtVars
