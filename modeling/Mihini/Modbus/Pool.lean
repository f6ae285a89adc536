import Mathlib.Logic.Function.Basic
import Mihini.Lib.LuaTable
import Mihini.Lib.Run

/-!
# The connections of a Modbus TCP device

`getsocket`, `process_request` and the request methods of
`src/luafwk/serialframework/modbus/modbustcp.lua`, called by any number of tasks.  A task stops where it
waits for the lock, or for the network.
-/

namespace Mihini.Modbus

open Mihini.Lib AList List

abbrev Str := List Char

structure Host where
  host : Str
  port : Int
  deriving DecidableEq

def Host.ofArguments (host : Str) (port : Option Int) : Host := ⟨host, port.getD 502⟩

structure Config where
  maxsocket : Nat
  positive : 0 < maxsocket
  /-- The mode is `"TCP"`, and not `"RTU"` or `"ASCII"`. -/
  isTcp : Bool
  /-- The task catches the errors of its requests. -/
  inPcall : Nat → Bool

inductive Phase where
  | out
  | waiting (id : Host)
  /-- In `link:connect`, for a link that no table has. -/
  | connecting (id : Host) (link : Nat)
  | sending (id : Host)
  | receiving (id : Host)
  | body (id : Host)
  deriving DecidableEq

def Phase.IsRunning : Phase → Prop
  | .out | .waiting _ => False
  | _ => True

instance : DecidablePred Phase.IsRunning
  | .out | .waiting _ => inferInstanceAs (Decidable False)
  | .connecting _ _ | .sending _ | .receiving _ | .body _ => inferInstanceAs (Decidable True)

def Phase.Uses (id : Host) : Phase → Prop
  | .sending x | .receiving x | .body x => x = id
  | _ => False

structure State where
  thost : List Host
  /-- The links are numbered in the order in which `socket.tcp` makes them. -/
  tlink : LuaTable Host Nat
  /-- The task that has the lock on `internal`. -/
  owner : Option Nat
  phase : Nat → Phase
  made : Nat

def State.init : State := ⟨[], ∅, none, fun _ => .out, 0⟩

inductive Serialized where
  | buffer
  | refused
  | raises
  deriving DecidableEq

inductive Parsed where
  | data
  | exception
  | failed
  deriving DecidableEq

namespace State

variable (s : State)

def setPhase (t : Nat) (p : Phase) : State := { s with phase := Function.update s.phase t p }

def finish (t : Nat) : State := { s.setPhase t .out with owner := none }

def raise (c : Config) (t : Nat) : State :=
  { s.setPhase t .out with owner := if c.inPcall t then s.owner else none }

def fail (t : Nat) (id : Host) : State := { s with tlink := s.tlink.erase id }.finish t

def parse (t : Nat) (id : Host) : Parsed → State
  | .data | .exception => s.finish t
  | .failed => s.fail t id

/-- The first host goes when there are as many as `maxsocket`, and its link is closed. -/
def evict (c : Config) : State :=
  if c.maxsocket ≤ s.thost.length then
    match s.thost with
    | [] => s
    | dhost :: rest => { s with thost := rest, tlink := s.tlink.erase dhost }
  else s

/-- `getsocket`, up to the connection of a new link; `created` tells whether `socket.tcp` makes one.
When it does not, the lock is released and the caller indexes `tlink` with `nil`, which is an error. -/
def getsocket (c : Config) (t : Nat) (id : Host) (created : Bool) : State :=
  if id ∈ s.tlink then s.setPhase t (.sending id)
  else
    let s := s.evict c
    if created then { s.setPhase t (.connecting id s.made) with made := s.made + 1 }
    else s.finish t

/-- A method is called on the link of a host, or on `nil`. -/
def onLink (c : Config) (t : Nat) (id : Host) (next : State) : State :=
  if id ∈ s.tlink then next else s.raise c t

end State

inductive Event where
  | call (t : Nat) (host : Str) (port : Option Int)
  | acquire (t : Nat) (id : Host) (serialized : Serialized) (created : Bool)
  | connected (t : Nat) (id : Host) (link : Nat)
  | sent (t : Nat) (id : Host) (ok : Bool)
  /-- `expected` is what the header says, if one has come. -/
  | header (t : Nat) (id : Host) (expected : Option Nat) (parsed : Parsed)
  /-- `receive` returns, whatever its result. -/
  | body (t : Nat) (id : Host) (parsed : Parsed)
  | response (t : Nat) (id : Host) (received : Bool) (parsed : Parsed)
  deriving DecidableEq

def Enabled (c : Config) (s : State) : Event → Prop
  | .call t _ _ => s.phase t = .out
  | .acquire t id _ _ => s.phase t = .waiting id ∧ s.owner = none
  | .connected t id link => s.phase t = .connecting id link
  | .sent t id _ => s.phase t = .sending id
  | .header t id _ _ => s.phase t = .receiving id ∧ c.isTcp = true
  | .body t id _ => s.phase t = .body id
  | .response t id _ _ => s.phase t = .receiving id ∧ c.isTcp = false

instance (c : Config) (s : State) (e : Event) : Decidable (Enabled c s e) := by
  cases e <;> unfold Enabled <;> infer_instance

def step (c : Config) (s : State) : Event → State
  -- A task that has the lock is refused by an assertion of `lock.lock`.
  | .call t host port =>
    if s.owner = some t then s else s.setPhase t (.waiting (.ofArguments host port))
  | .acquire t id serialized created =>
    let s := { s with owner := some t }
    match serialized with
    | .buffer => s.getsocket c t id created
    | .refused => s.finish t
    | .raises => s.raise c t
  | .connected t id link =>
    { s.setPhase t (.sending id) with
      thost := s.thost ++ [id]
      tlink := s.tlink.insert id link }
  | .sent t id ok =>
    s.onLink c t id (if ok then s.setPhase t (.receiving id) else s.fail t id)
  | .header t id expected parsed =>
    s.onLink c t id <| match expected with
      | none => s.fail t id
      | some 0 => s.parse t id parsed
      | some _ => s.setPhase t (.body id)
  | .body t id parsed => s.onLink c t id (s.parse t id parsed)
  | .response t id received parsed =>
    s.onLink c t id (if received then s.parse t id parsed else s.fail t id)

def Event.FailsOn (id : Host) : Event → Prop
  | .sent _ x ok => x = id ∧ ok = false
  | .header _ x expected parsed =>
    x = id ∧ (expected = none ∨ expected = some 0 ∧ parsed = .failed)
  | .body _ x parsed => x = id ∧ parsed = .failed
  | .response _ x received parsed => x = id ∧ (received = false ∨ parsed = .failed)
  | .call _ _ _ | .acquire _ _ _ _ | .connected _ _ _ => False

def Event.host : Event → Host
  | .call _ host port => .ofArguments host port
  | .acquire _ id _ _ | .connected _ id _ | .sent _ id _ | .header _ id _ _ | .body _ id _
  | .response _ id _ _ => id

instance (id : Host) (e : Event) : Decidable (e.FailsOn id) := by
  cases e <;> unfold Event.FailsOn <;> infer_instance

def Sound (c : Config) (e : Event) : Prop :=
  ¬ e.FailsOn e.host ∧
    match e with
    | .acquire t _ .raises _ => c.inPcall t = false
    | _ => True

instance (c : Config) (e : Event) : Decidable (Sound c e) := by
  unfold Sound
  cases e with
  | acquire t id serialized created => cases serialized <;> infer_instance
  | _ => infer_instance

/-- The list has the host of each open link once, there are no more links than `maxsocket`, and the
lock belongs to the request that is running. -/
structure Correct (c : Config) (s : State) : Prop where
  hosts : s.thost.Perm s.tlink.keys
  bound : s.tlink.keys.length ≤ c.maxsocket
  lock : ∀ t, s.owner = some t ↔ (s.phase t).IsRunning

/-! ## The tables -/

structure Pool (c : Config) (s : State) : Prop where
  hosts : s.thost.Perm s.tlink.keys
  bound : s.thost.length ≤ c.maxsocket
  made : ∀ id l, s.tlink.lookup id = some l → l < s.made
  age : s.thost.Pairwise fun a b =>
    ∀ l m, s.tlink.lookup a = some l → s.tlink.lookup b = some m → l < m

section

variable {c : Config} {s : State}

theorem Pool.mem (h : Pool c s) {id : Host} : id ∈ s.thost ↔ id ∈ s.tlink :=
  h.hosts.mem_iff.trans mem_keys.symm

theorem Pool.congr {s' : State} (h : Pool c s) (hthost : s'.thost = s.thost)
    (htlink : s'.tlink = s.tlink) (hmade : s.made ≤ s'.made) : Pool c s' where
  hosts := by
    rw [hthost, htlink]
    exact h.hosts
  bound := by
    rw [hthost]
    exact h.bound
  made id l hl := by
    rw [htlink] at hl
    exact Nat.lt_of_lt_of_le (h.made id l hl) hmade
  age := by
    rw [hthost, htlink]
    exact h.age

theorem lookup_of_erase {t : LuaTable Host Nat} {d id : Host} {l : Nat}
    (h : (t.erase d).lookup id = some l) : t.lookup id = some l := by
  by_cases heq : id = d
  · rw [heq, lookup_erase] at h
    cases h
  · rwa [lookup_erase_ne heq] at h

theorem Pool.tail (h : Pool c s) {dhost : Host} {rest : List Host} (hthost : s.thost = dhost :: rest) :
    Pool c { s with thost := rest, tlink := s.tlink.erase dhost } := by
  have hhosts := h.hosts
  have hbound := h.bound
  have hage := h.age
  rw [hthost] at hhosts hbound hage
  refine ⟨?_, Nat.le_of_succ_le hbound, ?_, ?_⟩
  · show rest.Perm (s.tlink.erase dhost).keys
    rw [keys_erase, ← erase_cons_head dhost rest]
    exact hhosts.erase dhost
  · intro id l hl
    exact h.made id l (lookup_of_erase hl)
  · refine hage.of_cons.imp ?_
    intro a b hab l m hl hm
    exact hab l m (lookup_of_erase hl) (lookup_of_erase hm)

theorem evict_pool (h : Pool c s) :
    Pool c (s.evict c) ∧ (s.evict c).thost.length < c.maxsocket := by
  unfold State.evict
  by_cases hfull : c.maxsocket ≤ s.thost.length
  · rw [if_pos hfull]
    cases hthost : s.thost with
    | nil =>
      rw [hthost] at hfull
      exact absurd (Nat.le_zero.mp hfull) (Nat.ne_of_gt c.positive)
    | cons dhost rest =>
      have hbound := h.bound
      rw [hthost] at hbound
      exact ⟨h.tail hthost, hbound⟩
  · rw [if_neg hfull]
    exact ⟨h, Nat.lt_of_not_le hfull⟩

theorem Pool.insert (h : Pool c s) {id : Host} {link : Nat} (hnew : id ∉ s.tlink)
    (hroom : s.thost.length < c.maxsocket) (hlink : link < s.made)
    (hlast : ∀ x m, s.tlink.lookup x = some m → m < link) :
    Pool c { s with thost := s.thost ++ [id], tlink := s.tlink.insert id link } := by
  have hne : ∀ x ∈ s.thost, x ≠ id := fun x hx heq => hnew (heq ▸ h.mem.mp hx)
  have hlookup : ∀ x m, x ≠ id → (s.tlink.insert id link).lookup x = some m →
      s.tlink.lookup x = some m := by
    intro x m hx hm
    rwa [lookup_insert_ne hx] at hm
  refine ⟨?_, ?_, ?_, ?_⟩
  · show (s.thost ++ [id]).Perm (s.tlink.insert id link).keys
    rw [keys_insert, erase_of_not_mem (fun hmem => hnew (mem_keys.mpr hmem))]
    exact (perm_append_singleton id s.thost).trans (h.hosts.cons id)
  · show (s.thost ++ [id]).length ≤ c.maxsocket
    rw [length_append]
    exact hroom
  · intro x l hl
    by_cases heq : x = id
    · have hl' : (s.tlink.insert id link).lookup x = some l := hl
      rw [heq, lookup_insert] at hl'
      exact Option.some.inj hl' ▸ hlink
    · exact h.made x l (hlookup x l heq hl)
  · refine pairwise_append.mpr ⟨?_, pairwise_singleton _ _, ?_⟩
    · refine h.age.imp_of_mem ?_
      intro a b ha hb hab l m hl hm
      exact hab l m (hlookup a l (hne a ha) hl) (hlookup b m (hne b hb) hm)
    · intro a ha b hb l m hl hm
      have hm' : (s.tlink.insert id link).lookup b = some m := hm
      rw [mem_singleton.mp hb, lookup_insert] at hm'
      exact Option.some.inj hm' ▸ hlast a l (hlookup a l (hne a ha) hl)

end

/-! ## The requests -/

structure Inv (c : Config) (s : State) : Prop where
  pool : Pool c s
  lock : ∀ t, s.owner = some t ↔ (s.phase t).IsRunning
  uses : ∀ t id, (s.phase t).Uses id → id ∈ s.tlink
  connecting : ∀ t id link, s.phase t = .connecting id link →
    id ∉ s.tlink ∧ s.thost.length < c.maxsocket ∧ link < s.made ∧
      ∀ x m, s.tlink.lookup x = some m → m < link

theorem Phase.Uses.isRunning {p : Phase} {id : Host} (h : p.Uses id) : p.IsRunning := by
  cases p with
  | out | waiting _ | connecting _ _ => exact h.elim
  | sending _ | receiving _ | body _ => trivial

theorem Phase.Uses.unique {p : Phase} {id x : Host} (h : p.Uses id) (hx : p.Uses x) : id = x := by
  cases p with
  | out | waiting _ | connecting _ _ => exact h.elim
  | sending _ | receiving _ | body _ => exact h.symm.trans hx

def Event.IsExchange : Event → Prop
  | .call _ _ _ | .acquire _ _ _ _ | .connected _ _ _ => False
  | .sent _ _ _ | .header _ _ _ _ | .body _ _ _ | .response _ _ _ _ => True

section

variable {c : Config} {s s' : State}

theorem phase_setPhase_self (t : Nat) (p : Phase) : (s.setPhase t p).phase t = p :=
  Function.update_self ..

theorem phase_setPhase_of_ne {t u : Nat} (hu : u ≠ t) (p : Phase) :
    (s.setPhase t p).phase u = s.phase u :=
  Function.update_of_ne hu _ _

theorem Inv.correct (h : Inv c s) : Correct c s :=
  ⟨h.pool.hosts, h.pool.hosts.length_eq ▸ h.pool.bound, h.lock⟩

variable {t : Nat}

theorem Inv.others (h : Inv c s) (hlock : s.owner = none ∨ s.owner = some t) {u : Nat}
    (hu : u ≠ t) : ¬ (s.phase u).IsRunning := by
  intro hrunning
  have howner := (h.lock u).mpr hrunning
  rcases hlock with hnone | htask
  · exact nomatch hnone.symm.trans howner
  · exact hu (Option.some.inj (howner.symm.trans htask))

variable {p : Phase}

theorem Inv.of_update (hpool : Pool c s')
    (hothers : ∀ u, u ≠ t → ¬ (s.phase u).IsRunning)
    (hphase : s'.phase = Function.update s.phase t p)
    (howner : s'.owner = if p.IsRunning then some t else none)
    (huses : ∀ id, p.Uses id → id ∈ s'.tlink)
    (hconnecting : ∀ id link, p = .connecting id link →
      id ∉ s'.tlink ∧ s'.thost.length < c.maxsocket ∧ link < s'.made ∧
        ∀ x m, s'.tlink.lookup x = some m → m < link) : Inv c s' := by
  have hrunning : ∀ u, (s'.phase u).IsRunning → u = t ∧ s'.phase u = p := by
    intro u hu
    by_cases heq : u = t
    · rw [hphase, heq, Function.update_self]
      exact ⟨rfl, rfl⟩
    · rw [hphase, Function.update_of_ne heq] at hu
      exact absurd hu (hothers u heq)
  refine ⟨hpool, fun u => ?_, fun u id hu => ?_, fun u id link hu => ?_⟩
  · rw [howner]
    constructor
    · intro heq
      by_cases hp : p.IsRunning
      · rw [if_pos hp] at heq
        rw [← Option.some.inj heq, hphase, Function.update_self]
        exact hp
      · rw [if_neg hp] at heq
        cases heq
    · intro hu
      obtain ⟨heq, hp⟩ := hrunning u hu
      rw [if_pos (hp ▸ hu), heq]
  · obtain ⟨-, hp⟩ := hrunning u hu.isRunning
    exact huses id (hp ▸ hu)
  · obtain ⟨-, hp⟩ := hrunning u (by rw [hu]; trivial)
    exact hconnecting id link (hp.symm.trans hu)

theorem Inv.finish (h : Inv c s) (hlock : s.owner = none ∨ s.owner = some t) :
    Inv c (s.finish t) :=
  .of_update (h.pool.congr rfl rfl (Nat.le_refl _)) (fun _ => h.others hlock) rfl rfl
    (fun _ h => h.elim) nofun

variable {id : Host}

theorem Inv.setPhase (h : Inv c s) (hlock : s.owner = some t)
    (huses : p.Uses id) (hid : id ∈ s.tlink) : Inv c (s.setPhase t p) := by
  refine .of_update (h.pool.congr rfl rfl (Nat.le_refl _)) (fun _ => h.others (.inr hlock)) rfl
    (hlock.trans (if_pos huses.isRunning).symm) ?_ ?_
  · intro x hx
    exact huses.unique hx ▸ hid
  · intro x link heq
    rw [heq] at huses
    exact huses.elim

theorem Inv.setIdle (h : Inv c s) (ht : ¬ (s.phase t).IsRunning)
    (hp : ¬ p.IsRunning) : Inv c (s.setPhase t p) := by
  have hrunning : ∀ u, ((s.setPhase t p).phase u).IsRunning →
      u ≠ t ∧ (s.setPhase t p).phase u = s.phase u := by
    intro u hu
    have hut : u ≠ t := by
      intro heq
      rw [heq, phase_setPhase_self] at hu
      exact hp hu
    exact ⟨hut, phase_setPhase_of_ne hut p⟩
  refine ⟨h.pool.congr rfl rfl (Nat.le_refl _), fun u => ?_, fun u id hu => ?_,
    fun u id link hu => ?_⟩
  · rw [show (s.setPhase t p).owner = s.owner from rfl, h.lock]
    constructor
    · intro hu
      have hut : u ≠ t := fun heq => ht (heq ▸ hu)
      rw [phase_setPhase_of_ne hut]
      exact hu
    · intro hu
      rw [← (hrunning u hu).2]
      exact hu
  · rw [(hrunning u hu.isRunning).2] at hu
    exact h.uses u id hu
  · rw [(hrunning u (by rw [hu]; trivial)).2] at hu
    exact h.connecting u id link hu

theorem evict_frame : (s.evict c).phase = s.phase ∧ (s.evict c).owner = s.owner ∧
    (s.evict c).made = s.made ∧ ∀ id l, (s.evict c).tlink.lookup id = some l →
      s.tlink.lookup id = some l := by
  unfold State.evict
  by_cases hfull : c.maxsocket ≤ s.thost.length
  · rw [if_pos hfull]
    cases s.thost with
    | nil => exact ⟨rfl, rfl, rfl, fun _ _ h => h⟩
    | cons dhost rest => exact ⟨rfl, rfl, rfl, fun _ _ h => lookup_of_erase h⟩
  · rw [if_neg hfull]
    exact ⟨rfl, rfl, rfl, fun _ _ h => h⟩

/-- A task that has just taken the lock gets a link, or begins to connect one. -/
theorem getsocket_inv {created : Bool} (hpool : Pool c s)
    (hothers : ∀ u, u ≠ t → ¬ (s.phase u).IsRunning) (howner : s.owner = some t) :
    Inv c (s.getsocket c t id created) := by
  unfold State.getsocket
  by_cases hid : id ∈ s.tlink
  · rw [if_pos hid]
    exact .of_update (p := .sending id) (hpool.congr rfl rfl (Nat.le_refl _)) hothers rfl howner
      (fun x hx => hx ▸ hid) nofun
  rw [if_neg hid]
  obtain ⟨hevict, hroom⟩ := evict_pool hpool
  obtain ⟨hphase, howner', hmade, hlookup⟩ := evict_frame (c := c) (s := s)
  cases created with
  | false =>
    exact .of_update (p := .out) (hevict.congr rfl rfl (Nat.le_refl _)) hothers
      (by rw [← hphase]; rfl) rfl (fun _ h => h.elim) nofun
  | true =>
    refine .of_update (p := .connecting id (s.evict c).made)
      (hevict.congr rfl rfl (Nat.le_succ _)) hothers
      (by rw [← hphase]; rfl)
      (howner'.trans howner) (fun _ h => h.elim) ?_
    intro x link heq
    obtain ⟨rfl, rfl⟩ := Phase.connecting.inj heq
    refine ⟨fun hmem => hid ?_, hroom, Nat.lt_succ_self _, fun x m hm => hevict.made x m hm⟩
    obtain ⟨l, hl⟩ := Option.isSome_iff_exists.mp (lookup_isSome.mpr hmem)
    exact lookup_isSome.mp (Option.isSome_iff_exists.mpr ⟨l, hlookup _ l hl⟩)

variable {e : Event}

/-- An exchange goes on, ends, or fails and closes the link of its host. -/
theorem exchange_cases (h : Inv c s) (he : Enabled c s e) (hexchange : e.IsExchange) :
    ∃ t, s.owner = some t ∧ e.host ∈ s.tlink ∧
      (e.FailsOn e.host ∧ step c s e = s.fail t e.host ∨
        ¬ e.FailsOn e.host ∧ (step c s e = s.finish t ∨
          ∃ p : Phase, p.Uses e.host ∧ step c s e = s.setPhase t p)) := by
  have hlink : ∀ t id p, s.phase t = p → p.Uses id → s.owner = some t ∧ id ∈ s.tlink := by
    intro t id p hp huses
    subst hp
    exact ⟨(h.lock t).mpr huses.isRunning, h.uses t id huses⟩
  have hparse : ∀ t id parsed, parsed ≠ .failed → s.parse t id parsed = s.finish t := by
    intro t id parsed hparsed
    cases parsed with
    | data | exception => rfl
    | failed => exact absurd rfl hparsed
  cases e with
  | call _ _ _ | acquire _ _ _ _ | connected _ _ _ => exact hexchange.elim
  | sent t id ok =>
    obtain ⟨howner, hid⟩ := hlink t id _ he rfl
    refine ⟨t, howner, hid, ?_⟩
    rw [show step c s (.sent t id ok) = if id ∈ s.tlink then _ else _ from rfl, if_pos hid]
    cases ok with
    | false => exact .inl ⟨⟨rfl, rfl⟩, rfl⟩
    | true => exact .inr ⟨fun hfails => (nomatch hfails.2), .inr ⟨.receiving id, rfl, rfl⟩⟩
  | header t id expected parsed =>
    obtain ⟨howner, hid⟩ := hlink t id _ he.1 rfl
    refine ⟨t, howner, hid, ?_⟩
    rw [show step c s (.header t id expected parsed) = if id ∈ s.tlink then _ else _ from rfl,
      if_pos hid]
    match expected with
    | none => exact .inl ⟨⟨rfl, .inl rfl⟩, rfl⟩
    | some (n + 1) =>
      refine .inr ⟨fun hfails => ?_, .inr ⟨.body id, rfl, rfl⟩⟩
      rcases hfails.2 with heq | heq <;> simp at heq
    | some 0 =>
      by_cases hparsed : parsed = .failed
      · exact .inl ⟨⟨rfl, .inr ⟨rfl, hparsed⟩⟩, by rw [hparsed]; rfl⟩
      · refine .inr ⟨fun hfails => ?_, .inl (hparse t id parsed hparsed)⟩
        rcases hfails.2 with heq | heq
        · cases heq
        · exact hparsed heq.2
  | body t id parsed =>
    obtain ⟨howner, hid⟩ := hlink t id _ he rfl
    refine ⟨t, howner, hid, ?_⟩
    rw [show step c s (.body t id parsed) = if id ∈ s.tlink then _ else _ from rfl, if_pos hid]
    by_cases hparsed : parsed = .failed
    · exact .inl ⟨⟨rfl, hparsed⟩, by rw [hparsed]; rfl⟩
    · exact .inr ⟨fun hfails => hparsed hfails.2, .inl (hparse t id parsed hparsed)⟩
  | response t id received parsed =>
    obtain ⟨howner, hid⟩ := hlink t id _ he.1 rfl
    refine ⟨t, howner, hid, ?_⟩
    rw [show step c s (.response t id received parsed) = if id ∈ s.tlink then _ else _ from rfl,
      if_pos hid]
    cases received with
    | false => exact .inl ⟨⟨rfl, .inl rfl⟩, rfl⟩
    | true =>
      by_cases hparsed : parsed = .failed
      · exact .inl ⟨⟨rfl, .inr hparsed⟩, by rw [hparsed]; rfl⟩
      · refine .inr ⟨fun hfails => ?_, .inl (hparse t id parsed hparsed)⟩
        rcases hfails.2 with heq | heq
        · cases heq
        · exact hparsed heq

theorem step_inv (h : Inv c s) (he : Enabled c s e) (hsound : Sound c e) :
    Inv c (step c s e) := by
  cases e with
  | call t host port =>
    have hphase : s.phase t = .out := he
    show Inv c (if s.owner = some t then s else _)
    by_cases howner : s.owner = some t
    · rw [if_pos howner]
      exact h
    · rw [if_neg howner]
      exact h.setIdle (by rw [hphase]; exact id) id
  | acquire t id serialized created =>
    obtain ⟨hphase, howner⟩ := he
    have hothers : ∀ u, u ≠ t → ¬ (s.phase u).IsRunning := fun _ => h.others (.inl howner)
    cases serialized with
    | buffer => exact getsocket_inv (h.pool.congr rfl rfl (Nat.le_refl _)) hothers rfl
    | refused =>
      exact .of_update (p := .out) (h.pool.congr rfl rfl (Nat.le_refl _)) hothers rfl rfl
        (fun _ h => h.elim) nofun
    | raises =>
      refine .of_update (p := .out) (h.pool.congr rfl rfl (Nat.le_refl _)) hothers rfl ?_
        (fun _ h => h.elim) nofun
      exact if_neg (Bool.eq_false_iff.mp hsound.2)
  | connected t id link =>
    have hphase : s.phase t = .connecting id link := he
    obtain ⟨hnew, hroom, hlink, hlast⟩ := h.connecting t id link hphase
    have howner : s.owner = some t := (h.lock t).mpr (by rw [hphase]; trivial)
    refine .of_update (p := .sending id)
      ((h.pool.insert hnew hroom hlink hlast).congr rfl rfl (Nat.le_refl _))
      (fun _ => h.others (.inr howner)) rfl howner ?_ nofun
    intro x hx
    rw [← hx]
    exact (mem_insert _).mpr (.inl rfl)
  | _ =>
    obtain ⟨t, howner, hid, hcases⟩ := exchange_cases h he trivial
    rcases hcases with hfails | ⟨-, heq | ⟨p, huses, heq⟩⟩
    · exact absurd hfails.1 hsound.1
    · rw [heq]
      exact h.finish (.inr howner)
    · rw [heq]
      exact h.setPhase howner huses hid

theorem fail_not_correct (h : Inv c s) (hid : id ∈ s.tlink) :
    ¬ Correct c (s.fail t id) := by
  intro hcorrect
  have hmem : id ∈ (s.tlink.erase id).keys := hcorrect.hosts.mem_iff.mp (h.pool.mem.mpr hid)
  exact (mem_erase.mp (mem_keys.mpr hmem)).1 rfl

/-- What the tables are after an event that is not sound. -/
theorem not_sound (h : Inv c s) (he : Enabled c s e) (hsound : ¬ Sound c e) :
    ¬ Correct c (step c s e) := by
  cases e with
  | call t host port => exact absurd ⟨id, trivial⟩ hsound
  | connected t id link => exact absurd ⟨fun h => h, trivial⟩ hsound
  | acquire t id serialized created =>
    cases serialized with
    | buffer | refused => exact absurd ⟨fun h => h, trivial⟩ hsound
    | raises =>
      have hcaught : c.inPcall t = true := by
        cases hc : c.inPcall t with
        | true => rfl
        | false => exact absurd ⟨fun h => h, hc⟩ hsound
      intro hcorrect
      have howner : (step c s (.acquire t id .raises created)).owner = some t := if_pos hcaught
      have hrunning := (hcorrect.lock t).mp howner
      have hphase : (step c s (.acquire t id .raises created)).phase t = .out :=
        Function.update_self ..
      rw [hphase] at hrunning
      exact hrunning
  | _ =>
    obtain ⟨t, -, hid, hcases⟩ := exchange_cases h he trivial
    rcases hcases with hfails | hgoes
    · rw [hfails.2]
      exact fail_not_correct h hid
    · exact absurd ⟨hgoes.1, trivial⟩ hsound

def IsOldest (c : Config) (s : State) (id : Host) : Prop :=
  c.maxsocket ≤ s.tlink.keys.length ∧
    ∀ x l m, s.tlink.lookup id = some l → s.tlink.lookup x = some m → l ≤ m

theorem evict_oldest (h : Pool c s)
    (hclosed : (s.evict c).tlink.lookup id ≠ s.tlink.lookup id) : IsOldest c s id := by
  unfold State.evict at hclosed
  by_cases hfull : c.maxsocket ≤ s.thost.length
  · rw [if_pos hfull] at hclosed
    refine ⟨h.hosts.length_eq ▸ hfull, fun x l m hl hm => ?_⟩
    have hage := h.age
    have hmem := h.mem.mpr (lookup_isSome.mp (Option.isSome_iff_exists.mpr ⟨m, hm⟩))
    cases hthost : s.thost with
    | nil => exact absurd (by rw [hthost]) hclosed
    | cons dhost rest =>
      rw [hthost] at hclosed hage hmem
      have heq : id = dhost := by
        by_contra hne
        exact hclosed (lookup_erase_ne hne)
      rcases mem_cons.mp hmem with hx | hx
      · rw [hx, ← heq, hl] at hm
        exact Nat.le_of_eq (Option.some.inj hm)
      · exact Nat.le_of_lt (rel_of_pairwise_cons hage hx l m (heq ▸ hl) hm)
  · rw [if_neg hfull] at hclosed
    exact absurd rfl hclosed

theorem fail_closes {id x : Host}
    (hclosed : (s.fail t x).tlink.lookup id ≠ s.tlink.lookup id) : x = id := by
  by_contra hne
  exact hclosed (lookup_erase_ne (Ne.symm hne))

/-- A link is closed by a failure of its own exchange, or because it is the oldest one. -/
theorem closed_cases (h : Inv c s) (he : Enabled c s e) (hid : id ∈ s.tlink)
    (hclosed : (step c s e).tlink.lookup id ≠ s.tlink.lookup id) :
    e.FailsOn id ∨ IsOldest c s id := by
  cases e with
  | call t host port =>
    have htlink : (step c s (.call t host port)).tlink = s.tlink := by
      show (if s.owner = some t then s else _).tlink = _
      by_cases howner : s.owner = some t
      · rw [if_pos howner]
      · rw [if_neg howner]
        rfl
    exact absurd (by rw [htlink]) hclosed
  | connected t x link =>
    have hne : id ≠ x := fun heq => (h.connecting t x link he).1 (heq ▸ hid)
    exact absurd (lookup_insert_ne hne) hclosed
  | acquire t x serialized created =>
    cases serialized with
    | refused | raises => exact absurd rfl hclosed
    | buffer =>
      have hpool : Pool c { s with owner := some t } := h.pool.congr rfl rfl (Nat.le_refl _)
      refine .inr (evict_oldest (s := { s with owner := some t }) hpool fun heq => hclosed ?_)
      show (State.getsocket { s with owner := some t } c t x created).tlink.lookup id = _
      unfold State.getsocket
      by_cases hx : x ∈ s.tlink
      · rw [if_pos hx]
        rfl
      · rw [if_neg hx]
        cases created <;> exact heq
  | _ =>
    obtain ⟨t, -, -, hcases⟩ := exchange_cases h he trivial
    rcases hcases with ⟨hfails, heq⟩ | ⟨-, heq | ⟨p, -, heq⟩⟩
    · rw [heq] at hclosed
      exact .inl (fail_closes hclosed ▸ hfails)
    · exact absurd (by rw [heq]; rfl) hclosed
    · exact absurd (by rw [heq]; rfl) hclosed

end

/-! ## Runs -/

theorem init_inv (c : Config) : Inv c .init where
  pool := {
    hosts := .nil
    bound := Nat.zero_le _
    made := nofun
    age := .nil }
  lock _ := ⟨nofun, False.elim⟩
  uses _ _ h := h.elim
  connecting := nofun

/-- In every run of requests without a failure, the list has each open link's host once, and the links
and the lock are as they should.  The next event keeps this exactly when it is sound, and whatever it
is, it closes a link only because of the link's own failure or because it is the oldest of a full
pool. -/
theorem pool_correct {c : Config} {s : State}
    (h : Runs (step c) (fun s e => Enabled c s e ∧ Sound c e) .init s) :
    Correct c s ∧ ∀ e, Enabled c s e →
      (Correct c (step c s e) ↔ Sound c e) ∧
      ∀ id ∈ s.tlink, (step c s e).tlink.lookup id ≠ s.tlink.lookup id →
        e.FailsOn id ∨ IsOldest c s id := by
  have hinv := h.invariant (I := Inv c) (fun _ _ he hs => step_inv hs he.1 he.2) (init_inv c)
  refine ⟨hinv.correct, fun e he => ⟨⟨fun hcorrect => ?_, fun hsound => ?_⟩, ?_⟩⟩
  · by_contra hsound
    exact not_sound hinv he hsound hcorrect
  · exact (step_inv hinv he hsound).correct
  · intro id hid
    exact closed_cases hinv he hid

def oneSocket : Config := ⟨1, Nat.one_pos, true, fun _ => false⟩

/-- Two tasks ask two hosts, one after the other. -/
theorem pool_correct_two :
    let events : List Event := [.call 1 ['a'] none, .call 2 ['b'] (some 80),
      .acquire 1 ⟨['a'], 502⟩ .buffer true, .connected 1 ⟨['a'], 502⟩ 0, .sent 1 ⟨['a'], 502⟩ true,
      .header 1 ⟨['a'], 502⟩ (some 5) .data, .body 1 ⟨['a'], 502⟩ .data,
      .acquire 2 ⟨['b'], 80⟩ .buffer true, .connected 2 ⟨['b'], 80⟩ 1]
    Correct oneSocket (events.foldl (step oneSocket) .init) :=
  (pool_correct (Along.runs (show Along (step oneSocket)
    (fun s e => Enabled oneSocket s e ∧ Sound oneSocket e) .init
    [.call 1 ['a'] none, .call 2 ['b'] (some 80), .acquire 1 ⟨['a'], 502⟩ .buffer true,
      .connected 1 ⟨['a'], 502⟩ 0, .sent 1 ⟨['a'], 502⟩ true,
      .header 1 ⟨['a'], 502⟩ (some 5) .data, .body 1 ⟨['a'], 502⟩ .data,
      .acquire 2 ⟨['b'], 80⟩ .buffer true, .connected 2 ⟨['b'], 80⟩ 1]
    from by decide))).1

/-- A host whose exchange failed stays in the list, and comes a second time when it is asked again.  A
request to another host then closes its link, although there is room. -/
theorem failed_host_stays :
    let c : Config := ⟨2, Nat.two_pos, true, fun _ => false⟩
    let a : Host := ⟨['a'], 502⟩
    let b : Host := ⟨['b'], 502⟩
    let events : List Event := [.call 1 ['a'] none, .acquire 1 a .buffer true, .connected 1 a 0,
      .sent 1 a false, .call 1 ['a'] none, .acquire 1 a .buffer true, .connected 1 a 1]
    let s := events.foldl (step c) .init
    let last : List Event := [.sent 1 a true, .header 1 a (some 0) .data, .call 1 ['b'] none,
      .acquire 1 b .buffer true]
    Along (step c) (Enabled c) .init (events ++ last) ∧
      s.thost = [a, a] ∧ s.tlink.keys = [a] ∧ (last.foldl (step c) s).tlink.keys = [] := by
  decide

end Mihini.Modbus
