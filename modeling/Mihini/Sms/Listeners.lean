import Mihini.Airvantage.Messages
import Mihini.Lib.Keyed
import Mihini.Lib.Run

/-!
# The listeners for short messages

`src/cfwk/sms/swi_sms.c`: the linked list of listeners of a client, with what the agent's
`EMPRegisterSMSListener` of `src/agent/agent/asscon/sms.lua` answers to it.  Beside the list the state
keeps the registrations as the application knows them.
-/

namespace Mihini.Sms

open Mihini.Lib Mihini.Airvantage List

/-! ## The list -/

/-- `cb_list_t`, at the address `node`. -/
structure Entry where
  node : Nat
  regId : Int
  cb : Nat
  payload : Str × Str
  deriving DecidableEq

/-- The conversion of a `long long` to an `int`. -/
def toInt (i : Int) : Int := i.bmod (2 ^ 32)

/-- The first loop of `swi_sms_Unregister`. -/
def search (node : Nat) : List Entry → Option Entry
  | [] => none
  | entry :: rest => if entry.node = node then some entry else search node rest

/-- The loop for an inner entry: `entry->next = tmp->next`, where `entry` comes before the node. -/
def unlink (node : Nat) : List Entry → List Entry
  | entry :: tmp :: rest =>
    if tmp.node = node then entry :: rest else entry :: unlink node (tmp :: rest)
  | l => l

/-- What `swi_sms_Unregister` does under the lock: an entry at the head of the list is freed, and
`cb_list` is set to `NULL`. -/
def remove (node : Nat) : List Entry → List Entry
  | [] => []
  | entry :: rest => if entry.node = node then [] else unlink node (entry :: rest)

structure Delivery where
  cb : Nat
  sender : Str
  message : Str
  deriving DecidableEq

def deliver (sender message : Str) (regId : Int) : List Entry → List Delivery
  | [] => []
  | entry :: rest =>
    if entry.regId = regId then [⟨entry.cb, sender, message⟩]
    else deliver sender message regId rest

/-- `newSmsHdlr`; there is no result for an array that is read beyond its end. -/
def newSmsHdlr (cbList : List Entry) : List Json → Option (List Delivery)
  | .string sender :: .string message :: .number regId :: _ =>
    some (deliver sender message (toInt regId.i) cbList)
  | [] | [.string _] | [.string _, .string _] => none
  | _ => some []

/-! ## The exchanges with the agent -/

inductive Answer where
  | granted
  /-- The agent gives an id, and its answer comes too late, not at all, or damaged. -/
  | unheard (rc : Rc)
  | refused (rc : Rc)
  deriving DecidableEq

/-- A registration, as the application knows it: the `id` is the last one that the agent gave it. -/
structure Registration where
  node : Nat
  id : Int
  cb : Nat
  payload : Str × Str
  deriving DecidableEq

def Registration.entry (r : Registration) : Entry := ⟨r.node, toInt r.id, r.cb, r.payload⟩

def Entry.setId (id : Int) (e : Entry) : Entry := { e with regId := toInt id }

def Registration.setId (id : Int) (r : Registration) : Registration := { r with id := id }

structure State where
  cbList : List Entry
  registerid : Int
  /-- The registrations that have succeeded and have not been given up, in their order. -/
  registrations : List Registration
  deriving DecidableEq

def State.init : State := ⟨[], 0, []⟩

/-- `swi_sms_Register`.  `node` is the address that `malloc` returns. -/
def register (s : State) (callback : Option Nat) (senderPattern messagePattern : Option Str)
    (hasRegIdPtr : Bool) (node : Nat) (answer : Answer) : State × Rc :=
  match callback, hasRegIdPtr with
  | some cb, true =>
    let payload := (senderPattern.getD [], messagePattern.getD [])
    match answer with
    | .granted =>
      let id := s.registerid + 1
      ({ cbList := s.cbList ++ [⟨node, toInt id, cb, payload⟩]
         registerid := id
         registrations := s.registrations ++ [⟨node, id, cb, payload⟩] }, .ok)
    | .unheard rc => ({ s with registerid := s.registerid + 1 }, rc)
    | .refused rc => (s, rc)
  | _, _ => (s, .badParameter)

/-- `swi_sms_Unregister`.  `rc` is what the exchange with the agent returns. -/
def unregister (s : State) (node : Nat) (rc : Rc) : State × Rc :=
  match search node s.cbList with
  | none => (s, .badParameter)
  | some _ =>
    if rc = .ok then
      ({ s with
         cbList := remove node s.cbList
         registrations := s.registrations.filter fun r => r.node ≠ node }, rc)
    else (s, rc)

/-- The loop of `empReregisterServices` over the entries, and what it means for the registrations.
`set` changes an id, and `registerid` is the counter of the agent. -/
def renew {α : Type} (set : Int → α → α) (registerid : Int) : List Answer → List α → List α
  | .granted :: answers, entry :: rest =>
    set (registerid + 1) entry :: renew set (registerid + 1) answers rest
  | .unheard _ :: answers, entry :: rest => entry :: renew set (registerid + 1) answers rest
  | .refused _ :: answers, entry :: rest => entry :: renew set registerid answers rest
  | _, l => l

def countIds (registerid : Int) {α : Type} : List Answer → List α → Int
  | .refused _ :: answers, _ :: rest => countIds registerid answers rest
  | _ :: answers, _ :: rest => countIds (registerid + 1) answers rest
  | _, _ => registerid

/-- `empReregisterServices`; an agent that was started again counts from zero. -/
def reconnect (s : State) (restarted : Bool) (answers : List Answer) : State :=
  let registerid := if restarted then 0 else s.registerid
  { cbList := renew Entry.setId registerid answers s.cbList
    registerid := countIds registerid answers s.cbList
    registrations := renew Registration.setId registerid answers s.registrations }

inductive Event where
  | register (callback : Option Nat) (senderPattern messagePattern : Option Str) (hasRegIdPtr : Bool)
      (node : Nat) (answer : Answer)
  | unregister (node : Nat) (rc : Rc)
  | reconnect (restarted : Bool) (answers : List Answer)
  deriving DecidableEq

def Enabled (s : State) : Event → Prop
  | .register _ _ _ _ node _ => ∀ r ∈ s.registrations, r.node ≠ node
  | .unregister _ _ | .reconnect _ _ => True

instance (s : State) : DecidablePred (Enabled s)
  | .register _ _ _ _ _ _ => inferInstanceAs (Decidable (∀ r ∈ s.registrations, _))
  | .unregister _ _ | .reconnect _ _ => inferInstanceAs (Decidable True)

def step (s : State) : Event → State
  | .register callback senderPattern messagePattern hasRegIdPtr node answer =>
    (register s callback senderPattern messagePattern hasRegIdPtr node answer).1
  | .unregister node rc => (unregister s node rc).1
  | .reconnect restarted answers => reconnect s restarted answers

/-! ## What the list is for -/

def givenIds {α : Type} (registerid : Int) : List Answer → List α → List Int
  | .granted :: answers, _ :: rest => (registerid + 1) :: givenIds (registerid + 1) answers rest
  | .unheard _ :: answers, _ :: rest => givenIds (registerid + 1) answers rest
  | .refused _ :: answers, _ :: rest => givenIds registerid answers rest
  | _, _ => []

/-- The ids that the entries keep when the agent does not give them another one. -/
def keptIds : List Answer → List Entry → List Int
  | .granted :: answers, _ :: rest => keptIds answers rest
  | _ :: answers, entry :: rest => entry.regId :: keptIds answers rest
  | _, l => l.map Entry.regId

/-- An entry at the head of the list goes only when it is alone, and the agent gives no id that an
entry keeps from before. -/
def Sound (s : State) : Event → Prop
  | .register _ _ _ _ _ answer =>
    answer = .granted → ∀ e ∈ s.cbList, e.regId ≠ toInt (s.registerid + 1)
  | .unregister node rc =>
    rc = .ok → ∀ e ∈ s.cbList.head?, e.node = node → s.cbList.tail = []
  | .reconnect restarted answers =>
    (keptIds answers s.cbList ++
      (givenIds (if restarted then 0 else s.registerid) answers s.cbList).map toInt).Nodup

instance (s : State) : DecidablePred (Sound s)
  | .register _ _ _ _ _ answer => inferInstanceAs (Decidable (answer = .granted → _))
  | .unregister _ rc => inferInstanceAs (Decidable (rc = .ok → _))
  | .reconnect _ _ => inferInstanceAs (Decidable (List.Nodup _))

variable {l : List Entry} {node : Nat}

theorem unlink_eq_filter {entry : Entry}
    (hnodup : ((entry :: l).map Entry.node).Nodup) (hne : entry.node ≠ node) :
    unlink node (entry :: l) = (entry :: l).filter fun e => e.node ≠ node := by
  induction l generalizing entry with
  | nil => simp [unlink, hne]
  | cons tmp rest ih =>
    have hrest := (nodup_cons.mp hnodup).2
    rw [filter_cons_of_pos (by simpa using hne), unlink]
    by_cases htmp : tmp.node = node
    · rw [if_pos htmp, filter_cons_of_neg (by simpa using htmp), filter_eq_self.mpr]
      intro e he
      have hnew := (nodup_cons.mp hrest).1
      refine decide_eq_true fun heq => hnew ?_
      rw [htmp, ← heq]
      exact mem_map_of_mem he
    · rw [if_neg htmp, ih hrest htmp]

theorem remove_eq_filter_iff (hnodup : (l.map Entry.node).Nodup) :
    remove node l = l.filter (fun e => e.node ≠ node) ↔
      ∀ e ∈ l.head?, e.node = node → l.tail = [] := by
  cases l with
  | nil => simp [remove]
  | cons entry rest =>
    by_cases hentry : entry.node = node
    · have hnew := (nodup_cons.mp hnodup).1
      have hrest : rest.filter (fun e => e.node ≠ node) = rest := by
        refine filter_eq_self.mpr fun e he => decide_eq_true fun heq => hnew ?_
        rw [hentry, ← heq]
        exact mem_map_of_mem he
      rw [remove, if_pos hentry, filter_cons_of_neg (by simpa using hentry), hrest]
      constructor
      · intro hnil e _ _
        exact hnil.symm
      · intro h
        exact (h entry rfl hentry).symm
    · rw [remove, if_neg hentry, unlink_eq_filter hnodup hentry]
      refine iff_of_true rfl fun e he heq => absurd ?_ hentry
      rw [← heq, ← Option.some.inj he]

theorem search_isSome {e : Entry} (he : e ∈ l) (hnode : e.node = node) :
    (search node l).isSome = true := by
  induction l with
  | nil => cases he
  | cons entry rest ih =>
    rw [search]
    by_cases hentry : entry.node = node
    · rw [if_pos hentry]
      rfl
    · rw [if_neg hentry]
      cases he with
      | head => exact absurd hnode hentry
      | tail _ he => exact ih he

theorem deliver_of_mem (hnodup : (l.map Entry.regId).Nodup) {e : Entry} (he : e ∈ l)
    (sender message : Str) : deliver sender message e.regId l = [⟨e.cb, sender, message⟩] := by
  induction l with
  | nil => cases he
  | cons entry rest ih =>
    obtain ⟨hnew, hrest⟩ := nodup_cons.mp hnodup
    rw [deliver]
    cases he with
    | head => exact if_pos rfl
    | tail _ he =>
      have hne : entry.regId ≠ e.regId := fun heq => hnew (heq ▸ mem_map_of_mem he)
      rw [if_neg hne, ih hrest he]

theorem deliver_of_notMem {regId : Int} (h : ∀ e ∈ l, e.regId ≠ regId)
    (sender message : Str) : deliver sender message regId l = [] := by
  induction l with
  | nil => rfl
  | cons entry rest ih =>
    rw [deliver, if_neg (h entry mem_cons_self)]
    exact ih fun e he => h e (mem_cons_of_mem _ he)

theorem renew_map {α β : Type} (set : Int → α → α) (set' : Int → β → β) {f : α → β}
    (hf : ∀ id a, f (set id a) = set' id (f a)) (registerid : Int) (answers : List Answer)
    (l : List α) : renew set' registerid answers (l.map f) = (renew set registerid answers l).map f := by
  induction answers generalizing registerid l with
  | nil => cases l <;> rfl
  | cons answer answers ih =>
    cases l with
    | nil => cases answer <;> rfl
    | cons a l =>
      cases answer with
      | granted => simp only [map_cons, renew, ih, hf]
      | unheard rc => simp only [map_cons, renew, ih]
      | refused rc => simp only [map_cons, renew, ih]

theorem map_renew {α γ : Type} (set : Int → α → α) {g : α → γ} (hg : ∀ id a, g (set id a) = g a)
    (registerid : Int) (answers : List Answer) (l : List α) :
    (renew set registerid answers l).map g = l.map g := by
  rw [← renew_map set (fun _ x => x) hg]
  generalize l.map g = m
  induction answers generalizing registerid m with
  | nil => cases m <;> rfl
  | cons answer answers ih =>
    cases m with
    | nil => cases answer <;> rfl
    | cons a m => cases answer <;> simp only [renew, ih]

theorem regId_renew (registerid : Int) (answers : List Answer) (l : List Entry) :
    ((renew Entry.setId registerid answers l).map Entry.regId).Perm
      (keptIds answers l ++ (givenIds registerid answers l).map toInt) := by
  induction answers generalizing registerid l with
  | nil => cases l <;> simp [renew, keptIds, givenIds]
  | cons answer answers ih =>
    cases l with
    | nil => cases answer <;> simp [renew, keptIds, givenIds]
    | cons e l =>
      cases answer with
      | granted => exact ((ih (registerid + 1) l).cons _).trans perm_middle.symm
      | unheard rc => exact (ih (registerid + 1) l).cons _
      | refused rc => exact (ih registerid l).cons _

/-! ## Runs -/

structure Inv (s : State) : Prop where
  list : s.cbList = s.registrations.map Registration.entry
  nodes : (s.cbList.map Entry.node).Nodup
  ids : (s.cbList.map Entry.regId).Nodup

variable {s : State}

theorem Inv.register (h : Inv s) {callback : Option Nat}
    {senderPattern messagePattern : Option Str} {hasRegIdPtr : Bool} {answer : Answer}
    (hnode : ∀ r ∈ s.registrations, r.node ≠ node)
    (hid : answer = .granted → ∀ e ∈ s.cbList, e.regId ≠ toInt (s.registerid + 1)) :
    Inv (register s callback senderPattern messagePattern hasRegIdPtr node answer).1 := by
  unfold Sms.register
  match callback, hasRegIdPtr with
  | none, _ | some _, false => exact h
  | some cb, true =>
    cases answer with
    | unheard rc => exact ⟨h.list, h.nodes, h.ids⟩
    | refused rc => exact h
    | granted =>
      refine ⟨?_, ?_, ?_⟩
      · simp only [map_append, h.list]
        rfl
      · simp only [map_append]
        refine nodup_append.mpr ⟨h.nodes, nodup_singleton _, fun x hx y hy heq => ?_⟩
        rw [h.list, map_map] at hx
        obtain ⟨r, hr, rfl⟩ := mem_map.mp hx
        exact hnode r hr (heq.trans (mem_singleton.mp hy))
      · simp only [map_append]
        refine nodup_append.mpr ⟨h.ids, nodup_singleton _, fun x hx y hy heq => ?_⟩
        obtain ⟨e, he, rfl⟩ := mem_map.mp hx
        exact hid rfl e he (heq.trans (mem_singleton.mp hy))

theorem Inv.unregister (h : Inv s) {rc : Rc}
    (hhead : rc = .ok → ∀ e ∈ s.cbList.head?, e.node = node → s.cbList.tail = []) :
    Inv (unregister s node rc).1 := by
  unfold Sms.unregister
  cases search node s.cbList with
  | none => exact h
  | some e =>
    by_cases hrc : rc = .ok
    · rw [if_pos hrc]
      have hremove := (remove_eq_filter_iff h.nodes).mpr (hhead hrc)
      refine ⟨?_, ?_, ?_⟩
      · show remove node s.cbList = _
        rw [hremove, h.list, filter_map]
        rfl
      · show ((remove node s.cbList).map Entry.node).Nodup
        rw [hremove]
        exact h.nodes.sublist (filter_sublist.map _)
      · show ((remove node s.cbList).map Entry.regId).Nodup
        rw [hremove]
        exact h.ids.sublist (filter_sublist.map _)
    · rw [if_neg hrc]
      exact h

theorem Inv.reconnect (h : Inv s) {restarted : Bool} {answers : List Answer}
    (hids : Sound s (.reconnect restarted answers)) : Inv (reconnect s restarted answers) := by
  refine ⟨?_, ?_, ?_⟩
  · show renew Entry.setId _ answers s.cbList = _
    rw [h.list]
    exact renew_map Registration.setId _ (fun _ _ => rfl) _ answers s.registrations
  · show ((renew Entry.setId _ answers s.cbList).map Entry.node).Nodup
    rw [map_renew Entry.setId (g := Entry.node) fun _ _ => rfl]
    exact h.nodes
  · exact (regId_renew _ answers s.cbList).nodup_iff.mpr hids

theorem step_inv {e : Event} (he : Enabled s e) (hsound : Sound s e) (h : Inv s) :
    Inv (step s e) := by
  cases e with
  | register callback senderPattern messagePattern hasRegIdPtr node answer =>
    exact h.register he hsound
  | unregister node rc => exact h.unregister hsound
  | reconnect restarted answers => exact h.reconnect hsound

/-- In every run of calls and reconnections whose steps are sound, the list is that of the
registrations, each with the id the agent gave last; a message is passed once, to the listener whose id
it carries; and to remove an entry leaves the others exactly when the entry is not the first of
several. -/
theorem listeners_independent {s : State}
    (h : Runs step (fun s e => Enabled s e ∧ Sound s e) .init s) :
    s.cbList = s.registrations.map Registration.entry ∧
    (∀ (sender message : Str) (id : Number) (rest : List Json),
      (∀ r ∈ s.registrations, toInt id.i = toInt r.id →
        newSmsHdlr s.cbList (.string sender :: .string message :: .number id :: rest) =
          some [⟨r.cb, sender, message⟩]) ∧
      ((∀ r ∈ s.registrations, toInt id.i ≠ toInt r.id) →
        newSmsHdlr s.cbList (.string sender :: .string message :: .number id :: rest) = some [])) ∧
    ∀ r ∈ s.registrations,
      ((unregister s r.node .ok).1.cbList = s.cbList.filter (fun e => e.node ≠ r.node) ↔
        Sound s (.unregister r.node .ok)) := by
  have hinv := h.invariant (I := Inv) (fun _ _ he => step_inv he.1 he.2) ⟨rfl, .nil, .nil⟩
  refine ⟨hinv.list, fun sender message id rest => ⟨?_, ?_⟩, ?_⟩
  · intro r hr hid
    have he : r.entry ∈ s.cbList := by
      rw [hinv.list]
      exact mem_map_of_mem hr
    show some (deliver sender message (toInt id.i) s.cbList) = _
    rw [hid]
    exact congrArg some (deliver_of_mem hinv.ids he sender message)
  · intro hid
    refine congrArg some (deliver_of_notMem (fun e he heq => ?_) sender message)
    rw [hinv.list] at he
    obtain ⟨r, hr, rfl⟩ := mem_map.mp he
    exact hid r hr heq.symm
  · intro r hr
    have hmem : r.entry ∈ s.cbList := by
      rw [hinv.list]
      exact mem_map_of_mem hr
    have hfound : (search r.node s.cbList).isSome = true := search_isSome hmem rfl
    obtain ⟨e, he⟩ := Option.isSome_iff_exists.mp hfound
    have hlist : (unregister s r.node .ok).1.cbList = remove r.node s.cbList := by
      unfold unregister
      rw [he]
      rfl
    rw [hlist, remove_eq_filter_iff hinv.nodes]
    exact ⟨fun h _ => h, fun h => h rfl⟩

/-- Three registrations, of which the second and then the last are given up, and two reconnections. -/
theorem listeners_independent_three :
    let ask (node : Nat) : Event := .register (some node) (some ['+']) none true node .granted
    let events := [ask 1, ask 2, ask 3, .unregister 2 .ok, .reconnect false [.granted, .granted],
      .unregister 3 .ok, .reconnect true [.granted]]
    let s := events.foldl step .init
    s.cbList = s.registrations.map Registration.entry ∧
      newSmsHdlr s.cbList [.string ['+'], .string ['a'], .number ⟨1, true, 0, true⟩] =
        some [⟨1, ['+'], ['a']⟩] := by
  have hrun := Along.runs (show Along step (fun s e => Enabled s e ∧ Sound s e) .init
    [.register (some 1) (some ['+']) none true 1 .granted,
      .register (some 2) (some ['+']) none true 2 .granted,
      .register (some 3) (some ['+']) none true 3 .granted, .unregister 2 .ok,
      .reconnect false [.granted, .granted], .unregister 3 .ok, .reconnect true [.granted]]
    from by decide)
  have h := listeners_independent hrun
  exact ⟨h.1, ((h.2.1 ['+'] ['a'] ⟨1, true, 0, true⟩ []).1 ⟨1, 1, 1, (['+'], [])⟩ (by decide)) rfl⟩

/-- When the first of two listeners is given up, the other one does not receive any more. -/
theorem first_listener_removed :
    let events : List Event := [.register (some 1) none none true 1 .granted,
      .register (some 2) none none true 2 .granted, .unregister 1 .ok]
    let s := events.foldl step .init
    Along step Enabled .init events ∧ s.registrations = [⟨2, 2, 2, ([], [])⟩] ∧ s.cbList = [] ∧
      deliver ['+'] ['a'] 2 s.cbList = [] := by
  decide

end Mihini.Sms
