import Mathlib.Data.List.TakeWhile
import Mihini.Airvantage.Messages

/-!
# Where the messages to assets go

A message goes to the callback of the started asset that its path names, or is refused, and the lock
of the assets is given back, exactly when it does not meet one of the gaps of the handlers.
-/

namespace Mihini.Airvantage

open List Option

/-! ## What a message says -/

def lastOf (members : List (Str × Json)) (k : String) : Option Json :=
  members.reverse.lookup k.toList

def Json.member (v : Json) (k : String) : Option Json :=
  match v with
  | .object members => members.lookup k.toList
  | _ => none

/-- The fields that a message may have are of their types. -/
structure Typed (k : Str) (v : Json) : Prop where
  path : k = "Path".toList → ∃ s, v = .string s
  ticketId : k = "TicketId".toList → ∃ n, v = .number n
  body : k = "Body".toList → v.isComposite = true
  cls : k = "__class".toList → ∃ s, v = .string s

structure IsMessage (members : List (Str × Json)) (m : Message) : Prop where
  typed : ∀ x ∈ members, Typed x.1 x.2
  path : lastOf members "Path" = some (.string m.path)
  ticketId : match lastOf members "TicketId" with
    | some (.number n) => m.ticketId = n.i.bmod (2 ^ 32)
    | _ => m.ticketId = 0
  body : lastOf members "Body" = some m.body
  bodyClass : m.body.member "__class" = m.bodyClass.map .string
  cls : lastOf members "__class" = some (.string "AWT-DA::Message".toList)

def Json.entries : Json → DSet
  | .object members => members.map fun x => (x.1, x.2.datum)
  | .array values => values.zipIdx.map fun x => (Nat.toDigits 10 x.2, x.1.datum)
  | _ => []

def Splits (path name rest : Str) : Prop :=
  '.' ∉ name ∧ (path = name ∧ rest = [] ∨ path = name ++ '.' :: rest)

/-- The path and the data that a message has for its asset, below which it is sent to `rest`. -/
inductive Meaning (m : Message) (rest : Str) : Str → DSet → Prop
  | data (h : m.bodyClass ≠ some "AWT-DA::Command".toList) : Meaning m rest rest m.body.entries
  | command {name : Str} (h : m.bodyClass = some "AWT-DA::Command".toList)
      (hname : m.body.member "Command" = some (.string name))
      (hargs : m.body.member "Args" = none) : Meaning m rest (commandPath name rest) []
  | commandArgs {name : Str} {args : Json} (h : m.bodyClass = some "AWT-DA::Command".toList)
      (hname : m.body.member "Command" = some (.string name))
      (hargs : m.body.member "Args" = some args) (hcomposite : args.isComposite = true) :
      Meaning m rest (commandPath name rest) args.entries

inductive Parameters : List Json → DSet → Prop
  | missing : Parameters [] []
  | null (more : List Json) : Parameters (.null :: more) []
  | given {v : Json} (more : List Json) (h : v.isComposite = true) : Parameters (v :: more) v.entries

structure State.Started (s : State) (name : Str) (p : Nat) (a : Asset) : Prop where
  heap : s.heap p = some a
  started : a.started = true
  assetId : a.assetId = name

inductive Passed (s : State) : Event → Call → Prop
  | data {members : List (Str × Json)} {m : Message} {name rest path : Str} {p f : Nat} {a : Asset}
      {set : DSet} (hm : IsMessage members m) (hsplits : Splits m.path name rest)
      (ha : s.Started name p a) (hf : a.dwCb = .function f) (h : Meaning m rest path set) :
      Passed s (.sendData (some (.object members))) (.dataWrite f p path set m.ticketId)
  | update {component version file name rest : Str} {more : List Json} {p f : Nat} {a : Asset}
      {set : DSet} (hsplits : Splits component name rest) (ha : s.Started name p a)
      (hf : a.updCb = .function f) (h : Parameters more set) :
      Passed s
        (.softwareUpdate (some (.array
          (.string component :: .string version :: .string file :: more))))
        (.update f p rest version file (some set))

def Right (s : State) (e : Event) (r : State × Outcome) : Prop :=
  ∃ res, r.2 = .returns res ∧ r.1.assetList = s.assetList ∧ r.1.locked = false ∧
    (res = .ok ∧ (∃ c, Passed s e c ∧ r.1.calls = s.calls ++ [c]) ∨ res ≠ .ok ∧ r.1.calls = s.calls)

def Handled (s : State) (e : Event) : Prop := Right s e (perform s e)

def Event.isMessage : Event → Bool
  | .sendData _ | .softwareUpdate _ => true
  | _ => false

/-! ## The gaps -/

/-- A path that `get_path_element` does not refuse. -/
structure Dotted (path : Str) : Prop where
  head : path.head? ≠ some '.'
  last : path.getLast? ≠ some '.'
  pair : ¬ ['.', '.'] <:+: path

def Json.Named (v : Json) : Prop := ∀ x ∈ v.entries, x.1 ≠ []

/-- The body is data with names, a command with a name whose arguments are an object or an array with
names, or of a class that is refused. -/
def Message.Fits (m : Message) : Prop :=
  (m.bodyClass = none → m.body.Named) ∧
  (m.bodyClass = some "AWT-DA::Command".toList →
    (∃ name, m.body.member "Command" = some (.string name)) ∧
      ∀ args, m.body.member "Args" = some args → args.isComposite = true ∧ args.Named) ∧
  m.bodyClass ≠ some "AWT-DA::Response".toList

/-- A message names a path; a path that is not refused starts with the name of a started asset, which
has a callback, and what the callback needs can be given. -/
def Sound (s : State) : Event → Prop
  | .create p _ => s.heap p = none
  | .registerDataWrite p _ | .registerUpdateNotification p _ | .destroy p _ => s.heap p ≠ none
  | .start p answer =>
    ∃ a, s.heap p = some a ∧ (answer = .ok → ∀ q b, s.Started a.assetId q b → q = p)
  | .sendData payload =>
    ∀ members m, payload = some (.object members) → IsMessage members m →
      m.path ≠ [] ∧ (Dotted m.path →
        ∃ p a f, s.Started (m.path.takeWhile (· ≠ '.')) p a ∧ a.dwCb = .function f ∧ m.Fits)
  | .softwareUpdate payload =>
    ∀ component version file more,
      payload = some (.array (.string component :: .string version :: .string file :: more)) →
      component ≠ [] ∧ (Dotted component →
        ∃ p a f, s.Started (component.takeWhile (· ≠ '.')) p a ∧ a.updCb = .function f ∧
          ∀ v ∈ more.head?, v = .null ∨ v.isComposite = true ∧ v.Named)

/-- The list of the assets has those that are started, each name once. -/
structure State.Lists (s : State) : Prop where
  nodup : (s.assetList.map Prod.fst).Nodup
  mem : ∀ name p, (name, p) ∈ s.assetList ↔ ∃ a, s.Started name p a

/-! ## Reading -/

theorem lastOf_append (members : List (Str × Json)) (k : Str) (v : Json) (k' : String) :
    lastOf (members ++ [(k, v)]) k' = if k = k'.toList then some v else lastOf members k' := by
  simp only [lastOf, reverse_append, reverse_singleton, singleton_append]
  rw [lookup_cons]
  split_ifs with h
  · simp [h]
  · have hne : (k'.toList == k) = false := by simpa using Ne.symm h
    rw [hne]

structure Fields.Of (r : Fields) (members : List (Str × Json)) : Prop where
  path : lastOf members "Path" = r.path.map .string
  ticketId : match lastOf members "TicketId" with
    | some (.number n) => r.ticketId = n.i.bmod (2 ^ 32)
    | _ => r.ticketId = 0
  body : lastOf members "Body" = r.body
  cls : lastOf members "__class" = r.cls.map .string

variable {members : List (Str × Json)} {v : Json}

theorem readField_some {r r' : Fields} {k : Str}
    (hr : r.Of members) (h : readField r k v = some r') :
    Typed k v ∧ r'.Of (members ++ [(k, v)]) := by
  have hlast := lastOf_append members k v
  obtain ⟨hpath, hticket, hbody, hcls⟩ := hr
  unfold readField at h
  split_ifs at h with hk hk₁ hk₂ hv hk₃
  · subst hk
    cases v with
    | string s =>
      obtain rfl := Option.some.inj h
      exact ⟨⟨fun _ => ⟨s, rfl⟩, nofun, nofun, nofun⟩,
        ⟨by rw [hlast]; rfl, by rw [hlast]; exact hticket, by rw [hlast]; exact hbody,
          by rw [hlast]; exact hcls⟩⟩
    | _ => cases h
  · subst hk₁
    cases v with
    | number n =>
      obtain rfl := Option.some.inj h
      exact ⟨⟨nofun, fun _ => ⟨n, rfl⟩, nofun, nofun⟩,
        ⟨by rw [hlast]; exact hpath, by rw [hlast]; rfl, by rw [hlast]; exact hbody,
          by rw [hlast]; exact hcls⟩⟩
    | _ => cases h
  · subst hk₂
    obtain rfl := Option.some.inj h
    exact ⟨⟨nofun, nofun, fun _ => hv, nofun⟩,
      ⟨by rw [hlast]; exact hpath, by rw [hlast]; exact hticket, by rw [hlast]; rfl,
        by rw [hlast]; exact hcls⟩⟩
  · subst hk₃
    cases v with
    | string s =>
      obtain rfl := Option.some.inj h
      exact ⟨⟨nofun, nofun, nofun, fun _ => ⟨s, rfl⟩⟩,
        ⟨by rw [hlast]; exact hpath, by rw [hlast]; exact hticket, by rw [hlast]; exact hbody,
          by rw [hlast]; rfl⟩⟩
    | _ => cases h
  · obtain rfl := Option.some.inj h
    exact ⟨⟨fun e => absurd e hk, fun e => absurd e hk₁, fun e => absurd e hk₂,
        fun e => absurd e hk₃⟩,
      ⟨by rw [hlast, if_neg hk]; exact hpath, by rw [hlast, if_neg hk₁]; exact hticket,
        by rw [hlast, if_neg hk₂]; exact hbody, by rw [hlast, if_neg hk₃]; exact hcls⟩⟩

theorem readField_isSome {r : Fields} {k : Str} (h : Typed k v) :
    ∃ r', readField r k v = some r' := by
  unfold readField
  split_ifs with hk hk₁ hk₂ hv hk₃
  · obtain ⟨s, rfl⟩ := h.path hk
    exact ⟨_, rfl⟩
  · obtain ⟨n, rfl⟩ := h.ticketId hk₁
    exact ⟨_, rfl⟩
  · exact ⟨_, rfl⟩
  · exact absurd (h.body hk₂) hv
  · obtain ⟨s, rfl⟩ := h.cls hk₃
    exact ⟨_, rfl⟩
  · exact ⟨_, rfl⟩

/-- The first loop reads the last value of each field, when all of them are of their types. -/
theorem readFields_spec (members : List (Str × Json)) :
    (∀ r, members.foldlM (fun r x => readField r x.1 x.2) Fields.init = some r →
      (∀ x ∈ members, Typed x.1 x.2) ∧ r.Of members) ∧
    ((∀ x ∈ members, Typed x.1 x.2) →
      ∃ r, members.foldlM (fun r x => readField r x.1 x.2) Fields.init = some r) := by
  induction members using List.reverseRecOn with
  | nil =>
    constructor
    · intro r h
      obtain rfl := Option.some.inj h
      exact ⟨nofun, ⟨rfl, rfl, rfl, rfl⟩⟩
    · exact fun _ => ⟨_, rfl⟩
  | append_singleton members x ih =>
    simp only [foldlM_append, forall_mem_append, forall_mem_singleton,
      foldlM_cons, foldlM_nil]
    constructor
    · intro r h
      obtain ⟨r₀, hr₀, h⟩ := bind_eq_some_iff.mp h
      obtain ⟨r₁, hr₁, h⟩ := bind_eq_some_iff.mp h
      obtain rfl := Option.some.inj h
      obtain ⟨htyped, hof⟩ := ih.1 r₀ hr₀
      obtain ⟨htyped', hof'⟩ := readField_some hof hr₁
      exact ⟨⟨htyped, htyped'⟩, hof'⟩
    · intro h
      obtain ⟨r₀, hr₀⟩ := ih.2 h.1
      obtain ⟨r₁, hr₁⟩ := readField_isSome (r := r₀) h.2
      exact ⟨r₁, by rw [hr₀]; simp [hr₁]⟩

theorem bodyClass_eq_some {c : Option Str} :
    bodyClass v = some c ↔ v.member "__class" = c.map .string := by
  cases v with
  | object members =>
    simp only [bodyClass, Json.member]
    cases members.lookup "__class".toList with
    | none => cases c <;> simp
    | some x => cases x <;> cases c <;> simp
  | _ => cases c <;> simp [bodyClass, Json.member]

variable {m : Message}

/-- `readMessage` gives the messages that are well formed. -/
theorem readMessage_eq_some :
    readMessage members = some m ↔ IsMessage members m := by
  obtain ⟨hsound, hcomplete⟩ := readFields_spec members
  constructor
  · intro h
    obtain ⟨r, hr, h⟩ := bind_eq_some_iff.mp h
    obtain ⟨body, hbody, h⟩ := bind_eq_some_iff.mp h
    obtain ⟨c, hc, h⟩ := bind_eq_some_iff.mp h
    obtain ⟨path, hpath, h⟩ := bind_eq_some_iff.mp h
    obtain ⟨htyped, hof⟩ := hsound r hr
    split_ifs at h with hcls
    obtain rfl := Option.some.inj h
    exact ⟨htyped, by rw [hof.path, hpath]; rfl, hof.ticketId, by rw [hof.body, hbody],
      bodyClass_eq_some.mp hc, by rw [hof.cls, hcls]; rfl⟩
  · intro h
    obtain ⟨r, hr⟩ := hcomplete h.typed
    obtain ⟨-, hof⟩ := hsound r hr
    have hbody : r.body = some m.body := by rw [← hof.body, h.body]
    have hc := bodyClass_eq_some.mpr h.bodyClass
    have hpath : r.path = some m.path := by
      have heq := hof.path.symm.trans h.path
      cases hp : r.path <;> simp_all
    have hcls : r.cls = some "AWT-DA::Message".toList := by
      have heq := hof.cls.symm.trans h.cls
      cases hp : r.cls <;> simp_all
    have hticket : r.ticketId = m.ticketId := by
      have h₁ := hof.ticketId
      have h₂ := h.ticketId
      split at h₁ <;> simp_all
    simp only [readMessage, hr, bind_eq_bind, bind_some, hbody, hc, hpath, hcls,
      if_true, hticket]

/-! ## Data sets -/

theorem foldl_pushDSet {α : Type} (l : List α) (f : α → Str) (g : α → Json) (set : DSet) :
    l.foldl (fun set x => pushDSet set (f x) (g x)) set =
      set ++ (l.map fun x => (f x, (g x).datum)).filter fun x => x.1 ≠ [] := by
  induction l generalizing set with
  | nil => simp
  | cons x l ih =>
    rw [foldl_cons, ih, map_cons, filter_cons]
    by_cases hname : f x = []
    · simp [pushDSet, pushData, hname]
    · simp [pushDSet, pushData, hname]

theorem process_nil (v : Json) : process v [] = v.entries.filter fun x => x.1 ≠ [] := by
  cases v with
  | object members => exact foldl_pushDSet members Prod.fst Prod.snd []
  | array values => exact foldl_pushDSet values.zipIdx (fun x => Nat.toDigits 10 x.2) Prod.fst []
  | _ => rfl

theorem process_eq_entries : process v [] = v.entries ↔ v.Named := by
  rw [process_nil, filter_eq_self]
  simp [Json.Named]

/-! ## Paths -/

theorem Splits.eq {path name rest : Str} (h : Splits path name rest) :
    name = path.takeWhile (· ≠ '.') ∧ rest = (path.dropWhile (· ≠ '.')).tail := by
  have hall : ∀ c ∈ name, decide (c ≠ '.') = true := fun c hc =>
    decide_eq_true fun heq => h.1 (heq ▸ hc)
  rcases h.2 with ⟨rfl, rfl⟩ | rfl
  · rw [takeWhile_eq_self_iff.mpr hall, dropWhile_eq_nil_iff.mpr hall]
    exact ⟨rfl, rfl⟩
  · rw [takeWhile_append_of_pos hall, dropWhile_append_of_pos hall]
    simp

theorem splits_takeWhile (path : Str) :
    Splits path (path.takeWhile (· ≠ '.')) (path.dropWhile (· ≠ '.')).tail := by
  constructor
  · intro hmem
    simpa using mem_takeWhile_imp hmem
  · have happend := takeWhile_append_dropWhile (p := (· ≠ '.')) (l := path)
    cases hdrop : path.dropWhile (· ≠ '.') with
    | nil =>
      rw [hdrop, append_nil] at happend
      exact .inl ⟨happend.symm, rfl⟩
    | cons c rest =>
      have hc : c = '.' := by
        have hhead := List.head?_dropWhile_not (· ≠ '.') path
        rw [hdrop] at hhead
        simpa using hhead
      rw [hdrop, hc] at happend
      exact .inr happend.symm

/-! ## Assets -/

theorem lookup_eq_some_iff {l : List (Str × Nat)} (h : (l.map Prod.fst).Nodup) {name : Str}
    {p : Nat} : l.lookup name = some p ↔ (name, p) ∈ l := by
  induction l with
  | nil => simp
  | cons x l ih =>
    obtain ⟨hx, hl⟩ := nodup_cons.mp h
    rw [lookup_cons, mem_cons]
    by_cases hname : name = x.1
    · subst hname
      have hmem : (x.1, p) ∉ l := fun hmem => hx (mem_map.mpr ⟨_, hmem, rfl⟩)
      simp [hmem, Prod.ext_iff, eq_comm]
    · have hbeq : (name == x.1) = false := by simpa using hname
      rw [hbeq]
      simp [ih hl, Prod.ext_iff, hname]

variable {s : State}

theorem State.Lists.unique (hs : s.Lists) {name : Str} {p q : Nat} {a b : Asset}
    (hp : s.Started name p a) (hq : s.Started name q b) : p = q := by
  have hp' := (lookup_eq_some_iff hs.nodup).mpr ((hs.mem name p).mpr ⟨a, hp⟩)
  have hq' := (lookup_eq_some_iff hs.nodup).mpr ((hs.mem name q).mpr ⟨b, hq⟩)
  exact Option.some.inj (hp'.symm.trans hq')

/-- What the handlers make of a path, when the lock is free. -/
theorem findAsset_cases (hs : s.Lists) (hfree : s.locked = false) (path : Str) :
    (path = [] ∧ findAsset s path = .error (s, .undefined)) ∨
    (path ≠ [] ∧ ¬ Dotted path ∧ findAsset s path = .error (s, .returns .badParameter)) ∨
    (path ≠ [] ∧ Dotted path ∧ (∀ p a, ¬ s.Started (path.takeWhile (· ≠ '.')) p a) ∧
      findAsset s path = .error ({ s with locked := true }, .returns .notFound)) ∨
    (path ≠ [] ∧ Dotted path ∧ ∃ p a, s.Started (path.takeWhile (· ≠ '.')) p a ∧
      findAsset s path = .ok ((path.dropWhile (· ≠ '.')).tail, p)) := by
  unfold findAsset getPathElement
  simp only [if_true, hfree, Bool.false_eq_true, if_false]
  split_ifs with hhead hnil hlast
  · have hne : path ≠ [] := by
      rintro rfl
      cases hhead
    exact .inr (.inl ⟨hne, fun h => h.head hhead, rfl⟩)
  · exact .inl ⟨hnil, rfl⟩
  · exact .inr (.inl ⟨hnil, fun h => hlast.elim h.last h.pair, rfl⟩)
  · have hdotted : Dotted path := ⟨hhead, fun h => hlast (.inl h), fun h => hlast (.inr h)⟩
    dsimp only
    cases hlookup : s.assetList.lookup (path.takeWhile (· ≠ '.')) with
    | none =>
      refine .inr (.inr (.inl ⟨hnil, hdotted, fun p a hstarted => ?_, rfl⟩))
      have hsome := (lookup_eq_some_iff hs.nodup).mpr ((hs.mem _ p).mpr ⟨a, hstarted⟩)
      rw [hlookup] at hsome
      cases hsome
    | some p =>
      obtain ⟨a, ha⟩ := (hs.mem _ p).mp ((lookup_eq_some_iff hs.nodup).mp hlookup)
      exact .inr (.inr (.inr ⟨hnil, hdotted, p, a, ha, rfl⟩))

/-! ## Messages -/

variable {e : Event}

theorem right_refused {res : Rc} (hfree : s.locked = false)
    (hres : res ≠ .ok) : Right s e (s, .returns res) :=
  ⟨res, rfl, rfl, hfree, .inr ⟨hres, rfl⟩⟩

theorem not_right_undefined {s s' : State} : ¬ Right s e (s', .undefined) := by
  rintro ⟨res, hres, -⟩
  cases hres

theorem not_right_silent : ¬ Right s e (s, .returns .ok) := by
  rintro ⟨res, hres, -, -, ⟨-, c, -, hcalls⟩ | ⟨hne, -⟩⟩
  · simp at hcalls
  · exact hne (Outcome.returns.inj hres).symm

theorem right_called {res : Rc} {c : Call} (hfree : s.locked = false) :
    Right s e ({ s with calls := s.calls ++ [c] }, .returns res) ↔ res = .ok ∧ Passed s e c := by
  constructor
  · rintro ⟨res', hres, -, -, ⟨rfl, c', hpassed, hcalls⟩ | ⟨-, hcalls⟩⟩
    · obtain rfl : c = c' := by simpa using hcalls
      exact ⟨Outcome.returns.inj hres, hpassed⟩
    · simp at hcalls
  · rintro ⟨rfl, hpassed⟩
    exact ⟨.ok, rfl, rfl, hfree, .inl ⟨rfl, c, hpassed, rfl⟩⟩

/-- What both handlers share: a path must not be empty, and when it is not refused there must be an
asset of its name, which gets the message. -/
theorem right_found {path : Str} {k : Str → Nat → State × Outcome}
    (hs : s.Lists) (hfree : s.locked = false) :
    (Right s e (match findAsset s path with | .error x => x | .ok (rest, p) => k rest p)) ↔
      path ≠ [] ∧ (Dotted path → ∃ p a, s.Started (path.takeWhile (· ≠ '.')) p a ∧
        Right s e (k (path.dropWhile (· ≠ '.')).tail p)) := by
  rcases findAsset_cases hs hfree path with ⟨hpath, heq⟩ | ⟨hpath, hdotted, heq⟩ |
    ⟨hpath, hdotted, hnone, heq⟩ | ⟨hpath, hdotted, p, a, ha, heq⟩
  · rw [heq]
    exact ⟨fun h => absurd h not_right_undefined, fun h => absurd hpath h.1⟩
  · rw [heq]
    exact ⟨fun _ => ⟨hpath, fun h => absurd h hdotted⟩, fun _ => right_refused hfree nofun⟩
  · rw [heq]
    constructor
    · rintro ⟨res, -, -, hlocked, -⟩
      cases hlocked
    · rintro ⟨-, h⟩
      obtain ⟨p, a, ha, -⟩ := h hdotted
      exact absurd ha (hnone p a)
  · rw [heq]
    constructor
    · exact fun h => ⟨hpath, fun _ => ⟨p, a, ha, h⟩⟩
    · rintro ⟨-, h⟩
      obtain ⟨q, b, hb, h⟩ := h hdotted
      rw [hs.unique ha hb]
      exact h

theorem IsMessage.unique {m m' : Message} (h : IsMessage members m)
    (h' : IsMessage members m') : m = m' :=
  Option.some.inj ((readMessage_eq_some.mpr h).symm.trans (readMessage_eq_some.mpr h'))

variable {set : DSet} {a : Asset}

theorem passed_data_iff
    {name rest path : Str} {p f : Nat} (hm : IsMessage members m)
    (hsplits : Splits m.path name rest) (ha : s.Started name p a) (hf : a.dwCb = .function f) :
    Passed s (.sendData (some (.object members))) (.dataWrite f p path set m.ticketId) ↔
      Meaning m rest path set := by
  constructor
  · intro h
    generalize hc : Call.dataWrite f p path set m.ticketId = c at h
    cases h with
    | @data _ m' name' rest' _ _ _ _ _ hm' hsplits' _ _ h' =>
      obtain ⟨-, -, rfl, rfl, -⟩ := Call.dataWrite.inj hc
      obtain rfl := hm.unique hm'
      obtain rfl : rest = rest' := hsplits.eq.2.trans hsplits'.eq.2.symm
      exact h'
  · exact fun h => .data hm hsplits ha hf h

theorem Meaning.eq_entries {rest path : Str} {args : Json}
    (h : Meaning m rest path set) (hclass : m.bodyClass = some "AWT-DA::Command".toList)
    (hargs : m.body.member "Args" = some args) : set = args.entries := by
  cases h with
  | data h => exact absurd hclass h
  | command _ _ hnone =>
    rw [hargs] at hnone
    cases hnone
  | commandArgs _ _ hargs' _ =>
    rw [Option.some.inj (hargs.symm.trans hargs')]

theorem Meaning.eq_body {rest path : Str} (h : Meaning m rest path set)
    (hclass : m.bodyClass ≠ some "AWT-DA::Command".toList) : path = rest ∧ set = m.body.entries := by
  cases h with
  | data => exact ⟨rfl, rfl⟩
  | command h => exact absurd h hclass
  | commandArgs h => exact absurd h hclass

/-- A command is passed on when it has a name, and arguments that can be given. -/
theorem passCommand_right {name rest : Str}
    {p f : Nat} (hfree : s.locked = false) (hm : IsMessage members m)
    (hsplits : Splits m.path name rest) (ha : s.Started name p a) (hf : a.dwCb = .function f)
    (hclass : m.bodyClass = some "AWT-DA::Command".toList) :
    Right s (.sendData (some (.object members)))
        (match processCommand m.body [] rest with
        | none => (s, .undefined)
        | some (res, set, path) => s.dataWrite f p m path set res) ↔
      (∃ name, m.body.member "Command" = some (.string name)) ∧
        ∀ args, m.body.member "Args" = some args → args.isComposite = true ∧ args.Named := by
  have hmember := hm.bodyClass
  have hmeaning {path : Str} {set : DSet} :
      Passed s (.sendData (some (.object members))) (.dataWrite f p path set m.ticketId) ↔
        Meaning m rest path set := passed_data_iff hm hsplits ha hf
  rw [hclass] at hmember
  cases hbody : m.body with
  | object fields =>
    have hcommand : m.body.member "Command" = fields.lookup "Command".toList := by rw [hbody]; rfl
    have hargs : m.body.member "Args" = fields.lookup "Args".toList := by rw [hbody]; rfl
    cases hc : fields.lookup "Command".toList with
    | none =>
      simp only [processCommand, Json.member, hc]
      exact ⟨fun h => absurd h not_right_undefined, by rintro ⟨⟨_, ⟨⟩⟩, -⟩⟩
    | some v =>
      cases v with
      | string cmd =>
        cases ha' : fields.lookup "Args".toList with
        | none =>
          simp only [processCommand, Json.member, hc, ha']
          refine ⟨fun _ => ⟨⟨cmd, rfl⟩, by rintro _ ⟨⟩⟩, fun _ => (right_called hfree).mpr ⟨rfl, ?_⟩⟩
          exact hmeaning.mpr (.command hclass (hcommand.trans hc) (hargs.trans ha'))
        | some args =>
          simp only [processCommand, Json.member, hc, ha']
          split_ifs with hcomposite
          · refine (right_called hfree).trans ?_
            simp only [true_and, hmeaning]
            constructor
            · intro h
              refine ⟨⟨cmd, rfl⟩, ?_⟩
              rintro _ ⟨⟩
              have hset := h.eq_entries hclass (hargs.trans ha')
              exact ⟨hcomposite, process_eq_entries.mp hset⟩
            · rintro ⟨-, hnamed⟩
              rw [process_eq_entries.mpr (hnamed args rfl).2]
              exact .commandArgs hclass (hcommand.trans hc) (hargs.trans ha') hcomposite
          · refine (right_called hfree).trans ⟨by rintro ⟨⟨⟩, -⟩, ?_⟩
            rintro ⟨-, hnamed⟩
            exact absurd (hnamed args rfl).1 hcomposite
      | _ =>
        simp only [processCommand, Json.member, hc]
        exact ⟨fun h => absurd h not_right_undefined, by rintro ⟨⟨_, ⟨⟩⟩, -⟩⟩
  | _ =>
    rw [hbody] at hmember
    cases hmember

theorem passData_right {name rest : Str}
    {p : Nat} (hfree : s.locked = false) (hm : IsMessage members m)
    (hsplits : Splits m.path name rest) (ha : s.Started name p a) :
    Right s (.sendData (some (.object members))) (passData s m rest p) ↔
      ∃ f, a.dwCb = .function f ∧ m.Fits := by
  simp only [passData, ha.heap]
  cases hf : a.dwCb with
  | unset => exact ⟨fun h => absurd h not_right_undefined, nofun⟩
  | null => exact ⟨fun h => absurd h not_right_silent, nofun⟩
  | function f =>
    have hmeaning {path : Str} {set : DSet} :
        Passed s (.sendData (some (.object members))) (.dataWrite f p path set m.ticketId) ↔
          Meaning m rest path set := passed_data_iff hm hsplits ha hf
    simp only [Callback.function.injEq, exists_eq_left']
    cases hclass : m.bodyClass with
    | none =>
      refine (right_called hfree).trans ?_
      simp only [true_and, hmeaning]
      constructor
      · intro h
        have hset := (h.eq_body (by rw [hclass]; nofun)).2
        exact ⟨fun _ => process_eq_entries.mp hset, by rw [hclass]; nofun, by rw [hclass]; nofun⟩
      · intro hfits
        rw [process_eq_entries.mpr (hfits.1 hclass)]
        exact .data (by rw [hclass]; nofun)
    | some c =>
      dsimp only
      split_ifs with hcommand hresponse
      · subst hcommand
        refine (passCommand_right hfree hm hsplits ha hf hclass).trans ?_
        exact ⟨fun h => ⟨by rw [hclass]; nofun, fun _ => h, by rw [hclass]; decide⟩,
          fun h => h.2.1 hclass⟩
      · subst hresponse
        refine (right_called hfree).trans ⟨?_, fun h => absurd hclass h.2.2⟩
        rintro ⟨-, hpassed⟩
        -- the body of a response has its class, and the data set is empty
        have hset := ((hmeaning.mp hpassed).eq_body (by rw [hclass]; decide)).2
        have hmember := hm.bodyClass
        rw [hclass] at hmember
        cases hbody : m.body with
        | object fields =>
          rw [hbody] at hset hmember
          cases fields with
          | nil => cases hmember
          | cons x fields => cases hset
        | _ =>
          rw [hbody] at hmember
          cases hmember
      · have hne : m.bodyClass ≠ some "AWT-DA::Command".toList ∧
            m.bodyClass ≠ some "AWT-DA::Response".toList := by
          rw [hclass]
          exact ⟨fun h => hcommand (Option.some.inj h), fun h => hresponse (Option.some.inj h)⟩
        exact ⟨fun _ => ⟨by rw [hclass]; nofun, fun h => absurd h hne.1, hne.2⟩,
          fun _ => right_refused hfree nofun⟩

variable {more : List Json}

theorem parametersSet_eq_some
    (hset : Parameters more set) (h : parametersSet more = some set) :
    ∀ v ∈ more.head?, v = .null ∨ v.isComposite = true ∧ v.Named := by
  cases hset with
  | missing => exact nofun
  | null more =>
    rintro _ ⟨⟩
    exact .inl rfl
  | @given v more hcomposite =>
    rintro _ ⟨⟩
    cases v with
    | null => cases hcomposite
    | array values => exact .inr ⟨rfl, process_eq_entries.mp (Option.some.inj h)⟩
    | object fields => exact .inr ⟨rfl, process_eq_entries.mp (Option.some.inj h)⟩
    | _ => cases hcomposite

theorem parameters_of_head
    (h : ∀ v ∈ more.head?, v = .null ∨ v.isComposite = true ∧ v.Named) :
    ∃ set, parametersSet more = some set ∧ Parameters more set := by
  cases more with
  | nil => exact ⟨[], rfl, .missing⟩
  | cons v more =>
    obtain rfl | ⟨hcomposite, hnamed⟩ := h v rfl
    · exact ⟨[], rfl, .null more⟩
    · refine ⟨v.entries, ?_, .given more hcomposite⟩
      cases v with
      | array values => exact congrArg some (process_eq_entries.mpr hnamed)
      | object fields => exact congrArg some (process_eq_entries.mpr hnamed)
      | _ => cases hcomposite

theorem passUpdate_right {component version file name rest : Str}
    {p : Nat} (hfree : s.locked = false) (hsplits : Splits component name rest)
    (ha : s.Started name p a) :
    Right s (.softwareUpdate
        (some (.array (.string component :: .string version :: .string file :: more))))
        (passUpdate s version file more rest p) ↔
      ∃ f, a.updCb = .function f ∧ ∀ v ∈ more.head?, v = .null ∨ v.isComposite = true ∧ v.Named := by
  simp only [passUpdate, ha.heap]
  cases hf : a.updCb with
  | unset => exact ⟨fun h => absurd h not_right_undefined, nofun⟩
  | null => exact ⟨fun h => absurd h not_right_silent, nofun⟩
  | function f =>
    simp only [Callback.function.injEq, exists_eq_left']
    refine (right_called hfree).trans ?_
    constructor
    · rintro ⟨-, h⟩
      generalize hc : Call.update f p rest version file (parametersSet more) = c at h
      cases h with
      | update _ _ _ hset =>
        obtain ⟨-, -, -, -, -, heq⟩ := Call.update.inj hc
        exact parametersSet_eq_some hset heq
    · intro h
      obtain ⟨set, hset, hparameters⟩ := parameters_of_head h
      rw [hset]
      exact ⟨rfl, .update hsplits ha hf hparameters⟩

theorem sendData_handled (hs : s.Lists) (hfree : s.locked = false)
    (hm : IsMessage members m) :
    Handled s (.sendData (some (.object members))) ↔
      m.path ≠ [] ∧ (Dotted m.path →
        ∃ p a f, s.Started (m.path.takeWhile (· ≠ '.')) p a ∧ a.dwCb = .function f ∧ m.Fits) := by
  unfold Handled
  simp only [perform, empSendDataHdlr, readMessage_eq_some.mpr hm]
  refine (right_found hs hfree).trans ?_
  constructor
  · rintro ⟨hpath, h⟩
    refine ⟨hpath, fun hdotted => ?_⟩
    obtain ⟨p, a, ha, hright⟩ := h hdotted
    obtain ⟨f, hf⟩ := (passData_right hfree hm (splits_takeWhile _) ha).mp hright
    exact ⟨p, a, f, ha, hf⟩
  · rintro ⟨hpath, h⟩
    refine ⟨hpath, fun hdotted => ?_⟩
    obtain ⟨p, a, f, ha, hf⟩ := h hdotted
    exact ⟨p, a, ha, (passData_right hfree hm (splits_takeWhile _) ha).mpr ⟨f, hf⟩⟩

theorem softwareUpdate_handled (hs : s.Lists) (hfree : s.locked = false)
    {component version file : Str} :
    Handled s (.softwareUpdate
        (some (.array (.string component :: .string version :: .string file :: more)))) ↔
      component ≠ [] ∧ (Dotted component →
        ∃ p a f, s.Started (component.takeWhile (· ≠ '.')) p a ∧ a.updCb = .function f ∧
          ∀ v ∈ more.head?, v = .null ∨ v.isComposite = true ∧ v.Named) := by
  have hperform : perform s (.softwareUpdate
      (some (.array (.string component :: .string version :: .string file :: more)))) =
      match findAsset s component with
      | .error x => x
      | .ok (rest, p) => passUpdate s version file more rest p := rfl
  unfold Handled
  rw [hperform, right_found hs hfree]
  constructor
  · rintro ⟨hpath, h⟩
    refine ⟨hpath, fun hdotted => ?_⟩
    obtain ⟨p, a, ha, hright⟩ := h hdotted
    obtain ⟨f, hf⟩ := (passUpdate_right hfree (splits_takeWhile _) ha).mp hright
    exact ⟨p, a, f, ha, hf⟩
  · rintro ⟨hpath, h⟩
    refine ⟨hpath, fun hdotted => ?_⟩
    obtain ⟨p, a, f, ha, hf⟩ := h hdotted
    exact ⟨p, a, ha, (passUpdate_right hfree (splits_takeWhile _) ha).mpr ⟨f, hf⟩⟩

theorem sendData_refused {payload : Option Json}
    (h : ∀ members m, payload = some (.object members) → ¬ IsMessage members m) :
    perform s (.sendData payload) = (s, .returns .badFormat) := by
  match payload with
  | some (.object members) =>
    have hread : readMessage members = none := by
      cases hread : readMessage members with
      | none => rfl
      | some m => exact absurd (readMessage_eq_some.mp hread) (h members m rfl)
    simp only [perform, empSendDataHdlr, hread]
  | none | some .null | some (.bool _) | some (.number _) | some (.string _) | some (.array _) => rfl

theorem softwareUpdate_refused {payload : Option Json}
    (h : ∀ component version file more,
      payload ≠ some (.array (.string component :: .string version :: .string file :: more))) :
    perform s (.softwareUpdate payload) = (s, .returns .badFormat) := by
  simp only [perform, empUpdateNotifHdlr]

/-- A message is handled as it should be exactly when it does not meet a gap. -/
theorem handled_iff_sound (hs : s.Lists) (hfree : s.locked = false)
    (he : e.isMessage = true) : Handled s e ↔ Sound s e := by
  cases e with
  | sendData payload =>
    by_cases h : ∃ members m, payload = some (.object members) ∧ IsMessage members m
    · obtain ⟨members, m, rfl, hm⟩ := h
      rw [sendData_handled hs hfree hm]
      constructor
      · rintro h _ m' ⟨⟩ hm'
        exact hm.unique hm' ▸ h
      · exact fun h => h members m rfl hm
    · have hnone : ∀ members m, payload = some (.object members) → ¬ IsMessage members m :=
        fun members m heq hm => h ⟨members, m, heq, hm⟩
      constructor
      · exact fun _ members m heq hm => absurd hm (hnone members m heq)
      · intro _
        rw [Handled, sendData_refused hnone]
        exact right_refused hfree nofun
  | softwareUpdate payload =>
    by_cases h : ∃ component version file more,
        payload = some (.array (.string component :: .string version :: .string file :: more))
    · obtain ⟨component, version, file, more, rfl⟩ := h
      rw [softwareUpdate_handled hs hfree]
      constructor
      · rintro h _ _ _ _ ⟨⟩
        exact h
      · exact fun h => h component version file more rfl
    · have hnone : ∀ component version file more,
          payload ≠ some (.array (.string component :: .string version :: .string file :: more)) :=
        fun component version file more heq => h ⟨component, version, file, more, heq⟩
      constructor
      · exact fun _ component version file more heq =>
          absurd heq (hnone component version file more)
      · intro _
        rw [Handled, softwareUpdate_refused hnone]
        exact right_refused hfree nofun
  | _ => cases he

end Mihini.Airvantage
