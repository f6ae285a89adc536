import Mathlib.Data.List.AList
import Mathlib.Data.List.Infix
import Mihini.Lib.LuaTable
import Mihini.Lib.Run

/-!
# REST resources

`M.register` and `M.unregister` of `src/luafwk/web/rest.lua`, and how `web.handle_request` of
`src/luafwk/web/server.lua` comes to the resource of a request.  The loop over `pairs(web.pattern)` may
take the patterns in any order.
-/

namespace Mihini.Web.Rest

open Mihini.Lib Function AList

abbrev Str := List Char

/-! ## The table of patterns -/

structure Resource where
  handler : Nat
  header : Bool
  sink : Bool
  deriving DecidableEq

abbrev Patterns := LuaTable Str (LuaTable Str Resource)

def Patterns.resource (t : Patterns) (pattern method : Str) : Option Resource :=
  (t.lookup pattern).bind fun map => map.lookup method

inductive Reply where
  | ok
  | doesNotExist
  | raised
  deriving DecidableEq

/-- `M.register`; `restricted` are the resources that `config.rest.restricted_uri` names. -/
def register (restricted : Str → Bool) (t : Patterns) (url rtype : Str) (handler : Nat)
    (payloadSink : Bool) : Patterns :=
  let map := (t.lookup url).getD ∅
  t.insert url (map.insert rtype
    { handler := handler
      header := restricted url || restricted ['*']
      sink := (rtype = "POST".toList || rtype = "PUT".toList) && payloadSink })

/-- `M.unregister`.  The loop that counts the resources that are left calls `web.pattern[URL]`, which is
a table, so that what comes after it is not executed. -/
def unregister (t : Patterns) (url rtype : Str) : Patterns × Reply :=
  match t.lookup url with
  | none => (t, .doesNotExist)
  | some map => (t.insert url (map.erase rtype), .raised)

/-! ## Requests -/

/-- What `string.match` does with a pattern. -/
inductive Match where
  | yes
  | no
  | malformed
  deriving DecidableEq

structure Request where
  url : Str
  method : Str
  hasBody : Bool

/-- The functions that read the body of a POST or a PUT refuse a request without one. -/
def Request.LacksBody (req : Request) : Prop :=
  (req.method = "POST".toList ∨ req.method = "PUT".toList) ∧ req.hasBody = false

instance : DecidablePred Request.LacksBody := fun req =>
  inferInstanceAs (Decidable ((req.method = _ ∨ req.method = _) ∧ _))

inductive Outcome where
  /-- A page of `web.site`. -/
  | page
  /-- The header function of the resource and its handler have the request. -/
  | reached (r : Resource)
  | error (status : Nat)
  | raised
  deriving DecidableEq

def Outcome.handler : Outcome → Option Nat
  | .reached r => some r.handler
  | _ => none

section

variable (luaMatch : Str → Str → Match)

inductive Choice where
  | nothing
  | found (map : LuaTable Str Resource)
  | raised

def choose (t : Patterns) (url : Str) : List Str → Choice
  | [] => .nothing
  | pattern :: rest =>
    match t.lookup pattern with
    | none => choose t url rest
    | some map =>
      if pattern = [] then choose t url rest
      else
        match luaMatch url pattern with
        | .yes => .found map
        | .no => choose t url rest
        | .malformed => .raised

/-- `web.handle_request`, with the patterns in the order of the loop.  When the method has no resource
the whole map is taken for the page, whose content is `nil` or a table, and is called. -/
def handleRequest (site : Str → Bool) (t : Patterns) (order : List Str) (req : Request) : Outcome :=
  if site req.url then .page
  else
    match choose luaMatch t req.url order with
    | .nothing => .error 404
    | .raised => .raised
    | .found map =>
      if req.LacksBody then .error 500
      else
        match map.lookup req.method with
        | some r => .reached r
        | none => .raised

end

/-! ## Sequences of registrations -/

inductive Event where
  | register (url rtype : Str) (handler : Nat) (payloadSink : Bool)
  | unregister (url rtype : Str)
  deriving DecidableEq

def step (restricted : Str → Bool) (t : Patterns) : Event → Patterns
  | .register url rtype handler payloadSink => register restricted t url rtype handler payloadSink
  | .unregister url rtype => (unregister t url rtype).1

abbrev Registered := Str → Str → Option Nat

def Registered.step (reg : Registered) : Event → Registered
  | .register url rtype handler _ =>
    update reg url (update (reg url) rtype (some handler))
  | .unregister url rtype => update reg url (update (reg url) rtype none)

theorem resource_register (restricted : Str → Bool) (t : Patterns) (url rtype : Str) (handler : Nat)
    (payloadSink : Bool) (pattern method : Str) :
    ((register restricted t url rtype handler payloadSink).resource pattern method).map
        Resource.handler =
      if pattern = url ∧ method = rtype then some handler
      else (t.resource pattern method).map Resource.handler := by
  unfold register Patterns.resource
  by_cases hurl : pattern = url
  · rw [hurl, lookup_insert, Option.bind_some]
    by_cases hmethod : method = rtype
    · rw [hmethod, lookup_insert, if_pos ⟨rfl, rfl⟩]
      rfl
    · rw [lookup_insert_ne hmethod, if_neg fun h => hmethod h.2]
      cases t.lookup url <;> rfl
  · rw [lookup_insert_ne hurl, if_neg fun h => hurl h.1]

theorem resource_unregister (t : Patterns) (url rtype pattern method : Str) :
    (unregister t url rtype).1.resource pattern method =
      if pattern = url ∧ method = rtype then none else t.resource pattern method := by
  unfold unregister Patterns.resource
  by_cases hurl : pattern = url
  · rw [hurl]
    cases hmap : t.lookup url with
    | none =>
      show (t.lookup url).bind _ = _
      rw [hmap, Option.bind_none, ite_self]
    | some map =>
      show ((t.insert url (map.erase rtype)).lookup url).bind _ = _
      rw [lookup_insert, Option.bind_some]
      by_cases hmethod : method = rtype
      · rw [hmethod, lookup_erase, if_pos ⟨rfl, rfl⟩]
      · rw [lookup_erase_ne hmethod, if_neg fun h => hmethod h.2]
        rfl
  · rw [if_neg fun h => hurl h.1]
    cases hmap : t.lookup url with
    | none => rfl
    | some map =>
      show ((t.insert url (map.erase rtype)).lookup pattern).bind _ = _
      rw [lookup_insert_ne hurl]

theorem update_update_apply (reg : Registered) (url rtype : Str) (v : Option Nat)
    (pattern method : Str) :
    update reg url (update (reg url) rtype v) pattern method =
      if pattern = url ∧ method = rtype then v else reg pattern method := by
  by_cases hurl : pattern = url
  · rw [hurl, update_self, update_apply]
    by_cases hmethod : method = rtype
    · rw [if_pos hmethod, if_pos ⟨rfl, hmethod⟩]
    · rw [if_neg hmethod, if_neg fun h => hmethod h.2]
  · rw [update_of_ne hurl, if_neg fun h => hurl h.1]

def Agrees (t : Patterns) (reg : Registered) : Prop :=
  ∀ pattern method, (t.resource pattern method).map Resource.handler = reg pattern method

theorem Agrees.step {restricted : Str → Bool} {t : Patterns} {reg : Registered} (h : Agrees t reg)
    (e : Event) : Agrees (step restricted t e) (reg.step e) := by
  intro pattern method
  cases e with
  | register url rtype handler payloadSink =>
    show ((register restricted t url rtype handler payloadSink).resource pattern method).map _ = _
    rw [resource_register, h, Registered.step, update_update_apply]
  | unregister url rtype =>
    show ((unregister t url rtype).1.resource pattern method).map _ = _
    rw [resource_unregister, Registered.step, update_update_apply, ← h]
    split_ifs <;> rfl

theorem agrees_foldl {restricted : Str → Bool} {t : Patterns} {reg : Registered} (h : Agrees t reg)
    (events : List Event) :
    Agrees (events.foldl (step restricted) t) (events.foldl Registered.step reg) := by
  induction events generalizing t reg with
  | nil => exact h
  | cons e events ih => exact ih (h.step e)

/-! ## What a request should reach -/

section

variable (luaMatch : Str → Str → Match) (site : Str → Bool)

def Hits (url pattern : Str) : Prop := pattern ≠ [] ∧ luaMatch url pattern = .yes

def Matched (t : Patterns) (req : Request) (r : Resource) : Prop :=
  ∃ pattern, Hits luaMatch req.url pattern ∧ t.resource pattern req.method = some r

/-- The handler does not depend on the order, and it is that of a resource which matches; when there is
none, or no body where there must be one, the answer is an error. -/
structure Routed (t : Patterns) (req : Request) : Prop where
  independent : ∀ o o' : List Str, o.Perm t.keys → o'.Perm t.keys →
    (handleRequest luaMatch site t o req).handler = (handleRequest luaMatch site t o' req).handler
  reached : ¬ req.LacksBody → (∃ r, Matched luaMatch t req r) → ∀ o : List Str, o.Perm t.keys →
    ∃ r, Matched luaMatch t req r ∧ handleRequest luaMatch site t o req = .reached r
  error : (req.LacksBody ∨ ¬ ∃ r, Matched luaMatch t req r) → ∀ o : List Str, o.Perm t.keys →
    ∃ status, handleRequest luaMatch site t o req = .error status

/-- There is no page for the URL, no pattern is malformed, and all the patterns that match have the same
handler for the method. -/
structure Served (t : Patterns) (req : Request) : Prop where
  noPage : site req.url = false
  wellFormed : ∀ pattern ∈ t, pattern ≠ [] → luaMatch req.url pattern ≠ .malformed
  agree : req.LacksBody ∨ ∃ handler, ∀ pattern map, t.lookup pattern = some map →
    Hits luaMatch req.url pattern → ∃ r, map.lookup req.method = some r ∧ r.handler = handler

variable {luaMatch site} {t : Patterns} {req : Request}

theorem choose_cases {url : Str} (order : List Str)
    (h : ∀ pattern ∈ t, pattern ≠ [] → luaMatch url pattern ≠ .malformed) :
    choose luaMatch t url order = .nothing ∧
      (∀ pattern ∈ order, pattern ∈ t → ¬ Hits luaMatch url pattern) ∨
    ∃ pattern map, t.lookup pattern = some map ∧ Hits luaMatch url pattern ∧
      choose luaMatch t url order = .found map := by
  induction order with
  | nil => exact .inl ⟨rfl, nofun⟩
  | cons pattern rest ih =>
    -- The loop goes on when the pattern is not in the table or does not hit.
    have hskip : choose luaMatch t url (pattern :: rest) = choose luaMatch t url rest →
        (pattern ∈ t → ¬ Hits luaMatch url pattern) →
        choose luaMatch t url (pattern :: rest) = .nothing ∧
          (∀ p ∈ pattern :: rest, p ∈ t → ¬ Hits luaMatch url p) ∨
        ∃ p map, t.lookup p = some map ∧ Hits luaMatch url p ∧
          choose luaMatch t url (pattern :: rest) = .found map := by
      intro heq hnot
      rw [heq]
      refine ih.imp_left fun hnothing => ⟨hnothing.1, fun p hp => ?_⟩
      rcases List.mem_cons.mp hp with rfl | hp
      · exact hnot
      · exact hnothing.2 p hp
    cases hmap : t.lookup pattern with
    | none =>
      refine hskip (by rw [choose, hmap]) fun hmem => absurd hmap ?_
      exact Option.isSome_iff_ne_none.mp (lookup_isSome.mpr hmem)
    | some map =>
      by_cases hnil : pattern = []
      · refine hskip (by rw [choose, hmap]; exact if_pos hnil) fun _ hhit => hhit.1 hnil
      have hmem : pattern ∈ t := lookup_isSome.mp (by rw [hmap]; rfl)
      cases hmatch : luaMatch url pattern with
      | malformed => exact absurd hmatch (h pattern hmem hnil)
      | no =>
        refine hskip ?_ fun _ hhit => nomatch hmatch.symm.trans hhit.2
        simp only [choose, hmap, if_neg hnil, hmatch]
      | yes =>
        refine .inr ⟨pattern, map, hmap, ⟨hnil, hmatch⟩, ?_⟩
        simp only [choose, hmap, if_neg hnil, hmatch]

/-- The first pattern decides when the loop does not pass over it. -/
theorem choose_head {url pattern : Str} {map : LuaTable Str Resource}
    (hmap : t.lookup pattern = some map) (hnil : pattern ≠ []) (rest : List Str) :
    choose luaMatch t url (pattern :: rest) =
      match luaMatch url pattern with
      | .yes => .found map
      | .no => choose luaMatch t url rest
      | .malformed => .raised := by
  simp only [choose, hmap, if_neg hnil]

theorem perm_first {pattern : Str} (h : pattern ∈ t) :
    (pattern :: t.keys.erase pattern).Perm t.keys :=
  (List.perm_cons_erase (mem_keys.mp h)).symm

theorem Matched.of_hits {pattern : Str} {map : LuaTable Str Resource} {r : Resource}
    (hmap : t.lookup pattern = some map) (hhit : Hits luaMatch req.url pattern)
    (hr : map.lookup req.method = some r) : Matched luaMatch t req r :=
  ⟨pattern, hhit, by rw [Patterns.resource, hmap]; exact hr⟩

theorem Served.routed (h : Served luaMatch site t req) : Routed luaMatch site t req := by
  have hcases : ∀ o : List Str, o.Perm t.keys →
      (handleRequest luaMatch site t o req = .error 404 ∧ ¬ ∃ r, Matched luaMatch t req r) ∨
      ∃ pattern map, t.lookup pattern = some map ∧ Hits luaMatch req.url pattern ∧
        handleRequest luaMatch site t o req =
          if req.LacksBody then .error 500
          else match map.lookup req.method with
            | some r => .reached r
            | none => .raised := by
    intro o ho
    unfold handleRequest
    rw [h.noPage, if_neg Bool.false_ne_true]
    rcases choose_cases o h.wellFormed with ⟨hchoose, hnone⟩ | ⟨p, map, hmap, hhit, hchoose⟩
    · rw [hchoose]
      refine .inl ⟨rfl, fun hmatched => ?_⟩
      obtain ⟨r, p, hhit, hr⟩ := hmatched
      obtain ⟨map, hmap, -⟩ := Option.bind_eq_some_iff.mp hr
      have hmem : p ∈ t := lookup_isSome.mp (by rw [hmap]; rfl)
      exact hnone p (ho.mem_iff.mpr (mem_keys.mp hmem)) hmem hhit
    · rw [hchoose]
      exact .inr ⟨p, map, hmap, hhit, rfl⟩
  -- Whatever the order, the first hit leads to the handler on which all agree.
  have hagree : ¬ req.LacksBody → ∃ handler, ∀ o : List Str, o.Perm t.keys →
      (handleRequest luaMatch site t o req = .error 404 ∧ ¬ ∃ r, Matched luaMatch t req r) ∨
      ∃ r, Matched luaMatch t req r ∧ r.handler = handler ∧
        handleRequest luaMatch site t o req = .reached r := by
    intro hbody
    obtain ⟨handler, hhandler⟩ := h.agree.resolve_left hbody
    refine ⟨handler, fun o ho => (hcases o ho).imp_right ?_⟩
    intro ⟨p, map, hmap, hhit, heq⟩
    obtain ⟨r, hr, hsame⟩ := hhandler p map hmap hhit
    refine ⟨r, .of_hits hmap hhit hr, hsame, ?_⟩
    rw [heq, if_neg hbody, hr]
  refine ⟨fun o o' ho ho' => ?_, fun hbody hmatched o ho => ?_, fun hnone o ho => ?_⟩
  · by_cases hbody : req.LacksBody
    · have hnohandler : ∀ o : List Str, o.Perm t.keys →
          (handleRequest luaMatch site t o req).handler = none := by
        intro o ho
        rcases hcases o ho with ⟨heq, -⟩ | ⟨p, map, -, -, heq⟩
        · rw [heq]
          rfl
        · rw [heq, if_pos hbody]
          rfl
      rw [hnohandler o ho, hnohandler o' ho']
    · obtain ⟨handler, hhandler⟩ := hagree hbody
      rcases hhandler o ho with ⟨heq, hno⟩ | ⟨r, hr, hsame, heq⟩
      · rcases hhandler o' ho' with ⟨heq', -⟩ | ⟨r, hr, -⟩
        · rw [heq, heq']
        · exact absurd ⟨r, hr⟩ hno
      · rcases hhandler o' ho' with ⟨-, hno⟩ | ⟨r', -, hsame', heq'⟩
        · exact absurd ⟨r, hr⟩ hno
        · rw [heq, heq']
          exact congrArg some (hsame.trans hsame'.symm)
  · obtain ⟨handler, hhandler⟩ := hagree hbody
    rcases hhandler o ho with ⟨-, hno⟩ | ⟨r, hr, -, heq⟩
    · exact absurd hmatched hno
    · exact ⟨r, hr, heq⟩
  · by_cases hbody : req.LacksBody
    · rcases hcases o ho with ⟨heq, -⟩ | ⟨p, map, -, -, heq⟩
      · exact ⟨404, heq⟩
      · exact ⟨500, by rw [heq, if_pos hbody]⟩
    · obtain ⟨handler, hhandler⟩ := hagree hbody
      rcases hhandler o ho with ⟨heq, -⟩ | ⟨r, hr, -⟩
      · exact ⟨404, heq⟩
      · exact absurd ⟨r, hr⟩ (hnone.resolve_left hbody)

theorem Routed.outcome (h : Routed luaMatch site t req) {o : List Str} (ho : o.Perm t.keys) :
    (∃ r, handleRequest luaMatch site t o req = .reached r) ∨
      ∃ status, handleRequest luaMatch site t o req = .error status := by
  by_cases hmatched : ¬ req.LacksBody ∧ ∃ r, Matched luaMatch t req r
  · obtain ⟨r, -, heq⟩ := h.reached hmatched.1 hmatched.2 o ho
    exact .inl ⟨r, heq⟩
  · refine .inr (h.error ?_ o ho)
    by_cases hbody : req.LacksBody
    · exact .inl hbody
    · exact .inr fun hr => hmatched ⟨hbody, hr⟩

theorem Routed.served (h : Routed luaMatch site t req) : Served luaMatch site t req := by
  have hpage : site req.url = false := by
    by_contra hsite
    have heq : handleRequest luaMatch site t t.keys req = .page :=
      if_pos (Bool.of_not_eq_false hsite)
    rcases h.outcome (.refl t.keys) with ⟨r, hr⟩ | ⟨status, hr⟩
    · exact nomatch heq.symm.trans hr
    · exact nomatch heq.symm.trans hr
  have hfirst : ∀ pattern map, t.lookup pattern = some map → pattern ≠ [] →
      handleRequest luaMatch site t (pattern :: t.keys.erase pattern) req =
        match luaMatch req.url pattern with
        | .yes => if req.LacksBody then .error 500
          else match map.lookup req.method with
            | some r => .reached r
            | none => .raised
        | .no => handleRequest luaMatch site t (t.keys.erase pattern) req
        | .malformed => .raised := by
    intro pattern map hmap hnil
    unfold handleRequest
    rw [hpage, if_neg Bool.false_ne_true, choose_head hmap hnil]
    cases luaMatch req.url pattern <;> rfl
  refine ⟨hpage, fun pattern hmem hnil hmatch => ?_, ?_⟩
  · obtain ⟨map, hmap⟩ := Option.isSome_iff_exists.mp (lookup_isSome.mpr hmem)
    have heq := hfirst pattern map hmap hnil
    rw [hmatch] at heq
    rcases h.outcome (perm_first hmem) with ⟨r, hr⟩ | ⟨status, hr⟩
    · exact nomatch heq.symm.trans hr
    · exact nomatch heq.symm.trans hr
  · by_cases hbody : req.LacksBody
    · exact .inl hbody
    -- Each pattern that hits decides when it comes first.
    have hhit : ∀ pattern map, t.lookup pattern = some map → Hits luaMatch req.url pattern →
        ∃ r, map.lookup req.method = some r ∧
          handleRequest luaMatch site t (pattern :: t.keys.erase pattern) req = .reached r := by
      intro pattern map hmap hhits
      have hmem : pattern ∈ t := lookup_isSome.mp (by rw [hmap]; rfl)
      have heq := hfirst pattern map hmap hhits.1
      rw [hhits.2] at heq
      dsimp only at heq
      rw [if_neg hbody] at heq
      cases hr : map.lookup req.method with
      | some r =>
        rw [hr] at heq
        exact ⟨r, rfl, heq⟩
      | none =>
        rw [hr] at heq
        rcases h.outcome (perm_first hmem) with ⟨r, hr⟩ | ⟨status, hr⟩
        · exact nomatch heq.symm.trans hr
        · exact nomatch heq.symm.trans hr
    refine .inr ?_
    by_cases hany : ∃ pattern map, t.lookup pattern = some map ∧ Hits luaMatch req.url pattern
    · obtain ⟨p, map, hmap, hhits⟩ := hany
      obtain ⟨r, -, heq⟩ := hhit p map hmap hhits
      refine ⟨r.handler, fun p' map' hmap' hhits' => ?_⟩
      obtain ⟨r', hr', heq'⟩ := hhit p' map' hmap' hhits'
      have hmem : p ∈ t := lookup_isSome.mp (by rw [hmap]; rfl)
      have hmem' : p' ∈ t := lookup_isSome.mp (by rw [hmap']; rfl)
      have hsame := h.independent _ _ (perm_first hmem') (perm_first hmem)
      rw [heq, heq'] at hsame
      exact ⟨r', hr', Option.some.inj hsame⟩
    · exact ⟨0, fun p map hmap hhits => absurd ⟨p, map, hmap, hhits⟩ hany⟩

end

/-- After any sequence of registrations the table has the handlers that are registered, and a request is
routed as it should exactly when there is no page for its URL, no pattern is malformed, and all the
patterns that match have the same handler for the method. -/
theorem rest_routing (luaMatch : Str → Str → Match) (site restricted : Str → Bool)
    (events : List Event) :
    let t : Patterns := events.foldl (step restricted) ∅
    Agrees t (events.foldl Registered.step fun _ _ => none) ∧
      ∀ req, Routed luaMatch site t req ↔ Served luaMatch site t req :=
  ⟨agrees_foldl (fun _ _ => rfl) events, fun _ => ⟨Routed.served, Served.routed⟩⟩

/-- `string.match` with a pattern that has no magic character. -/
def plainMatch (s pattern : Str) : Match := if pattern <:+: s then .yes else .no

/-- Two resources match one URL: the handler depends on the order.  A method without a resource is
called as a page, and so is a resource that is unregistered, which fails. -/
theorem order_decides :
    let get : Str := "GET".toList
    let t : Patterns := [.register ['a'] get 1 false, .register ['b'] get 2 false].foldl
      (step fun _ => false) ∅
    let u := unregister t ['a'] get
    let reach (t : Patterns) (o : List Str) (url method : Str) :=
      handleRequest plainMatch (fun _ => false) t o ⟨url, method, false⟩
    (reach t [['a'], ['b']] ['a', 'b'] get).handler = some 1 ∧
      (reach t [['b'], ['a']] ['a', 'b'] get).handler = some 2 ∧
      reach t [['a'], ['b']] ['a'] "DELETE".toList = .raised ∧
      u.2 = .raised ∧ reach u.1 [['a'], ['b']] ['a'] get = .raised ∧
      reach u.1 [['a'], ['b']] ['a', 'b'] get = .raised := by
  decide

end Mihini.Web.Rest
