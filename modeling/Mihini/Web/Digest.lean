import Mathlib.Logic.Function.Basic
import Mihini.Lib.LuaTable
import Mihini.Lib.Run

/-!
# Pages behind a digest authentication

`src/luafwk/web/auth/digest.lua`, and `web.handle_request` of `src/luafwk/web/server.lua`, which
calls the header function of a page before it sends the content.
-/

namespace Mihini.Web

open Mihini.Lib

abbrev Str := List Char

/-! ## The fields of an authorization -/

/-- `[%w@%-"/%.=]` -/
def isValue (c : Char) : Bool := c.isAlphanum || c ∈ ['@', '-', '"', '/', '.', '=']

/-- Where `gmatch` is: in what may be a key, or in the value of a key. -/
inductive Scan where
  | key (k : Str)
  | value (k v : Str)

/-- The matches of `%w+=[%w@%-"/%.=]*`, each cut at its first `=`, the value without quotes. -/
def scan : Scan → Str → List (Str × Str)
  | .key _, [] => []
  | .value k v, [] => [(k, v)]
  | .key k, c :: cs =>
    if c.isAlphanum then scan (.key (k ++ [c])) cs
    else if c = '=' ∧ k ≠ [] then scan (.value k []) cs
    else scan (.key []) cs
  | .value k v, c :: cs =>
    if isValue c then scan (.value k (if c = '"' then v else v ++ [c])) cs
    else (k, v) :: scan (.key []) cs

def auth (method authorization : Str) : LuaTable Str Str :=
  (LuaTable.assign ∅ (scan (.key []) authorization)).insert "method".toList method

/-! ## The header function -/

structure Env where
  method : Str
  url : Str
  authorization : Option Str
  body : Str

inductive Verdict where
  | unauthorized (error : String) (challenge : Str)
  | passed
  /-- An error: `nil` is concatenated. -/
  | raised

abbrev Nonces := LuaTable Str Str

section

variable (md5 : Str → Str)

/-- `web.md5` of strings with `":"` between them, when none of them is `nil`. -/
def hash (l : List (Option Str)) : Option Str :=
  (l.mapM id).map fun l => md5 ([':'].intercalate l)

def challenge (realm : Option Str) : Str :=
  "Digest realm=\"".toList ++ realm.getD "Secure Area".toList ++ "\", qop=\"auth,auth-int\",".toList

/-- `nonce_authenticate_header`, with the nonce and the opaque string that it makes. -/
def nonceAuthenticateHeader (nonces : Nonces) (header : Str) (fresh : Str × Str) : Nonces × Str :=
  (nonces.insert fresh.1 fresh.2,
    header ++ "nonce=\"".toList ++ fresh.1 ++ "\", opaque=\"".toList ++ fresh.2 ++ "\"".toList)

/-- The local `response`, for the fields of an authorization: it stays `nil` (`some none`) for a `qop`
that is not known, and `none` is an error. -/
def response (ha1 : Str) (get : String → Option Str) : Option (Option Str) :=
  let qop := get "qop"
  let isAuth := qop = some "auth".toList
  let second := hash md5 [get "method", get "uri"]
  if (isAuth ∨ qop = none) ∧ second = none then none
  else
    let ha2 := if isAuth ∨ qop = none then second else none
    if isAuth ∨ qop = some "auth-int".toList then
      (hash md5 [some ha1, get "nonce", get "nc", get "cnonce", qop, ha2]).map some
    else if qop = none then (hash md5 [some ha1, get "nonce", ha2]).map some
    else some none

/-- The function that `web.authenticate_header` returns: it may change the table of nonces and its
own `ha1`. -/
def authenticate (realm : Option Str) (nonces : Nonces) (ha1 : Str) (env : Env)
    (fresh : Str × Str) : Verdict × Nonces × Str :=
  match env.authorization with
  | none =>
    let (nonces, header) := nonceAuthenticateHeader nonces (challenge realm) fresh
    (.unauthorized "Login+password required" header, nonces, ha1)
  | some a =>
    let auth := auth env.method a
    let get (k : String) : Option Str := auth.lookup k.toList
    let issued := (get "nonce").bind nonces.lookup
    if issued = none ∨ issued ≠ get "opaque" then
      let (nonces, header) := nonceAuthenticateHeader nonces (challenge realm) fresh
      (.unauthorized "Wrong input" header, nonces, ha1)
    else
      let next :=
        if get "algorithm" = some "MD5-sess".toList then
          hash md5 [some ha1, get "nonce", get "cnonce"]
        else some ha1
      match next with
      | none => (.raised, nonces, ha1)
      | some ha1 =>
        match response md5 ha1 get with
        | none => (.raised, nonces, ha1)
        | some response =>
          if response ≠ get "response" then
            (.unauthorized "Authentication failure" (challenge realm), nonces, ha1)
          else (.passed, nonces, ha1)

end

/-! ## Requests -/

inductive Content where
  | text (s : Str)
  | function (name : Nat)

structure Resource where
  content : Option Content
  first : Option Content
  mimeType : Bool
  sink : Bool
  header : Option Nat

structure Page extends Resource where
  methods : Str → Option Resource

inductive Field where
  | resource (r : Resource)
  | text
  | function

def Page.index (page : Page) (name : Str) : Option Field :=
  if name = "content".toList then
    page.content.map fun
      | .text _ => .text
      | .function _ => .function
  else if name = "header".toList then page.header.map fun _ => .function
  else if name = "sink".toList then if page.sink then some .function else none
  else if name = "mime_type".toList then if page.mimeType then some .text else none
  else (page.methods name).map .resource

structure Config where
  site : Str → Option Page
  /-- `web.pattern`, in the order of `pairs`. -/
  pattern : List (Str × Page)
  /-- Whether `string.match(url, pattern)` finds something. -/
  isMatch : Str → Str → Bool
  /-- The arguments of the calls of `web.authenticate_header`. -/
  realm : Nat → Option Str
  ha1 : Nat → Str

/-- `string.match(url, "/([^%?]*)%??(.*)")`, its first result. -/
def path (url : Str) : Option Str :=
  match url.dropWhile (· ≠ '/') with
  | [] => none
  | _ :: rest => some (rest.takeWhile (· ≠ '?'))

inductive Outcome where
  | error (status : Nat) (msg : Option String)
  | unauthorized (error : String) (challenge : Str)
  | content (c : Content)
  | raised

namespace Config

def page (cfg : Config) (url : Str) : Option Page :=
  (cfg.site url).or ((cfg.pattern.find? fun e => e.1 ≠ [] ∧ cfg.isMatch url e.1).map Prod.snd)

/-- `web.handle_request`, up to the response: the resource, when the body has been read. -/
def route (cfg : Config) (env : Env) (read : Except String Unit) : Except Outcome Resource :=
  match path env.url with
  | none => .error .raised
  | some url =>
    match cfg.page url with
    | none => .error (.error 404 none)
    | some page =>
      let body (r : Resource) : Except Outcome Resource :=
        if env.method = "POST".toList ∨ env.method = "PUT".toList then
          match read with
          | .ok () => .ok r
          | .error msg => .error (.error 500 (some msg))
        else .ok r
      match page.index env.method with
      | none => body page.toResource
      | some (.resource r) => if r.content.isNone then .error (.error 404 none) else body r
      | some .text => .error (.error 404 none)
      | some .function => .error .raised

end Config

def respond (r : Resource) : Outcome :=
  match r.content.or r.first with
  | some c => .content c
  | none => .raised

structure State where
  nonces : Nonces
  /-- The upvalue `ha1` of each header function. -/
  ha1 : Nat → Str

def Config.init (cfg : Config) : State := ⟨∅, cfg.ha1⟩

section

variable (md5 : Str → Str) (cfg : Config)

def handleRequest (s : State) (env : Env) (read : Except String Unit) (fresh : Str × Str) :
    State × Outcome :=
  match cfg.route env read with
  | .error o => (s, o)
  | .ok r =>
    match r.header with
    | none => (s, respond r)
    | some k =>
      let (verdict, nonces, ha1) :=
        authenticate md5 (cfg.realm k) s.nonces (s.ha1 k) env fresh
      let s' : State := ⟨nonces, Function.update s.ha1 k ha1⟩
      match verdict with
      | .unauthorized error challenge => (s', .unauthorized error challenge)
      | .raised => (s', .raised)
      | .passed => (s', respond r)

inductive Event where
  | request (env : Env) (read : Except String Unit) (fresh : Str × Str)
  | expire (nonce : Str)

def step (s : State) : Event → State
  | .request env read fresh => (handleRequest md5 cfg s env read fresh).1
  | .expire nonce => { s with nonces := s.nonces.erase nonce }

end

end Mihini.Web
