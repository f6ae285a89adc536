import Mathlib.Data.List.Infix
import Mihini.Lib.Http
import Mihini.Web.Digest

/-!
# Connections of the web server

`web.handle_connection` and `web.handle_request` of `src/luafwk/web/server.lua`, over the characters that
come and that are sent, and the requests and pages they are run on.
-/

namespace Mihini.Web.Server

open Mihini.Lib
open Mihini.Lib.Http hiding Field IsField

/-! ## Sites -/

/-- What the functions of a page get of `env`. -/
structure Env where
  method : Str
  url : Str
  httpVersion : Str
  requestHeaders : List Http.Field
  body : Option Str

structure Result where
  echoes : List Str
  error : Option Str

inductive Content where
  | static (content : Str)
  | dynamic (content : Env → Result)

/-- `env.response`, `env.response_headers` and `env.error_msg`, after a header function. -/
structure Answer where
  response : Str
  headers : List Http.Field
  errorMsg : Option Str
  response_line : IsLine response
  headers_fields : ∀ f ∈ headers, Http.IsField f
  headers_nodup : (headers.map Prod.fst).Nodup

structure Page where
  content : Option Content
  mimeType : Option Str
  header : Option (Env → List Http.Field → Answer)
  mimeType_line : ∀ m ∈ mimeType, IsLine m

/-- An entry of `web.site` or `web.pattern`, which may have pages of its own for methods. -/
structure Entry where
  page : Page
  methods : Str → Option Page

structure Site where
  entry : Str → Option Entry
  mimeType : Str → Str
  /-- The order in which `pairs` gives the fields of a response. -/
  pairs : List Http.Field → List Http.Field
  mimeType_line : ∀ url, IsLine (mimeType url)
  pairs_perm : ∀ l, (pairs l).Perm l

/-! ## Responses -/

def errorStart (status txt : Str) : Str := "HTTP/1.1 ".toList ++ (status ++ ' ' :: txt)

/-- What `web.send_error` sends, before it closes the connection. -/
def sendError (status txt : Str) : Str :=
  head (errorStart status txt)
      [("Content-Type".toList, "text/html; charset=iso-8859-1".toList),
        ("Connection".toList, "close".toList),
        ("Content-Length".toList, toNumeral 10 txt.length)] ++ txt

def okResponse : Str := "HTTP/1.1 200 OK".toList

inductive Ending where
  | continues
  | closed
  | raised
  deriving DecidableEq

/-- One turn of `web.handle_connection`: what it sends, what is left to receive, and how it ends. -/
structure Turn where
  written : Str
  left : Str
  ending : Ending
  deriving DecidableEq

def Env.lookup (env : Env) (name : String) : Option Str := env.requestHeaders.lookup name.toList

/-- The class `%s`. -/
def isSpace (c : Char) : Bool := c = ' ' ∨ (9 ≤ c.toNat ∧ c.toNat ≤ 13)

def tonumber (b : Nat) (s : Str) : Option Nat :=
  ofNumeral b ((s.dropWhile isSpace).reverse.dropWhile isSpace).reverse

def readChunks (skt : Str) : Option (Str × Str) := takeChunks (tonumber 16) skt

/-- `web.handle_post_body` and `web.handle_put_body`, which differ in the texts of their errors. -/
def handleBody (unsupported unreadable : Str) (env : Env) (s : Str) : Except Str (Str × Str) :=
  let len := ((env.lookup "content-length").bind (tonumber 10)).getD 0
  if 0 < len then
    match takeBytes len s with
    | some x => .ok x
    | none => .error unreadable
  else if env.lookup "transfer-encoding" = some "chunked".toList ∨
      "TE".toList <:+: (env.lookup "connection").getD [] then
    match readChunks s with
    | some x => .ok x
    | none => .error unreadable
  else .error unsupported

def handlePostBody : Env → Str → Except Str (Str × Str) :=
  handleBody "Body encoding not supported or missing header".toList
    "Cannot retrieve POST parameters".toList

def handlePutBody : Env → Str → Except Str (Str × Str) :=
  handleBody "Body encoding not supported or missing headers".toList
    "Cannot retrieve PUT parameters".toList

def Site.page (site : Site) (method url : Str) : Except Str Page :=
  match site.entry url with
  | none => .error ("No handler found for ".toList ++ url)
  | some entry =>
    match entry.methods method with
    | none => .ok entry.page
    | some page =>
      match page.content with
      | none => .error ("HTTP/".toList ++ method ++ " is not supported for ".toList ++ url)
      | some _ => .ok page

def Page.headers (site : Site) (page : Page) (env : Env) : List Http.Field :=
  [("Content-Type".toList, page.mimeType.getD (site.mimeType env.url)),
    ("Connection".toList, (env.lookup "Connection").getD "keep-alive".toList),
    match page.content with
    | some (.static content) => ("Content-Length".toList, toNumeral 10 content.length)
    | _ => ("Transfer-Encoding".toList, "chunked".toList)]

def Page.answer (site : Site) (page : Page) (env : Env) : Str × List Http.Field × Option Str :=
  match page.header with
  | none => (okResponse, page.headers site env, none)
  | some hf =>
    let answer := hf env (page.headers site env)
    (answer.response, answer.headers, answer.errorMsg)

/-- The rest of `web.handle_request`, from the default response on. -/
def respond (site : Site) (page : Page) (env : Env) (s : Str) : Turn :=
  let (response, headers, errorMsg) := page.answer site env
  let sentHead := head response (site.pairs headers)
  let ending := if ("Connection".toList, "close".toList) ∈ headers then .closed else .continues
  if response ≠ okResponse then ⟨sentHead, s, .continues⟩
  else
    match page.content, errorMsg with
    | some (.static content), _ => ⟨sentHead ++ content, s, ending⟩
    | _, some err => ⟨chunk err ++ chunk [], s, .continues⟩
    | none, none => ⟨[], s, .raised⟩
    | some (.dynamic content), none =>
      let result := content env
      let sent :=
        if result.echoes = [] then []
        else sentHead ++ (result.echoes.filter (· ≠ [])).flatMap chunk
      match result.error with
      | some err => ⟨sent ++ sendError "500".toList err, s, .closed⟩
      | none => ⟨sent ++ chunk [], s, ending⟩

def handleRequest (site : Site) (env : Env) (s : Str) : Turn :=
  match site.page env.method env.url with
  | .error txt => ⟨sendError "404".toList txt, s, .closed⟩
  | .ok page =>
    if env.method = "POST".toList ∨ env.method = "PUT".toList then
      match if env.method = "POST".toList then handlePostBody env s else handlePutBody env s with
      | .error txt => ⟨sendError "500".toList txt, s, .closed⟩
      | .ok (body, s) => respond site page { env with body := some body } s
    else respond site page env s

/-! ## Requests that come -/

/-- The pattern `%S+`, and what follows it. -/
def takeWord (s : Str) : Option (Str × Str) :=
  let word := s.takeWhile (! isSpace ·)
  if word = [] then none else some (word, s.dropWhile (! isSpace ·))

/-- The pattern `^(%S+) (%S+) (%S+)`. -/
def matchRequest (line : Str) : Option (Str × Str × Str) :=
  match takeWord line with
  | some (method, ' ' :: s) =>
    match takeWord s with
    | some (url, ' ' :: s) => (takeWord s).map fun x => (method, url, x.1)
    | _ => none
  | _ => none

/-- The pattern `/([^%?]*)%??(.*)`, up to the question mark. -/
def matchPath (url : Str) : Option Str :=
  match url.dropWhile (· ≠ '/') with
  | [] => none
  | _ :: s => some (s.takeWhile (· ≠ '?'))

def receiveHeaders (s : Str) (headers : List Http.Field) : List Http.Field × Str :=
  match h : takeLine s with
  | none => (headers, [])
  | some (line, rest) =>
    match parseField line with
    | none => (headers, rest)
    | some f => receiveHeaders rest ((lower f.1, f.2) :: headers)
  termination_by s.length
  decreasing_by exact (isLine_of_takeLine h).2

/-- One turn of the loop of `web.handle_connection`; `none` when it ends before there is a request. -/
def turn (site : Site) (s : Str) : Option Turn :=
  match takeLine s with
  | none => none
  | some (line, s) =>
    match matchRequest line with
    | none => none
    | some (method, url, version) =>
      match matchPath url with
      | none => some ⟨[], s, .raised⟩
      | some path =>
        let (headers, s) := receiveHeaders s []
        some (handleRequest site ⟨method, path, version, headers, none⟩ s)

/-! ## What is left -/

end Mihini.Web.Server
