import Mathlib.Data.List.TakeWhile
import Mihini.Web.Responses

/-!
# Exchanges with the web server

Requests as they come on a connection, and when each of them gets one whole response.
-/

namespace Mihini.Web.Server

open Mihini.Lib List
open Mihini.Lib.Http hiding Field IsField

/-! ## Requests -/

def chunkSize (line : Str) : Option Nat := tonumber 16 (line.takeWhile (· ≠ ';'))

inductive Body where
  | none
  | sized (data : Str)
  | chunked (chunks : List (Str × Str)) (last : Str) (trailers : List Str)

def Body.bytes : Body → Str
  | .none => []
  | .sized data => data
  | .chunked chunks last trailers =>
    chunks.flatMap (fun c => chunkOf c.1 c.2) ++
      (last ++ (crlf ++ (trailers.flatMap (· ++ crlf) ++ crlf)))

def Body.data : Body → Str
  | .none => []
  | .sized data => data
  | .chunked chunks _ _ => (chunks.map Prod.snd).flatten

def IsChunk (c : Str × Str) : Prop := IsLine c.1 ∧ c.2 ≠ [] ∧ chunkSize c.1 = some c.2.length

def Body.WellFormed : Body → Prop
  | .none | .sized _ => True
  | .chunked chunks last trailers =>
    (∀ c ∈ chunks, IsChunk c) ∧ (IsLine last ∧ chunkSize last = some 0) ∧
      ∀ t ∈ trailers, IsLine t ∧ t ≠ []

def fieldOf (fields : List Http.Field) (name : String) : Option Str :=
  (fields.reverse.find? fun f => lower f.1 = name.toList).map Prod.snd

def Announced (fields : List Http.Field) : Body → Prop
  | .none => fieldOf fields "content-length" = none ∧ fieldOf fields "transfer-encoding" = none
  | .sized data => (fieldOf fields "content-length").bind (tonumber 10) = some data.length ∧
      fieldOf fields "transfer-encoding" = none
  | .chunked _ _ _ => fieldOf fields "content-length" = none ∧
      ∃ value ∈ fieldOf fields "transfer-encoding", "chunked".toList <:+: lower value

def IsWord (s : Str) : Prop := s ≠ [] ∧ ∀ c ∈ s, isSpace c = false

instance : DecidablePred IsWord := fun s =>
  decidable_of_iff (s ≠ [] ∧ s.all (! isSpace ·) = true) (by simp [IsWord])

structure Request where
  method : Str
  target : Str
  version : Str
  fields : List Http.Field
  body : Body
  method_word : IsWord method
  target_word : IsWord target
  version_word : IsWord version
  fields_ok : ∀ f ∈ fields, Http.IsField f
  body_ok : body.WellFormed
  announced : Announced fields body

namespace Request

variable (q : Request)

def line : Str := q.method ++ ' ' :: (q.target ++ ' ' :: q.version)

def bytes : Str :=
  q.line ++
    (crlf ++ (q.fields.flatMap (fun f => (f.1 ++ ':' :: f.2) ++ crlf) ++ (crlf ++ q.body.bytes)))

def isHead : Bool := q.method = "HEAD".toList

def TakesBody : Prop := q.method = "POST".toList ∨ q.method = "PUT".toList

instance : Decidable q.TakesBody := inferInstanceAs (Decidable (_ ∨ _))

def headers : List Http.Field := (q.fields.map fun f => (lower f.1, f.2.tail)).reverse

def env (path : Str) : Env where
  method := q.method
  url := path
  httpVersion := q.version
  requestHeaders := q.headers
  body := if q.TakesBody then some q.body.data else none

/-- Chunks are announced by the word alone, or beside another announcement. -/
def ReadsChunks : Prop :=
  fieldOf q.fields "transfer-encoding" = some (' ' :: "chunked".toList) ∨
    "TE".toList <:+: ((fieldOf q.fields "connection").getD []).tail

instance : Decidable q.ReadsChunks := inferInstanceAs (Decidable (_ ∨ _))

/-- The body is not empty, and in chunks it has neither extensions nor trailers. -/
def Supported : Prop :=
  match q.body with
  | .none => False
  | .sized data => data ≠ []
  | .chunked chunks last trailers =>
    q.ReadsChunks ∧ (∀ c ∈ chunks, ';' ∉ c.1) ∧ ';' ∉ last ∧ trailers = []

def Refused : Prop := q.TakesBody ∧ ¬ q.Supported

end Request

/-! ## What is promised -/

/-- What is sent is one whole response: that of the page, or an error when there is no page or the body
is refused. -/
def Answered (site : Site) (q : Request) (t : Turn) : Prop :=
  ∃ path, matchPath q.target = some path ∧ ∃ start body,
    (match site.page q.method path with
    | .error txt => start = errorStart "404".toList txt ∧ body = txt
    | .ok page =>
      (q.Refused ∧ start = errorStart "500".toList body) ∨
        (¬ q.Refused ∧ Promised site page (q.env path) start body)) ∧
    Whole q.isHead t start body

/-- The condition on a request: its target has a path, and it has a page that is sound, and no body unless
the server reads it or closes the connection. -/
def Sound (site : Site) (q : Request) : Prop :=
  ∃ path, matchPath q.target = some path ∧
    match site.page q.method path with
    | .error _ => q.isHead = false
    | .ok page => q.Refused ∨ (PageSound site page (q.env path) q.isHead ∧
        (q.TakesBody ∨ q.body.bytes = [] ∨ PageCloses site page (q.env path)))

theorem IsWord.reverse {w : Str} (hw : IsWord w) : IsWord w.reverse :=
  ⟨fun h => hw.1 (reverse_eq_nil_iff.mp h), fun c hc => hw.2 c (mem_reverse.mp hc)⟩

namespace Request

variable {q : Request} {next : Str}

def turn (q : Request) (site : Site) (path next : Str) : Turn :=
  handleRequest site ⟨q.method, path, q.version, q.headers, none⟩ (q.body.bytes ++ next)

section

variable {site : Site} {path : Str}

end

end Request

/-! ## Connections -/

def onePage (content : Content) : Site where
  entry url := if url = "page".toList then
    some ⟨⟨some content, none, none, nofun⟩, fun _ => none⟩ else none
  mimeType _ := "text/html".toList
  pairs := id
  mimeType_line _ := by decide
  pairs_perm _ := .refl _

end Mihini.Web.Server
