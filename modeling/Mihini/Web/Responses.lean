import Mihini.Web.Server

/-!
# Responses of the web server

What is sent for a page or an error, read back as a message, and when that is one whole message.
-/

namespace Mihini.Web.Server

open Mihini.Lib List
open Mihini.Lib.Http hiding Field IsField

def noContent (start : Str) : Bool :=
  "HTTP/1.1 204".toList.isPrefixOf start || "HTTP/1.1 304".toList.isPrefixOf start

def bodiless (isHead : Bool) (start : Str) : Bool := isHead || noContent start

/-- What is sent, and what follows it when the connection is closed, is one message with this first line
and this body. -/
def Whole (isHead : Bool) (t : Turn) (start body : Str) : Prop :=
  takeMessage (bodiless isHead) (t.ending = .closed) t.written =
    some (start, if bodiless isHead start then [] else body, [])

/-- The first line and the body of a page's response, which is an error when the page returns one. -/
def Promised (site : Site) (page : Page) (env : Env) (start body : Str) : Prop :=
  let (response, _, errorMsg) := page.answer site env
  if response ≠ okResponse then start = response ∧ body = []
  else
    match page.content, errorMsg with
    | some (.static content), _ => start = okResponse ∧ body = content
    | _, some err => start = okResponse ∧ body = err
    | none, none => False
    | some (.dynamic content), none =>
      match (content env).error with
      | none => start = okResponse ∧ body = (content env).echoes.flatten
      | some err => start = errorStart "500".toList err ∧ body = err

/-- The response of a page is whole: its fields say where it ends, a page that ends well has echoed
something, and one that returns an error has not, nor are there line ends in the error. -/
def PageSound (site : Site) (page : Page) (env : Env) (isHead : Bool) : Prop :=
  let (response, headers, errorMsg) := page.answer site env
  if response ≠ okResponse then bodiless isHead response = true ∨ framing headers = .length 0
  else
    match page.content, errorMsg with
    | some (.static content), _ =>
      if isHead then content = []
      else framing headers = .length content.length ∨
        (framing headers = .untilClosed ∧ ("Connection".toList, "close".toList) ∈ headers)
    | _, some _ => False
    | none, none => False
    | some (.dynamic content), none =>
      match (content env).error with
      | none => (content env).echoes ≠ [] ∧ isHead = false ∧ framing headers = .chunked
      | some err => (content env).echoes = [] ∧ IsLine err ∧ (isHead = true → err = [])

def PageCloses (site : Site) (page : Page) (env : Env) : Prop :=
  let (response, headers, errorMsg) := page.answer site env
  response = okResponse ∧
    match page.content, errorMsg with
    | some (.static _), _ => ("Connection".toList, "close".toList) ∈ headers
    | _, some _ => False
    | none, none => False
    | some (.dynamic content), none =>
      (content env).error ≠ none ∨ ("Connection".toList, "close".toList) ∈ headers

/-! ## Errors -/

theorem isLine_okResponse : IsLine okResponse := by decide

theorem isField_mk {name value : Str} (hname : name ≠ [] ∧ ':' ∉ name ∧ IsLine name)
    (hvalue : IsLine value) : Http.IsField (name, value) := ⟨hname.1, hname.2.1, hname.2.2, hvalue⟩

theorem isField_contentLength (n : Nat) : Http.IsField ("Content-Length".toList, toNumeral 10 n) :=
  isField_mk (by decide) (isLine_toNumeral (by decide) (by decide) n)

section

variable {site : Site} {page : Page} {env : Env} {response : Str} {headers : List Http.Field} {isHead : Bool}

theorem answer_ok (site : Site) (page : Page) (hconnection : env.lookup "Connection" = none) :
    IsLine (page.answer site env).1 ∧ ∀ f ∈ (page.answer site env).2.1, Http.IsField f := by
  unfold Page.answer
  cases hheader : page.header with
  | none =>
    refine ⟨isLine_okResponse, ?_⟩
    have hmime : IsLine (page.mimeType.getD (site.mimeType env.url)) := by
      cases hm : page.mimeType with
      | none => exact site.mimeType_line env.url
      | some m => exact page.mimeType_line m hm
    have hconn : IsLine ((env.lookup "Connection").getD "keep-alive".toList) := by
      rw [hconnection]
      decide
    refine forall_mem_cons.mpr ⟨isField_mk (by decide) hmime,
      forall_mem_cons.mpr ⟨isField_mk (by decide) hconn, forall_mem_cons.mpr ⟨?_, nofun⟩⟩⟩
    split
    · exact isField_contentLength _
    · exact isField_mk (by decide) (by decide)
  | some hf =>
    exact ⟨(hf env (page.headers site env)).response_line, (hf env (page.headers site env)).headers_fields⟩

variable {t : Turn}

end

end Mihini.Web.Server
