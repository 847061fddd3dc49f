import LieGrpc.Runtime.Std

/-!
# What the code uses of the URIs of `http`

Parsing a target or a path gives a value or an error, and so does the builder once it has been
given all three parts. That a URI which it builds has these parts is assumed
(`LawfulHttpUri`); nothing is assumed of what is parsed or built at all.
-/

namespace LieGrpc

structure InvalidUri where
  description : String
  deriving DecidableEq, Repr

/-- `http::Error`, which the code only wraps. -/
structure HttpError where
  description : String
  deriving DecidableEq, Repr

class HttpUri (U : Type) where
  Scheme : Type
  Authority : Type
  PathAndQuery : Type
  /-- `Uri::try_from`. -/
  tryFrom : String → Except InvalidUri U
  scheme : U → Option Scheme
  authority : U → Option Authority
  pathAndQuery : U → Option PathAndQuery
  /-- `PathAndQuery::try_from`. -/
  parsePathAndQuery : String → Except HttpError PathAndQuery
  /-- `Builder::build` after `scheme`, `authority` and `path_and_query`. -/
  build : Scheme → Authority → PathAndQuery → Except HttpError U

class LawfulHttpUri (U : Type) [HttpUri U] : Prop where
  scheme_build : ∀ (s : HttpUri.Scheme U) a p u,
    HttpUri.build s a p = .ok u → HttpUri.scheme u = some s
  authority_build : ∀ (s : HttpUri.Scheme U) a p u,
    HttpUri.build s a p = .ok u → HttpUri.authority u = some a
  pathAndQuery_build : ∀ (s : HttpUri.Scheme U) a p u,
    HttpUri.build s a p = .ok u → HttpUri.pathAndQuery u = some p

/-! ## Plain URIs -/

/-- The parts of a URI as texts. -/
structure UriParts where
  scheme : Option String
  authority : Option String
  pathAndQuery : Option String
  deriving DecidableEq, Repr

def isAuthorityChar (c : Char) : Bool := c.isAlphanum || "-._~:[]@".toList.contains c

def isPathChar (c : Char) : Bool := c.isAlphanum || "/?=&-._~:@%".toList.contains c

/-- A scheme with an authority and a path, a path alone, or an authority alone. -/
def UriParts.tryFrom (s : String) : Except InvalidUri UriParts :=
  let scheme := s.toList.takeWhile Char.isAlphanum
  match s.toList.drop scheme.length with
  | ':' :: '/' :: '/' :: rest =>
    let authority := rest.takeWhile isAuthorityChar
    let path := rest.drop authority.length
    if scheme = [] ∨ authority = [] then .error ⟨"invalid format"⟩
    else if path.all isPathChar ∧ path.head? ∈ [none, some '/', some '?'] then
      .ok ⟨some (String.ofList scheme), some (String.ofList authority), some (String.ofList path)⟩
    else .error ⟨"invalid uri character"⟩
  | _ =>
    if s.toList.head? = some '/' ∧ s.toList.all isPathChar then .ok ⟨none, none, some s⟩
    else if s ≠ "" ∧ s.toList.all isAuthorityChar then .ok ⟨none, some s, none⟩
    else .error ⟨"invalid uri character"⟩

instance : HttpUri UriParts where
  Scheme := String
  Authority := String
  PathAndQuery := String
  tryFrom := UriParts.tryFrom
  scheme := UriParts.scheme
  authority := UriParts.authority
  pathAndQuery := UriParts.pathAndQuery
  parsePathAndQuery s :=
    if s.toList.all isPathChar then .ok s else .error ⟨"invalid uri character"⟩
  build scheme authority path := .ok ⟨some scheme, some authority, some path⟩

instance : LawfulHttpUri UriParts where
  scheme_build _ _ _ _ h := Except.ok.inj h ▸ rfl
  authority_build _ _ _ _ h := Except.ok.inj h ▸ rfl
  pathAndQuery_build _ _ _ _ h := Except.ok.inj h ▸ rfl

example : UriParts.tryFrom "http://localhost:2379" =
    .ok ⟨some "http", some "localhost:2379", some ""⟩ := by decide

end LieGrpc
