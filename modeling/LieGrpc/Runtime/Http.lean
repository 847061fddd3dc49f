import LieGrpc.Runtime.Hyper

/-!
# What the code uses of the request builder of `http`

A builder holds the parts of a request, or an error once a name or a value was not accepted. What
names and values are accepted, and what appending to a header map does, is assumed as documented
(`LawfulRequestHeaders`).
-/

namespace LieGrpc

/-- The version that a builder begins with, and the one that it is given. -/
inductive Version where
  | http11 | http2
  deriving DecidableEq, Repr

/-- The method that a builder begins with, and the one that it is given. -/
inductive Method where
  | get | post
  deriving DecidableEq, Repr

/-- `http::Request`, with a body of type `B`. -/
structure HttpRequest (H B : Type) where
  version : Version
  method : Method
  headers : H
  body : B

/-- The characters of a token. In a name `http` 0.2 lets a double quote through as well, which no
name in the metadata has. -/
def isTokenChar (c : Char) : Bool :=
  c.isAlphanum || "!#$%&'*+-.^_|~".toList.contains c || c.toNat = 0x60

/-- A header name is a nonempty token of at most 65535 bytes. -/
def acceptsName (name : String) : Bool :=
  name ≠ "" && name.toList.all isTokenChar && (utf8 name).length ≤ 65535

/-- A header value has no control byte other than a tab. -/
def acceptsValue (value : Bytes) : Bool :=
  value.all fun b => b = 0x09 || (0x20 ≤ b && b ≠ 0x7F)

class RequestHeaders (H : Type) extends HeaderMap H where
  empty : H
  /-- `HeaderName::try_from`: the name as it is stored. -/
  headerName : String → Option String
  /-- `HeaderValue::try_from`. -/
  headerValue : Bytes → Option Bytes
  append : H → String → Bytes → H

/-- Names are stored in lower case and values as they are; appending to one name leaves the
others alone. This is what holds while there is room: `http` limits the number of distinct names
in a map, and a builder that would exceed it has an error. -/
class LawfulRequestHeaders (H : Type) [RequestHeaders H] : Prop extends LawfulHeaderMap H where
  headerName_eq : ∀ name, RequestHeaders.headerName H name =
    if acceptsName name then some (name.map Char.toLower) else none
  headerValue_eq : ∀ value, RequestHeaders.headerValue H value =
    if acceptsValue value then some value else none
  getAll_empty : ∀ name, HeaderMap.getAll (RequestHeaders.empty : H) name = []
  getAll_append : ∀ (h : H) (name : String) (value : Bytes) (other : String),
    HeaderMap.getAll (RequestHeaders.append h name value) other =
      HeaderMap.getAll h other ++ if name = other then [value] else []

instance : RequestHeaders HeaderList where
  empty := ⟨[]⟩
  headerName name := if acceptsName name then some (name.map Char.toLower) else none
  headerValue value := if acceptsValue value then some value else none
  append h name value := ⟨h.entries ++ [(name, value)]⟩

instance : LawfulRequestHeaders HeaderList where
  headerName_eq _ := rfl
  headerValue_eq _ := rfl
  getAll_empty _ := rfl
  getAll_append h name value other := by
    simp only [HeaderMap.getAll, HeaderMap.iter, RequestHeaders.append, valuesOf_append]
    by_cases hn : name = other <;> simp [valuesOf, hn]

/-! ## The builder -/

/-- `http::request::Parts`, without the URI, which is set later. -/
structure RequestParts (H : Type) where
  version : Version
  method : Method
  headers : H

/-- The parts of a request that is being built; none after an error. -/
abbrev Builder (H : Type) := Option (RequestParts H)

variable {H : Type} [RequestHeaders H]

def Builder.new : Builder H := some ⟨.http11, .get, RequestHeaders.empty⟩

def Builder.version (self : Builder H) (version : Version) : Builder H :=
  self.map fun head => { head with version }

def Builder.method (self : Builder H) (method : Method) : Builder H :=
  self.map fun head => { head with method }

def Builder.header (self : Builder H) (name : String) (value : Bytes) : Builder H :=
  match self, RequestHeaders.headerName H name, RequestHeaders.headerValue H value with
  | some head, some name, some value =>
    some { head with headers := RequestHeaders.append head.headers name value }
  | _, _, _ => none

/-- `none` stands for the error of the builder. -/
def Builder.body {B : Type} (self : Builder H) (body : B) : Option (HttpRequest H B) :=
  self.map fun head => ⟨head.version, head.method, head.headers, body⟩

/-- A builder goes on without an error exactly if it accepts the name and the value. -/
theorem Builder.isSome_header [LawfulRequestHeaders H] (self : Builder H) (name : String)
    (value : Bytes) : (self.header name value).isSome =
      (self.isSome && (acceptsName name && acceptsValue value)) := by
  unfold Builder.header
  rw [LawfulRequestHeaders.headerName_eq, LawfulRequestHeaders.headerValue_eq]
  cases self <;> cases acceptsName name <;> cases acceptsValue value <;> rfl

/-- A builder without an error has appended to the headers of one without an error. -/
theorem Builder.header_eq_some [LawfulRequestHeaders H] {self : Builder H} {name : String}
    {value : Bytes} {head : RequestParts H} (h : self.header name value = some head) :
    ∃ before, self = some before ∧ head = { before with headers := head.headers } ∧
      ∀ other, HeaderMap.getAll head.headers other = HeaderMap.getAll before.headers other ++
        if name.map Char.toLower = other then [value] else [] := by
  unfold Builder.header at h
  rw [LawfulRequestHeaders.headerName_eq, LawfulRequestHeaders.headerValue_eq] at h
  cases self with
  | none => cases h
  | some before =>
    cases hname : acceptsName name
    · simp [hname] at h
    cases hvalue : acceptsValue value
    · simp [hname, hvalue] at h
    obtain rfl : { before with
        headers := RequestHeaders.append before.headers (name.map Char.toLower) value } = head := by
      simpa [hname, hvalue] using h
    exact ⟨before, rfl, rfl, LawfulRequestHeaders.getAll_append before.headers _ value⟩

end LieGrpc
