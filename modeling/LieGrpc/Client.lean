import LieGrpc.Channel
import LieGrpc.Grpc.EditedMetadata
import LieGrpc.Grpc.Response

/-!
# The client

The four methods of a client make a request of messages, call the channel and make something of
its response. They differ in the request, which has one message or a stream of them, and in the
response. So what a method sends is decided before, and what it returns is decided by the first
step that fails.
-/

namespace LieGrpc

variable {C U H M1 M2 T : Type} [HttpUri U]

structure Client (C U : Type) where
  channel : Channel C U

/-- What a method has handed to the client of the channel, and what it returns. -/
structure Exchange (U H T : Type) where
  sent : Option (Outgoing U H)
  result : Poll (Except Status T)

namespace Client

def new (client : C) (target : List String) : Except Status (Client C U) :=
  match Channel.new client target with
  | .error status => .error status
  | .ok channel => .ok ⟨channel⟩

/-- What is made of an awaited response. -/
def received (resp : Poll (Except Status (HttpResponse H)))
    (make : HttpResponse H → Poll (Except Status T)) : Poll (Except Status T) :=
  match resp with
  | .pending => .pending
  | .ready (.error status) => .ready (.error status)
  | .ready (.ok resp) => make resp

/-- What the methods have in common: the request, the call and the response. The inner `none` of
`req` is a panic, and so is the outer one of the result. -/
def exchange (self : Client C U) (draw : Nat) (path : String)
    (req : Except Status (Option (HttpRequest H Payload)))
    (make : HttpResponse H → Poll (Except Status T))
    (send : C → Outgoing U H → Poll (Except HyperError (HttpResponse H))) :
    Option (Exchange U H T) :=
  match req with
  | .error status => some ⟨none, .ready (.error status)⟩
  | .ok none => none
  | .ok (some req) =>
    match self.channel.call draw path req send with
    | none => none
    | some outcome => some ⟨outcome.sent, received outcome.result make⟩

section Methods

variable [Message M1] [Message M2] [RequestHeaders H]

variable (M2) in
def unaryUnary (self : Client C U) (draw : Nat) (path : String) (request : Request M1)
    (send : C → Outgoing U H → Poll (Except HyperError (HttpResponse H))) :
    Option (Exchange U H (Response M2)) :=
  self.exchange draw path request.intoUnary (Response.newUnary M2) send

variable (M2) in
def unaryStreaming (self : Client C U) (draw : Nat) (path : String) (request : Request M1)
    (send : C → Outgoing U H → Poll (Except HyperError (HttpResponse H))) :
    Option (Exchange U H (Response (Streaming M2 H))) :=
  self.exchange draw path request.intoUnary
    (fun resp => .ready (Response.newStreaming M2 resp)) send

variable (M2) in
def streamingUnary (self : Client C U) (draw : Nat) (path : String) (request : Request (List M1))
    (send : C → Outgoing U H → Poll (Except HyperError (HttpResponse H))) :
    Option (Exchange U H (Response M2)) :=
  self.exchange draw path (.ok request.intoStream) (Response.newUnary M2) send

variable (M2) in
def streamingStreaming (self : Client C U) (draw : Nat) (path : String)
    (request : Request (List M1))
    (send : C → Outgoing U H → Poll (Except HyperError (HttpResponse H))) :
    Option (Exchange U H (Response (Streaming M2 H))) :=
  self.exchange draw path (.ok request.intoStream)
    (fun resp => .ready (Response.newStreaming M2 resp)) send

end Methods

/-! ## What is sent -/

/-- The request as the client of the channel gets it. -/
structure Posted [RequestHeaders H] (targets : List String) (path : String)
    (metadata : MetadataMap) (payload : Payload) (out : Outgoing U H) : Prop where
  target : ∃ target ∈ targets, ∃ uri : U, Channel.Names target uri ∧
    HttpUri.scheme out.uri = HttpUri.scheme uri ∧
    HttpUri.authority out.uri = HttpUri.authority uri
  path : ∃ parsed, HttpUri.parsePathAndQuery (U := U) path = .ok parsed ∧
    HttpUri.pathAndQuery out.uri = some parsed
  version : out.request.version = .http2
  method : out.request.method = .post
  headers : ∀ name, HeaderMap.getAll out.request.headers name =
    (if contentType = name then [utf8 applicationGrpcProto] else []) ++
      ((metadata.get name).getD []).map utf8
  body : out.request.body = payload

variable (U) in
/-- No URI is built of a path and the scheme and the authority of this target. -/
def Unaddressed (target path : String) : Prop :=
  ∃ uri scheme authority, Channel.Names (U := U) target uri ∧ HttpUri.scheme uri = some scheme ∧
    HttpUri.authority uri = some authority ∧
    ∀ parsed (built : U), HttpUri.parsePathAndQuery (U := U) path = .ok parsed →
      HttpUri.build scheme authority parsed ≠ .ok built

/-- What a method with this payload does. -/
inductive Performs [RequestHeaders H] (client : C) (targets : List String) (path : String)
    (metadata : MetadataMap) (payload : Except Status Payload)
    (make : HttpResponse H → Poll (Except Status T))
    (send : C → Outgoing U H → Poll (Except HyperError (HttpResponse H))) :
    Option (Exchange U H T) → Prop
  | sent {p : Payload} {out : Outgoing U H} : payload = .ok p →
    Posted targets path metadata p out →
    Performs client targets path metadata payload make send
      (some ⟨some out, received (Channel.answered (send client out)) make⟩)
  | notEncoded {status : Status} : payload = .error status →
    Performs client targets path metadata payload make send (some ⟨none, .ready (.error status)⟩)
  | unaddressed {target : String} {status : Status} : target ∈ targets →
    Unaddressed U target path → status.code = .invalidArgument →
    Performs client targets path metadata payload make send (some ⟨none, .ready (.error status)⟩)
  | panicked : (requestBuilder (H := H) metadata).isSome = false →
    Performs client targets path metadata payload make send none

theorem new_eq_ok {client : C} {targets : List String} {self : Client C U}
    (h : new client targets = .ok self) : Channel.new client targets = .ok self.channel := by
  unfold new at h
  cases hnew : Channel.new (U := U) client targets with
  | error status => simp [hnew] at h
  | ok channel =>
    rw [hnew] at h
    obtain rfl := Except.ok.inj h
    rfl

theorem intoUnary_eq [Message M1] [RequestHeaders H] (message : M1) (metadata : MetadataMap) :
    (⟨message, metadata⟩ : Request M1).intoUnary (H := H) =
      ((ProstEncoder.encode message).map Payload.full).map (intoHttpRequest metadata) := by
  rw [Request.intoUnary]
  cases ProstEncoder.encode message <;> rfl

section Performs

variable [Message M1] [Message M2] [RequestHeaders H] [LawfulRequestHeaders H] [LawfulHttpUri U]
  {client : C} {targets : List String} {self : Client C U} {metadata : MetadataMap}

/-- A request that was built is sent to one of the targets, unless the path spoils its URI. -/
theorem exchange_of_request (hnew : new client targets = .ok self) (hnames : Named metadata)
    {p : Payload} {req : HttpRequest H Payload} (hreq : intoHttpRequest metadata p = some req)
    (draw : Nat) (path : String) (make : HttpResponse H → Poll (Except Status T))
    (send : C → Outgoing U H → Poll (Except HyperError (HttpResponse H))) :
    Performs client targets path metadata (.ok p) make send
      (self.exchange draw path (.ok (some req)) make send) := by
  have hchannel := new_eq_ok hnew
  obtain ⟨uri, scheme, authority, hselects⟩ :=
    (Channel.Built.new hchannel).exists_selects draw
  obtain ⟨-, -, rfl⟩ := Channel.new_eq_ok_iff.mp hchannel
  obtain ⟨target, htarget, hnamed⟩ := hselects.target
  obtain ⟨hrequest, hheaders⟩ := request_of_validNames hnames hreq
  have hcalls : Channel.Calls self.channel.client scheme authority path req send
      (self.channel.call draw path req send) := hselects.calls
  rw [exchange]
  generalize self.channel.call draw path req send = outcome at hcalls
  cases hcalls with
  | @sent parsed built hparsed _ haddresses =>
    refine .sent rfl ⟨⟨target, htarget, uri, hnamed, ?_, ?_⟩, ⟨parsed, hparsed, ?_⟩, ?_, ?_, ?_, ?_⟩
    · rw [haddresses.scheme, hselects.scheme]
    · rw [haddresses.authority, hselects.authority]
    · exact haddresses.pathAndQuery
    · exact congrArg HttpRequest.version hrequest
    · exact congrArg HttpRequest.method hrequest
    · exact hheaders
    · exact congrArg HttpRequest.body hrequest
  | refused hrefused hcode =>
    exact .unaddressed htarget
      ⟨uri, scheme, authority, hnamed, hselects.scheme, hselects.authority, hrefused⟩ hcode

theorem exchange_performs (hnew : new client targets = .ok self) (hnames : Named metadata)
    (payload : Except Status Payload) (draw : Nat) (path : String)
    (make : HttpResponse H → Poll (Except Status T))
    (send : C → Outgoing U H → Poll (Except HyperError (HttpResponse H))) :
    Performs client targets path metadata payload make send
      (self.exchange draw path (payload.map (intoHttpRequest metadata)) make send) := by
  cases payload with
  | error status => exact .notEncoded rfl
  | ok p =>
    cases hreq : intoHttpRequest (H := H) metadata p with
    | none =>
      simp only [Except.map, hreq]
      refine .panicked ?_
      rw [Option.isSome_eq_false_iff, Option.isNone_iff_eq_none]
      exact Option.map_eq_none_iff.mp hreq
    | some req =>
      simp only [Except.map, hreq]
      exact exchange_of_request hnew hnames hreq draw path make send

/-- Each of the methods performs its request. -/
structure MethodsPerform (M1 M2 : Type) [Message M1] [Message M2] (client : C)
    (targets : List String) (caller : Client C U) (metadata : MetadataMap) (draw : Nat)
    (path : String) (send : C → Outgoing U H → Poll (Except HyperError (HttpResponse H))) :
    Prop where
  unaryUnary : ∀ message : M1, Performs client targets path metadata
    ((ProstEncoder.encode message).map .full) (Response.newUnary M2) send
    (caller.unaryUnary M2 draw path ⟨message, metadata⟩ send)
  unaryStreaming : ∀ message : M1, Performs client targets path metadata
    ((ProstEncoder.encode message).map .full) (fun resp => .ready (Response.newStreaming M2 resp))
    send (caller.unaryStreaming M2 draw path ⟨message, metadata⟩ send)
  streamingUnary : ∀ messages : List M1, Performs client targets path metadata
    (.ok (.stream (messages.map ProstEncoder.encode))) (Response.newUnary M2) send
    (caller.streamingUnary M2 draw path ⟨messages, metadata⟩ send)
  streamingStreaming : ∀ messages : List M1, Performs client targets path metadata
    (.ok (.stream (messages.map ProstEncoder.encode)))
    (fun resp => .ready (Response.newStreaming M2 resp)) send
    (caller.streamingStreaming M2 draw path ⟨messages, metadata⟩ send)

/-- A client sends at most one request for each method that is called, to one of its targets and
with the messages and the metadata that it was given. -/
theorem methodsPerform (hnew : new client targets = .ok self) (ops : List (PublicOp H)) (draw : Nat)
    (path : String) (send : C → Outgoing U H → Poll (Except HyperError (HttpResponse H))) :
    MethodsPerform M1 M2 client targets self (edited ops) draw path send := by
  have hnames := named_edited ops
  constructor
  case unaryUnary =>
    intro message
    rw [Client.unaryUnary, intoUnary_eq]
    exact exchange_performs hnew hnames _ draw path _ send
  case unaryStreaming =>
    intro message
    rw [Client.unaryStreaming, intoUnary_eq]
    exact exchange_performs hnew hnames _ draw path _ send
  case streamingUnary =>
    exact fun messages => exchange_performs hnew hnames
      (.ok (.stream (messages.map ProstEncoder.encode))) draw path _ send
  case streamingStreaming =>
    exact fun messages => exchange_performs hnew hnames
      (.ok (.stream (messages.map ProstEncoder.encode))) draw path _ send

end Performs

/-- One target, one header of the user's, and a peer that never answers. -/
theorem methodsPerform_uriParts :
    MethodsPerform (H := HeaderList) (U := UriParts) Bool Bool () ["http://localhost:2379"]
      ⟨⟨(), [⟨some "http", some "localhost:2379", some ""⟩]⟩⟩
      (edited [.keyed (.insert (H := HeaderList) "x" "1")]) 7 "/a/b" (fun _ _ => .pending) :=
  methodsPerform rfl _ 7 "/a/b" _

end Client

end LieGrpc
