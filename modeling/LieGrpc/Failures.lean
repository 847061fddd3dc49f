import LieGrpc.Client
import LieGrpc.Grpc.Recovery
import LieGrpc.Grpc.UnaryTable

/-!
# Where an error comes from

A caller tells by the code of an error whether to try again. The library itself has only three
codes for what goes wrong on its side, a connection that fails included. Every other code is one
that the peer has reported, and no error has the code of success.
-/

namespace LieGrpc

variable {C U H M1 M2 T : Type} [Message M1] [Message M2] [HttpUri U]

/-- The codes of errors that arise on the side of the client. -/
def Code.IsLocal (c : Code) : Prop := c = .invalidArgument ∨ c = .unimplemented ∨ c = .internal

theorem Code.IsLocal.ne_ok {c : Code} (h : c.IsLocal) : c ≠ .ok := by
  rcases h with rfl | rfl | rfl <;> decide

/-! ## Reading a stream -/

namespace Streaming

/-- What can be wrong with a stream: the transport, a flag or a payload. -/
inductive ReadError (M : Type) [Message M] (body : Body H) : Status → Prop
  | transport {e : HyperError} : .error e ∈ body.events → ReadError M body (.fromHyperError e)
  | flag : ReadError M body ProstDecoder.unsupportedCompression
  | payload {p : Bytes} {e : DecodeError} : p ∈ framing.items (dataBytes body.events) →
    Message.decode (M := M) p = .error e → ReadError M body (.fromDecodeError e)

theorem ReadError.isLocal {body : Body H} {status : Status} (h : ReadError M1 body status) :
    status.code.IsLocal := by
  cases h with
  | transport => exact .inr (.inr rfl)
  | flag => exact .inr (.inl rfl)
  | payload => exact .inr (.inr rfl)

/-- Every error that a run hands over is one of these, whatever its calls are. -/
theorem readError_of_run {body : Body H} {cs : List Call} {status : Status}
    (h : .error status ∈ results (run cs (new (M := M1) body)).1) : ReadError M1 body status := by
  obtain ⟨seen, hbody, -, hreplay⟩ := run_replayed cs (new (M := M1) body)
  have hevents : body.events = seen ++ (run cs (new (M := M1) body)).2.body.events :=
    congrArg Body.events hbody
  rw [hreplay.results, List.mem_filterMap] at h
  generalize endPolls cs (new (M := M1) body) = k at h
  obtain ⟨x, hx, hstatus⟩ := h
  cases x with
  | inl e =>
    have hpassed := List.mem_filterMap.mpr ⟨_, hx, (rfl : Sum.getLeft? (.inl e) = some e)⟩
    rw [Incremental.interruptions_relay, List.filterMap_append, errors_signals,
      List.filterMap_replicate, List.mem_append] at hpassed
    obtain rfl := Except.error.inj (Option.some.inj hstatus)
    obtain ⟨event, hevent, herror⟩ := List.mem_filterMap.mp (hpassed.resolve_right (by simp))
    cases event with
    | error e' =>
      obtain rfl := Option.some.inj herror
      exact .transport (hevents ▸ List.mem_append_left _ hevent)
    | _ => cases herror
  | inr v =>
    have hverdict := List.mem_filterMap.mpr ⟨_, hx, (rfl : Sum.getRight? (.inr v) = some v)⟩
    rw [(Incremental.relay_paced _ _).1, chunks_input] at hverdict
    cases v with
    | more => cases hstatus
    | halt u =>
      obtain rfl := Except.error.inj (Option.some.inj hstatus)
      exact .flag
    | item p n =>
      have hdelivered : p ∈ framing.deliveries [] (chunks seen ++ List.replicate k []) :=
        List.mem_filterMap.mpr ⟨_, hverdict, rfl⟩
      have hitem := (Incremental.deliveries_prefix _ _).subset hdelivered
      have hflat : (chunks seen ++ List.replicate k []).flatten = dataBytes seen := by
        simp [dataBytes]
      rw [List.nil_append, hflat] at hitem
      have hp : p ∈ framing.items (dataBytes body.events) := by
        rw [hevents, dataBytes_append, Incremental.items_append]
        exact List.mem_append_left _ hitem
      have hpayload := Option.some.inj hstatus
      rw [ProstDecoder.ofPayload] at hpayload
      cases hdec : Message.decode (M := M1) p with
      | ok m => simp [hdec] at hpayload
      | error e =>
        obtain rfl : Status.fromDecodeError e = status := by simpa [hdec] using hpayload
        exact .payload hp hdec

omit [Message M1] in
/-- Awaiting the trailers fails for the transport only. -/
theorem isLocal_of_recvTrailers {s : Streaming M1 H} {status : Status}
    (h : s.recvTrailers = .ready (.error status)) : status.code.IsLocal := by
  unfold recvTrailers at h
  split at h
  · cases h
  · cases h
  · obtain rfl := Except.error.inj (Poll.ready.inj h)
    exact .inr (.inr rfl)

end Streaming

/-! ## Responses -/

namespace Response

variable [HeaderMap H]

/-- The peer has reported this code, by the HTTP status or in `grpc-status`. -/
inductive Reported (resp : HttpResponse H) : Code → Prop
  | http : resp.status ≠ .ok → Reported resp (Status.fromHttpStatus resp.status).code
  | header {trailer : Option H} {c : Code} : resp.status = .ok →
    Streaming.TrailersBehind resp.body trailer →
    HeaderMap.get (extendHeaders resp.headers trailer) grpcStatus =
      some (utf8 (toString c.value)) → Reported resp c

/-- An error with this code, which is not that of success, is local or comes from the peer. -/
def Accounted (resp : HttpResponse H) (c : Code) : Prop :=
  c ≠ .ok ∧ (c.IsLocal ∨ Reported resp c)

theorem accounted_of_isLocal {resp : HttpResponse H} {c : Code} (h : c.IsLocal) :
    Accounted resp c := ⟨h.ne_ok, .inl h⟩

theorem accounted_of_ne_ok {resp : HttpResponse H} (h : resp.status ≠ .ok) :
    Accounted resp (Status.fromHttpStatus resp.status).code := by
  refine ⟨fun hok => h ?_, .inr (.http h)⟩
  rw [← Status.isOk_fromHttpStatus, Status.isOk, hok]
  rfl

omit [Message M1] in
theorem accounted_of_newStreaming {resp : HttpResponse H} {status : Status}
    (h : newStreaming M1 resp = .error status) : Accounted resp status.code := by
  by_cases hok : resp.status = .ok
  · rw [newStreaming_of_ok hok] at h
    cases h
  · rw [newStreaming_of_ne_ok hok] at h
    obtain rfl := Except.error.inj h
    exact accounted_of_ne_ok hok

theorem accounted_of_newUnary {resp : HttpResponse H} {status : Status}
    (h : newUnary M1 resp = .ready (.error status)) : Accounted resp status.code := by
  obtain ⟨r, hends⟩ := exists_ends (M := M1) resp
  obtain rfl : r = .ready (.error status) := hends.eq.symm.trans h
  cases hends with
  | http hne => exact accounted_of_ne_ok hne
  | read hok hread =>
    cases hread with
    | transport => exact accounted_of_isLocal (.inr (.inr rfl))
    | noMessage => exact accounted_of_isLocal (.inr (.inr rfl))
    | compressed => exact accounted_of_isLocal (.inr (.inl rfl))
    | undecodable => exact accounted_of_isLocal (.inr (.inr rfl))
    | trailersFailed => exact accounted_of_isLocal (.inr (.inr rfl))
    | concluded hfirst _ htrailers hconcluded =>
      cases hconcluded with
      | noStatus => exact accounted_of_isLocal (.inr (.inr rfl))
      | invalid => exact accounted_of_isLocal (.inr (.inr rfl))
      | failed hget hne =>
        exact ⟨hne, .inr (.header hok ⟨_, _, _, hfirst, htrailers⟩ hget)⟩

end Response

/-! ## Methods -/

namespace Client

/-- A call hands its request over and returns what is answered, or it hands over nothing and
returns an error of its own. -/
theorem call_cases {channel : Channel C U} {draw : Nat} {path : String}
    {req : HttpRequest H Payload}
    {send : C → Outgoing U H → Poll (Except HyperError (HttpResponse H))}
    {outcome : CallOutcome U H} (h : channel.call draw path req send = some outcome) :
    (∃ status, outcome = ⟨none, .ready (.error status)⟩ ∧ status.code.IsLocal) ∨
      ∃ out, outcome = ⟨some out, Channel.answered (send channel.client out)⟩ := by
  unfold Channel.call at h
  split at h
  · cases h
  split at h
  · obtain rfl := Option.some.inj h
    exact .inl ⟨_, rfl, .inr (.inr rfl)⟩
  split at h
  · cases h
  · obtain rfl := Option.some.inj h
    exact .inl ⟨_, rfl, .inl rfl⟩
  · obtain rfl := Option.some.inj h
    exact .inr ⟨_, rfl⟩

/-- What a method returns is made of an answer or is an error. -/
theorem exists_received {self : Client C U} {draw : Nat} {path : String}
    {req : Except Status (Option (HttpRequest H Payload))}
    {make : HttpResponse H → Poll (Except Status T)}
    {send : C → Outgoing U H → Poll (Except HyperError (HttpResponse H))} {e : Exchange U H T}
    (h : self.exchange draw path req make send = some e) :
    ∃ resp, e.result = received resp make := by
  unfold exchange at h
  split at h
  · next status =>
    obtain rfl := Option.some.inj h
    exact ⟨.ready (.error status), rfl⟩
  · cases h
  · split at h
    · cases h
    · obtain rfl := Option.some.inj h
      exact ⟨_, rfl⟩

variable [RequestHeaders H]

/-- The errors of a method: each is local, or the code is in the response to the request that was
sent. -/
def Answerable (self : Client C U)
    (send : C → Outgoing U H → Poll (Except HyperError (HttpResponse H)))
    (outcome : Option (Exchange U H T)) : Prop :=
  ∀ e status, outcome = some e → e.result = .ready (.error status) →
    status.code ≠ .ok ∧ (status.code.IsLocal ∨ ∃ out resp, e.sent = some out ∧
      send self.channel.client out = .ready (.ok resp) ∧ Response.Reported resp status.code)

theorem answerable_exchange {self : Client C U} {draw : Nat} {path : String}
    {req : Except Status (Option (HttpRequest H Payload))}
    {make : HttpResponse H → Poll (Except Status T)}
    {send : C → Outgoing U H → Poll (Except HyperError (HttpResponse H))}
    (hreq : ∀ status, req = .error status → status.code.IsLocal)
    (hmake : ∀ resp status, make resp = .ready (.error status) →
      Response.Accounted resp status.code) :
    Answerable self send (self.exchange draw path req make send) := by
  intro e status he hstatus
  have hlocal (h : status.code.IsLocal) : status.code ≠ .ok ∧ (status.code.IsLocal ∨
      ∃ out resp, e.sent = some out ∧ send self.channel.client out = .ready (.ok resp) ∧
        Response.Reported resp status.code) := ⟨h.ne_ok, .inl h⟩
  unfold exchange at he
  split at he
  · obtain rfl := Option.some.inj he
    obtain rfl := Except.error.inj (Poll.ready.inj hstatus)
    exact hlocal (hreq _ rfl)
  · cases he
  split at he
  · cases he
  next outcome houtcome =>
  obtain rfl := Option.some.inj he
  rcases call_cases houtcome with ⟨status', rfl, hcode⟩ | ⟨out, rfl⟩
  · obtain rfl := Except.error.inj (Poll.ready.inj hstatus)
    exact hlocal hcode
  · dsimp only at hstatus
    cases hsend : send self.channel.client out with
    | pending =>
      rw [hsend] at hstatus
      cases hstatus
    | ready answer =>
      rw [hsend] at hstatus
      cases answer with
      | error err =>
        obtain rfl := Except.error.inj (Poll.ready.inj hstatus)
        exact hlocal (.inr (.inr rfl))
      | ok resp =>
        obtain ⟨hne, hcode | hreported⟩ := hmake resp status hstatus
        · exact hlocal hcode
        · exact ⟨hne, .inr ⟨out, resp, rfl, hsend, hreported⟩⟩

theorem isLocal_of_intoUnary {request : Request M1} {status : Status}
    (h : request.intoUnary (H := H) = .error status) : status.code.IsLocal := by
  unfold Request.intoUnary ProstEncoder.encode at h
  dsimp only at h
  cases hencode : Message.encode request.message (List.replicate 5 0) with
  | error err =>
    rw [hencode] at h
    obtain rfl := Except.error.inj h
    exact .inr (.inr rfl)
  | ok buf =>
    rw [hencode] at h
    cases h

/-- No read of a streaming response reports what the peer says of the call: the errors of the
messages and of the trailers are local, whatever the calls are. -/
def ReadsLocal (outcome : Option (Exchange U H (Response (Streaming M2 H)))) : Prop :=
  ∀ e response, outcome = some e → e.result = .ready (.ok response) →
    ∀ (cs : List Streaming.Call) (status : Status),
      (.error status ∈ Streaming.results (Streaming.run cs response.message).1 ∨
        (Streaming.run cs response.message).2.recvTrailers = .ready (.error status)) →
      status.code.IsLocal

theorem readsLocal_exchange {self : Client C U} {draw : Nat} {path : String}
    {req : Except Status (Option (HttpRequest H Payload))}
    {send : C → Outgoing U H → Poll (Except HyperError (HttpResponse H))} :
    ReadsLocal (self.exchange draw path req
      (fun resp => .ready (Response.newStreaming M2 resp)) send) := by
  intro e response he hresponse cs status hstatus
  obtain ⟨resp, hresult⟩ := exists_received he
  rw [hresult] at hresponse
  rcases resp with (err | resp) | _
  · cases hresponse
  · have hnew : Response.newStreaming M2 resp = .ok response := Poll.ready.inj hresponse
    have hmessage : response.message = .new resp.body := by
      unfold Response.newStreaming at hnew
      split at hnew
      · cases hnew
      · obtain rfl := Except.ok.inj hnew
        rfl
    rw [hmessage] at hstatus
    rcases hstatus with hread | htrailers
    · exact (Streaming.readError_of_run hread).isLocal
    · exact Streaming.isLocal_of_recvTrailers htrailers
  · cases hresponse

/-- The errors of each method, and of the reads that may follow. -/
structure ErrorsAnswerable (M1 M2 : Type) [Message M1] [Message M2] (caller : Client C U)
    (send : C → Outgoing U H → Poll (Except HyperError (HttpResponse H))) : Prop where
  unaryUnary : ∀ draw path (request : Request M1),
    Answerable caller send (caller.unaryUnary M2 draw path request send)
  unaryStreaming : ∀ draw path (request : Request M1),
    Answerable caller send (caller.unaryStreaming M2 draw path request send) ∧
      ReadsLocal (caller.unaryStreaming M2 draw path request send)
  streamingUnary : ∀ draw path (request : Request (List M1)),
    Answerable caller send (caller.streamingUnary M2 draw path request send)
  streamingStreaming : ∀ draw path (request : Request (List M1)),
    Answerable caller send (caller.streamingStreaming M2 draw path request send) ∧
      ReadsLocal (caller.streamingStreaming M2 draw path request send)

/-- Whatever the peer does, no error has the code of success, and a code other than the three
local ones was reported by the peer. -/
theorem errorsAnswerable (self : Client C U)
    (send : C → Outgoing U H → Poll (Except HyperError (HttpResponse H))) :
    ErrorsAnswerable M1 M2 self send where
  unaryUnary _ _ _ :=
    answerable_exchange (fun _ => isLocal_of_intoUnary) fun _ _ => Response.accounted_of_newUnary
  unaryStreaming _ _ _ :=
    ⟨answerable_exchange (fun _ => isLocal_of_intoUnary) fun _ _ h =>
      Response.accounted_of_newStreaming (Poll.ready.inj h), readsLocal_exchange⟩
  streamingUnary _ _ _ :=
    answerable_exchange nofun fun _ _ => Response.accounted_of_newUnary
  streamingStreaming _ _ _ :=
    ⟨answerable_exchange nofun fun _ _ h =>
      Response.accounted_of_newStreaming (Poll.ready.inj h), readsLocal_exchange⟩

end Client

end LieGrpc
