import LieGrpc.Client
import LieGrpc.Grpc.Recovery
import LieGrpc.Grpc.UnaryTable

/-!
# Remote procedures

What the methods of a client compute if the peer keeps to the protocol. Such a peer reads the
messages of a request frame by frame, applies a procedure to them and answers with the frames of
its results, in any chunks, and with its code in the trailers. Then a unary method returns the
result of the procedure, and a stream that is polled on gives all of them and then the code.
-/

namespace LieGrpc

variable {C U H M M1 M2 T : Type} [Message M] [Message M1] [Message M2]

/-- What messages are answered by: further messages, and the code that it ends with. -/
abbrev Procedure (M1 M2 : Type) := List M1 → List M2 × Code

/-! ## The peer -/

/-- The bytes of the body of a request, unless some part of it is an error. -/
def Payload.bytes : Payload → Option Bytes
  | .full bytes => some bytes
  | .stream results => (results.mapM Except.toOption).map List.flatten

/-- The bytes are frames, and their payloads decode to these messages. -/
def Payload.Carries (payload : Payload) (messages : List M) : Prop :=
  ∃ bytes, payload.bytes = some bytes ∧ framing.rest bytes = [] ∧
    (framing.items bytes).map Message.decode = messages.map .ok

/-- The response has the messages as frames and the code in its trailers, which come when the
data have been read. -/
structure Answers [HeaderMap H] (answer : List M × Code) (resp : HttpResponse H) : Prop where
  status : resp.status = .ok
  noError : ∀ e ∈ resp.body.events, e.isError = false
  ended : resp.body.ending = .eof
  fits : ∀ m ∈ answer.1, (Message.encodeToVec m).length < 2 ^ 32
  data : dataBytes resp.body.events = frames (answer.1.map Message.encodeToVec)
  trailers : ∃ t, HeaderMap.get t grpcStatus = some (utf8 (toString answer.2.value)) ∧
    ∀ seen unread, resp.body.events = seen ++ unread → resp.body.trailers unread =
      if chunks unread = [] then .ready (.ok (some t)) else .pending

/-- The peer answers all messages as the procedure does. -/
def Serves [HeaderMap H] (procedure : Procedure M1 M2)
    (send : C → Outgoing U H → Poll (Except HyperError (HttpResponse H))) : Prop :=
  ∀ client out messages, out.request.body.Carries messages →
    ∃ resp, send client out = .ready (.ok resp) ∧ Answers (procedure messages) resp

theorem mapM_toOption_ok {ε α : Type} (xs : List α) :
    (xs.map (Except.ok (ε := ε))).mapM Except.toOption = some xs := by
  induction xs with
  | nil => rfl
  | cons x xs ih => simp [List.mapM_cons, ih, Except.toOption]

theorem carries_frames [LawfulMessage M] {messages : List M}
    (hlen : ∀ m ∈ messages, (Message.encodeToVec m).length < 2 ^ 32) {payload : Payload}
    (h : payload.bytes = some (frames (messages.map Message.encodeToVec))) :
    payload.Carries messages := by
  have hfit : ∀ p ∈ messages.map Message.encodeToVec, p.length < 2 ^ 32 := by simpa using hlen
  have hrest := rest_frames hfit attemptFrame_nil
  rw [List.append_nil] at hrest
  refine ⟨_, h, hrest, ?_⟩
  rw [Streaming.items_encoded hfit, List.map_map]
  exact List.map_congr_left fun m _ => LawfulMessage.decode_encodeToVec m

/-- The body of a unary request carries its message. -/
theorem carries_full [LawfulMessage M] {message : M}
    (hlen : (Message.encodeToVec message).length < 2 ^ 32) :
    (Payload.full (frame (Message.encodeToVec message))).Carries [message] :=
  carries_frames (by simpa using hlen) (by simp [Payload.bytes])

/-- The body of a streaming request carries its messages. -/
theorem carries_stream [LawfulMessage M] {messages : List M}
    (hlen : ∀ m ∈ messages, (Message.encodeToVec m).length < 2 ^ 32) :
    (Payload.stream (messages.map ProstEncoder.encode)).Carries messages := by
  refine carries_frames hlen ?_
  rw [ProstEncoder.map_encode hlen, Payload.bytes, frames]
  rw [mapM_toOption_ok]
  rfl

/-- Messages that are not too long for the length field. -/
def Fits (messages : List M) : Prop := ∀ m ∈ messages, (Message.encodeToVec m).length < 2 ^ 32

/-- A response with one chunk for each message. -/
def reply (answer : List M × Code) : HttpResponse HeaderList where
  status := .ok
  headers := ⟨[]⟩
  body :=
    { events := answer.1.map fun m => .data (frame (Message.encodeToVec m))
      ending := .eof
      trailers := Response.trailersLast
        (some ⟨[(grpcStatus, utf8 (toString answer.2.value))]⟩) }

/-- A peer that replies once it has read a request, and to nothing else. -/
def peer (procedure : Procedure M1 M2) (_ : C) (out : Outgoing U HeaderList) :
    Poll (Except HyperError (HttpResponse HeaderList)) :=
  match out.request.body.bytes with
  | none => .pending
  | some bytes =>
    match ((framing.items bytes).map Message.decode).mapM Except.toOption with
    | none => .pending
    | some messages => .ready (.ok (reply (procedure messages)))

theorem chunks_reply (answer : List M × Code) :
    chunks (reply answer).body.events = (answer.1.map Message.encodeToVec).map frame := by
  obtain ⟨ms, c⟩ := answer
  induction ms with
  | nil => rfl
  | cons m ms ih => exact congrArg (_ :: ·) ih

theorem answers_reply {answer : List M × Code} (h : Fits answer.1) :
    Answers answer (reply answer) where
  status := rfl
  noError := by simp [reply, BodyEvent.isError]
  ended := rfl
  fits := h
  data := by rw [dataBytes, chunks_reply, frames]
  trailers := by
    refine ⟨⟨[(grpcStatus, utf8 (toString answer.2.value))]⟩, by simp [HeaderMap.get], ?_⟩
    intro seen unread _
    rw [reply]
    dsimp only
    by_cases h : chunks unread = []
    · rw [if_pos h, Response.trailersLast_of_read h]
    · rw [if_neg h, Response.trailersLast_of_unread h]

theorem serves_peer {procedure : Procedure M1 M2} (h : ∀ messages, Fits (procedure messages).1) :
    Serves procedure (peer procedure : C → Outgoing U HeaderList → _) := by
  rintro client out messages ⟨bytes, hbytes, -, hdecode⟩
  refine ⟨reply (procedure messages), ?_, answers_reply (h messages)⟩
  rw [peer, hbytes]
  dsimp only
  rw [hdecode, mapM_toOption_ok]

theorem eq_reply_of_peer {procedure : Procedure M1 M2} {client : C} {out : Outgoing U HeaderList}
    {resp : HttpResponse HeaderList} (h : peer procedure client out = .ready (.ok resp)) :
    ∃ messages, resp = reply (procedure messages) := by
  unfold peer at h
  split at h
  · cases h
  · split at h
    · cases h
    · obtain rfl := Except.ok.inj (Poll.ready.inj h)
      exact ⟨_, rfl⟩

/-! ## Unary responses -/

/-- What a unary method returns for an answer. The code of a failure that comes without a message
is lost. -/
inductive UnaryResult : List M × Code → Except Status (Response M) → Prop
  | done {m : M} {r : Response M} : r.message = m → UnaryResult ([m], .ok) (.ok r)
  | failed {m : M} {c : Code} {status : Status} : c ≠ .ok → status.code = c →
    UnaryResult ([m], c) (.error status)
  | missing {c : Code} {status : Status} : status.code = .internal →
    UnaryResult ([], c) (.error status)

theorem Answers.unaryBody [HeaderMap H] {m : M} {c : Code} {resp : HttpResponse H}
    (h : Answers ([m], c) resp) :
    ∃ t, HeaderMap.get t grpcStatus = some (utf8 (toString c.value)) ∧
      Response.UnaryBody (Message.encodeToVec m) (some t) resp.body := by
  obtain ⟨t, ht, htrailers⟩ := h.trailers
  refine ⟨t, ht, h.noError, ?_, ?_, ?_⟩
  · rw [h.data, List.map_singleton, frames_cons, frames_nil, List.append_nil]
  · intro seen unread hevents hunread
    rw [htrailers seen unread hevents, if_neg hunread]
  · intro seen unread hevents hunread
    rw [htrailers seen unread hevents, if_pos hunread]

/-- A status in the trailers is the one that counts. -/
theorem get_extendHeaders_trailer [HeaderMap H] [LawfulHeaderMap H] (headers : H) {t : H}
    {name : String} {value : Bytes} (h : HeaderMap.get t name = some value) :
    HeaderMap.get (Response.extendHeaders headers (some t)) name = some value := by
  rw [Response.get_extendHeaders, HeaderMap.afterTrailers, HeaderMap.overridden]
  rw [LawfulHeaderMap.get_eq_head?] at h
  cases hall : HeaderMap.getAll t name with
  | nil => simp [hall] at h
  | cons v vs => rwa [hall] at h

theorem Answers.newUnary [HeaderMap H] [LawfulHeaderMap H] [LawfulMessage M]
    {answer : List M × Code} {resp : HttpResponse H} (h : Answers answer resp)
    (hone : answer.1.length ≤ 1) (hlast : (chunks resp.body.events).getLast? ≠ some []) :
    ∃ r, Response.newUnary M resp = .ready r ∧ UnaryResult answer r := by
  obtain ⟨ms, c⟩ := answer
  match ms, hone with
  | [], _ =>
    have hnone : Undecided (dataBytes resp.body.events) := by
      rw [h.data]
      exact attemptFrame_eq_more_iff.mp rfl
    have hends : Response.Ends M resp _ := .read h.status (.noMessage h.noError hnone h.ended)
    exact ⟨_, hends.eq, .missing rfl⟩
  | [m], _ =>
    obtain ⟨t, ht, hbody⟩ := h.unaryBody
    have hlen := h.fits m List.mem_cons_self
    obtain ⟨unread, hfirst, hread⟩ := hbody.firstFrame hlen
    obtain ⟨read, hsplit⟩ := hfirst.exists_read
    have htrailers := hbody.completes _ _ hsplit (hread.mpr hlast)
    have hdec := LawfulMessage.decode_encodeToVec m
    have hget := get_extendHeaders_trailer resp.headers ht
    by_cases hc : c = .ok
    · subst hc
      have hends : Response.Ends M resp _ :=
        .read h.status (.concluded hfirst hdec htrailers (.done hget))
      exact ⟨_, hends.eq, .done rfl⟩
    · have hends : Response.Ends M resp _ :=
        .read h.status (.concluded hfirst hdec htrailers (.failed hget hc))
      exact ⟨_, hends.eq, .failed hc rfl⟩

/-! ## Streaming responses -/

/-- What can be read of a streaming response, whatever the calls are: the messages in their order,
and all of them and the code if it is polled on. -/
structure StreamResult [HeaderMap H] (answer : List M × Code)
    (response : Response (Streaming M H)) : Prop where
  inOrder : ∀ cs, Streaming.results (Streaming.run cs response.message).1 <+: answer.1.map .ok
  complete : ∀ cs n,
    (Streaming.run cs response.message).2.body.events.length + answer.1.length ≤ n →
    let r := Streaming.run (cs ++ List.replicate n .pollNext) response.message
    Streaming.results r.1 = answer.1.map .ok ∧ ∃ t status,
      r.2.recvTrailers = .ready (.ok (some t)) ∧ Status.fromHeaderMap t = .ok status ∧
        status.code = answer.2

theorem Answers.complete [HeaderMap H] [LawfulMessage M] {answer : List M × Code}
    {resp : HttpResponse H} (h : Answers answer resp) (cs : List Streaming.Call) {n : Nat}
    (hn : (Streaming.run cs (.new (M := M) resp.body)).2.body.events.length + answer.1.length ≤ n) :
    let r := Streaming.run (cs ++ List.replicate n .pollNext) (.new (M := M) resp.body)
    Streaming.results r.1 = answer.1.map .ok ∧ r.2.body = { resp.body with events := [] } := by
  have hfit : ∀ p ∈ answer.1.map Message.encodeToVec, p.length < 2 ^ 32 := by simpa using h.fits
  have hitems : framing.items (dataBytes resp.body.events) = answer.1.map Message.encodeToVec := by
    rw [h.data, Streaming.items_encoded hfit]
  obtain ⟨k, hk, hbody, hreplay⟩ := Streaming.run_polled_out (M := M) resp.body cs n h.ended
    (by rwa [hitems, List.length_map])
  refine ⟨?_, hbody⟩
  have hsignals : Streaming.signals resp.body.events = (chunks resp.body.events).map .inr := by
    have herr := h.noError
    generalize resp.body.events = es at herr
    induction es with
    | nil => rfl
    | cons e es ih =>
      rw [List.forall_mem_cons] at herr
      cases e with
      | error err => cases herr.1
      | _ => simp [ih herr.2]
  have hinput : (chunks resp.body.events).map Sum.inr ++ List.replicate k (.inr []) =
      (chunks resp.body.events ++ List.replicate k []).map (Sum.inr (α := HyperError)) := by simp
  have hflat : (chunks resp.body.events ++ List.replicate k []).flatten =
      frames (answer.1.map Message.encodeToVec) := by
    rw [← h.data]
    simp [dataBytes]
  rw [hreplay.results, hsignals, hinput, Incremental.relay_map_inr, List.filterMap_map]
  refine (Streaming.results_eq_iff h.fits hflat).mpr ?_
  rw [hflat, ← h.data]
  exact Incremental.deliveries_asked_on hk

theorem Answers.newStreaming [HeaderMap H] [LawfulMessage M] {answer : List M × Code}
    {resp : HttpResponse H} (h : Answers answer resp) :
    ∃ response, Response.newStreaming M resp = .ok response ∧ StreamResult answer response := by
  refine ⟨_, Response.newStreaming_of_ok h.status, ?_, ?_⟩
  · intro cs
    obtain ⟨hall, -⟩ := h.complete cs (Nat.le_refl _)
    rw [Streaming.run_append, Streaming.results, List.filterMap_append] at hall
    exact ⟨_, hall⟩
  · intro cs n hn
    obtain ⟨hall, hbody⟩ := h.complete cs hn
    obtain ⟨t, ht, htrailers⟩ := h.trailers
    obtain ⟨status, hstatus, hcode, -⟩ :=
      Status.fromHeaderMap_of_code ht (Code.fromBytes_value answer.2)
    refine ⟨hall, t, status, ?_, hstatus, hcode⟩
    have hlast := htrailers resp.body.events [] (List.append_nil _).symm
    rw [Streaming.recvTrailers]
    dsimp only at hbody ⊢
    rw [hbody]
    dsimp only
    rw [hlast]
    rfl

/-! ## Calls -/

section Calls

variable [HttpUri U] [RequestHeaders H]

/-- A client whose peer serves the procedure, metadata from which a request can be built, and a
path from which there is a URI for each target. -/
structure Connected (client : C) (targets : List String) (caller : Client C U)
    (ops : List (PublicOp H)) (path : String) (procedure : Procedure M1 M2)
    (send : C → Outgoing U H → Poll (Except HyperError (HttpResponse H))) : Prop where
  client : Client.new client targets = .ok caller
  builds : (requestBuilder (H := H) (edited ops)).isSome = true
  addressed : ∀ target ∈ targets, ¬ Client.Unaddressed U target path
  serves : Serves procedure send

theorem intoUnary_of_fits [LawfulMessage M1] {message : M1} (h : Fits [message])
    (metadata : MetadataMap) :
    (⟨message, metadata⟩ : Request M1).intoUnary (H := H) =
      .ok (intoHttpRequest metadata (.full (frame (Message.encodeToVec message)))) := by
  rw [Request.intoUnary, ProstEncoder.encode_eq (h message List.mem_cons_self)]

variable [LawfulRequestHeaders H] [LawfulHttpUri U] {client : C} {targets : List String}
  {caller : Client C U} {ops : List (PublicOp H)} {path : String} {procedure : Procedure M1 M2}
  {send : C → Outgoing U H → Poll (Except HyperError (HttpResponse H))}

/-- A request that carries messages is sent, and what the method makes of the answer to them is
what it returns. -/
theorem Connected.exchange (h : Connected client targets caller ops path procedure send)
    {payload : Payload} {messages : List M1} (hcarries : payload.Carries messages) (draw : Nat)
    (make : HttpResponse H → Poll (Except Status T)) :
    ∃ out resp, caller.exchange draw path (.ok (intoHttpRequest (edited ops) payload)) make send =
        some ⟨some out, make resp⟩ ∧
      send client out = .ready (.ok resp) ∧ Answers (procedure messages) resp := by
  have hsome : (intoHttpRequest (H := H) (edited ops) payload).isSome = true := by
    rw [intoHttpRequest, Builder.body, Option.isSome_map]
    exact h.builds
  obtain ⟨req, hreq⟩ := Option.isSome_iff_exists.mp hsome
  rw [hreq]
  have hperforms :=
    Client.exchange_of_request h.client (named_edited ops) hreq draw path make send
  generalize caller.exchange draw path (.ok (some req)) make send = outcome at hperforms
  cases hperforms with
  | @sent p out hp hposted =>
    obtain rfl := Except.ok.inj hp
    obtain ⟨resp, hresp, hanswers⟩ := h.serves client out messages (hposted.body ▸ hcarries)
    exact ⟨out, resp, by rw [hresp]; rfl, hresp, hanswers⟩
  | notEncoded hfailed => cases hfailed
  | unaddressed htarget hnone => exact absurd hnone (h.addressed _ htarget)
  | panicked hnone =>
    rw [h.builds] at hnone
    cases hnone

/-- The unary methods return what the procedure gives. -/
structure UnaryCalls (caller : Client C U) (metadata : MetadataMap) (path : String)
    (procedure : Procedure M1 M2)
    (send : C → Outgoing U H → Poll (Except HyperError (HttpResponse H))) : Prop where
  unaryUnary : ∀ draw message, Fits [message] → ∃ out r,
    caller.unaryUnary M2 draw path ⟨message, metadata⟩ send = some ⟨some out, .ready r⟩ ∧
      UnaryResult (procedure [message]) r
  streamingUnary : ∀ draw messages, Fits messages → ∃ out r,
    caller.streamingUnary M2 draw path ⟨messages, metadata⟩ send = some ⟨some out, .ready r⟩ ∧
      UnaryResult (procedure messages) r

/-- The streaming methods return a stream of what the procedure gives. -/
structure StreamingCalls (caller : Client C U) (metadata : MetadataMap) (path : String)
    (procedure : Procedure M1 M2)
    (send : C → Outgoing U H → Poll (Except HyperError (HttpResponse H))) : Prop where
  unaryStreaming : ∀ draw message, Fits [message] → ∃ out response,
    caller.unaryStreaming M2 draw path ⟨message, metadata⟩ send =
        some ⟨some out, .ready (.ok response)⟩ ∧
      StreamResult (procedure [message]) response
  streamingStreaming : ∀ draw messages, Fits messages → ∃ out response,
    caller.streamingStreaming M2 draw path ⟨messages, metadata⟩ send =
        some ⟨some out, .ready (.ok response)⟩ ∧
      StreamResult (procedure messages) response

/-- Where the peer serves a procedure with one result at most, a unary method returns this result,
unless the last chunk of the response is empty. -/
theorem unaryCalls [LawfulMessage M1] [LawfulMessage M2]
    (h : Connected client targets caller ops path procedure send)
    (hone : ∀ messages, (procedure messages).1.length ≤ 1)
    (hlast : ∀ out resp, send client out = .ready (.ok resp) →
      (chunks resp.body.events).getLast? ≠ some []) :
    UnaryCalls caller (edited ops) path procedure send := by
  constructor
  · intro draw message hfits
    obtain ⟨out, resp, hexchange, hresp, hanswers⟩ := h.exchange
      (carries_full (hfits message List.mem_cons_self)) draw (Response.newUnary M2)
    obtain ⟨r, hr, hresult⟩ := hanswers.newUnary (hone _) (hlast out resp hresp)
    rw [Client.unaryUnary, intoUnary_of_fits hfits, hexchange, hr]
    exact ⟨out, r, rfl, hresult⟩
  · intro draw messages hfits
    obtain ⟨out, resp, hexchange, hresp, hanswers⟩ := h.exchange
      (carries_stream hfits) draw (Response.newUnary M2)
    obtain ⟨r, hr, hresult⟩ := hanswers.newUnary (hone _) (hlast out resp hresp)
    rw [Client.streamingUnary, Request.intoStream, Request.streamPayload, hexchange, hr]
    exact ⟨out, r, rfl, hresult⟩

/-- Where the peer serves a procedure, a streaming method gives its messages and then its code,
whatever the chunks and the calls are, if the stream is polled on. -/
theorem streamingCalls [LawfulMessage M1] [LawfulMessage M2]
    (h : Connected client targets caller ops path procedure send) :
    StreamingCalls caller (edited ops) path procedure send := by
  constructor
  · intro draw message hfits
    obtain ⟨out, resp, hexchange, -, hanswers⟩ := h.exchange
      (carries_full (hfits message List.mem_cons_self)) draw
      (fun resp => .ready (Response.newStreaming M2 resp))
    obtain ⟨response, hresponse, hresult⟩ := hanswers.newStreaming
    rw [Client.unaryStreaming, intoUnary_of_fits hfits, hexchange, hresponse]
    exact ⟨out, response, rfl, hresult⟩
  · intro draw messages hfits
    obtain ⟨out, resp, hexchange, -, hanswers⟩ := h.exchange
      (carries_stream hfits) draw (fun resp => .ready (Response.newStreaming M2 resp))
    obtain ⟨response, hresponse, hresult⟩ := hanswers.newStreaming
    rw [Client.streamingStreaming, Request.intoStream, Request.streamPayload, hexchange, hresponse]
    exact ⟨out, response, rfl, hresult⟩

end Calls

/-! ## A peer that negates -/

/-- One message is negated; anything else is refused. -/
def negateOne : Procedure Bool Bool
  | [m] => ([!m], .ok)
  | _ => ([], .invalidArgument)

/-- All messages are negated, and then there is a failure. -/
def negateAll : Procedure Bool Bool := fun messages => (messages.map not, .outOfRange)

theorem fits_bools (messages : List Bool) : Fits messages := by
  intro m _
  cases m <;> decide

/-- A client with one target, a header and a path. -/
theorem connected_peer (procedure : Procedure Bool Bool) :
    Connected () ["http://localhost:2379"] ⟨⟨(), [⟨some "http", some "localhost:2379", some ""⟩]⟩⟩
      [.keyed (.insert (H := HeaderList) "x" "1")] "/a/b" procedure
      (peer (U := UriParts) procedure) where
  client := rfl
  builds := by
    have hsound : Sound (MetadataMap.new.insert "x" "1").2 :=
      Sound.new.insert fun _ => ⟨by decide, by decide⟩
    exact (builds_iff (M := Bool) _).mp hsound.builds
  addressed := by
    rintro target - ⟨uri, scheme, authority, -, -, -, hnone⟩
    exact hnone _ _ rfl rfl
  serves := serves_peer fun _ => fits_bools _

theorem unaryCalls_negateOne :
    UnaryCalls (H := HeaderList) (U := UriParts)
      ⟨⟨(), [⟨some "http", some "localhost:2379", some ""⟩]⟩⟩
      (edited [.keyed (.insert (H := HeaderList) "x" "1")]) "/a/b" negateOne (peer negateOne) := by
  refine unaryCalls (connected_peer negateOne) ?_ ?_
  · intro messages
    unfold negateOne
    split <;> simp
  · intro out resp hresp
    obtain ⟨messages, rfl⟩ := eq_reply_of_peer hresp
    intro hempty
    have hmem := List.mem_of_getLast? hempty
    rw [chunks_reply, List.mem_map] at hmem
    obtain ⟨p, -, hp⟩ := hmem
    cases hp

theorem streamingCalls_negateAll :
    StreamingCalls (H := HeaderList) (U := UriParts)
      ⟨⟨(), [⟨some "http", some "localhost:2379", some ""⟩]⟩⟩
      (edited [.keyed (.insert (H := HeaderList) "x" "1")]) "/a/b" negateAll (peer negateAll) :=
  streamingCalls (connected_peer negateAll)

end LieGrpc
