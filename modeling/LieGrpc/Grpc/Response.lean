import LieGrpc.Grpc.Streaming
import LieGrpc.Metadata

/-!
# Responses

The constructors of a response: `new_unary` reads one message, waits for the trailers and
looks for the status in the headers that they extend; `new_streaming` only takes over the
metadata and leaves the body to its `Streaming` value.
-/

namespace LieGrpc

structure Response (T : Type) where
  message : T
  metadata : MetadataMap

namespace Response

variable {H : Type} [HeaderMap H]

/-- The check of the HTTP status that both constructors begin with. -/
def checkHttpStatus (statusCode : StatusCode) : Except Status Unit :=
  if statusCode ≠ .ok then
    let status := Status.fromHttpStatus statusCode
    if !status.isOk then .error status else .ok ()
  else .ok ()

def extendHeaders (headers : H) : Option H → H
  | some trailer => HeaderMap.extend headers trailer
  | none => headers

/-- The end of `new_unary`, with the status from header and trailer. -/
def conclude {T : Type} (message : T) (headers : H) : Except Status (Response T) :=
  match Status.fromHeaderMap headers with
  | .error status => .error status
  | .ok status =>
    if !status.isOk then .error status
    else .ok ⟨message, MetadataMap.new.mergeHttpHeader headers⟩

variable {M : Type} [Message M]

variable (M) in
/-- Awaiting `new_unary`. -/
def newUnary (resp : HttpResponse H) : Poll (Except Status (Response M)) :=
  match checkHttpStatus resp.status with
  | .error status => .ready (.error status)
  | .ok () =>
    match (Streaming.new resp.body).recvMessage with
    | (.pending, _) => .pending
    | (.ready (.error status), _) => .ready (.error status)
    | (.ready (.ok none), _) => .ready (.error (.internal "expect first message"))
    | (.ready (.ok (some message)), streaming) =>
      match streaming.recvTrailers with
      | .pending => .pending
      | .ready (.error status) => .ready (.error status)
      | .ready (.ok trailer) => .ready (conclude message (extendHeaders resp.headers trailer))

variable (M) in
/-- `new_streaming`, which awaits nothing. -/
def newStreaming (resp : HttpResponse H) : Except Status (Response (Streaming M H)) :=
  match checkHttpStatus resp.status with
  | .error status => .error status
  | .ok () => .ok ⟨.new resp.body, MetadataMap.new.mergeHttpHeader resp.headers⟩

/-! ## The steps -/

theorem checkHttpStatus_eq_ok_iff {c : StatusCode} : checkHttpStatus c = .ok () ↔ c = .ok := by
  have hok := Status.isOk_fromHttpStatus c
  unfold checkHttpStatus
  by_cases hc : c = .ok
  · simp [hc]
  · simp [hc] at hok
    simp [hc, hok]

theorem get_extendHeaders [LawfulHeaderMap H] (headers : H) (trailer : Option H) (name : String) :
    HeaderMap.get (extendHeaders headers trailer) name =
      (HeaderMap.afterTrailers headers trailer name).head? := by
  rw [LawfulHeaderMap.get_eq_head?]
  cases trailer with
  | none => rfl
  | some t => rw [extendHeaders, LawfulHeaderMap.getAll_extend, HeaderMap.afterTrailers]

theorem conclude_eq_ok {T : Type} {message : T} {headers : H} {r : Response T} :
    conclude message headers = .ok r ↔ HeaderMap.get headers grpcStatus = some [0x30] ∧
      r = ⟨message, MetadataMap.new.mergeHttpHeader headers⟩ := by
  rw [← Status.fromHeaderMap_isOk_iff]
  unfold conclude
  cases hs : Status.fromHeaderMap headers with
  | error status => simp
  | ok status =>
    cases hok : status.isOk with
    | false => simp [hok]
    | true => simpa [hok] using eq_comm

/-- A parsed code other than Ok is the error of the call. -/
theorem conclude_of_code {T : Type} {message : T} {headers : H} {v : Bytes} {c : Code}
    (hv : HeaderMap.get headers grpcStatus = some v) (hcode : Code.fromBytes v = .ok c)
    (hc : c ≠ .ok) :
    ∃ status, conclude message headers = .error status ∧ status.code = c ∧
      status.message = ((HeaderMap.get headers grpcMessage).map fromUtf8Lossy).getD "" := by
  obtain ⟨status, hstatus, hc', hm⟩ := Status.fromHeaderMap_of_code hv hcode
  have hok : status.isOk = false := by simp [Status.isOk, hc', hc]
  exact ⟨status, by simp [conclude, hstatus, hok], hc', hm⟩

/-- Past the HTTP status, a unary call is decided by its message, its trailers and the headers,
in this order. -/
theorem newUnary_of_ok {resp : HttpResponse H} (h : resp.status = .ok) :
    newUnary M resp =
      match (Streaming.new (M := M) resp.body).recvMessage.1 with
      | .pending => .pending
      | .ready (.error status) => .ready (.error status)
      | .ready (.ok none) => .ready (.error (.internal "expect first message"))
      | .ready (.ok (some message)) =>
        match (Streaming.new (M := M) resp.body).recvMessage.2.recvTrailers with
        | .pending => .pending
        | .ready (.error status) => .ready (.error status)
        | .ready (.ok trailer) =>
          .ready (conclude message (extendHeaders resp.headers trailer)) := by
  rw [newUnary, checkHttpStatus_eq_ok_iff.mpr h]
  rcases (Streaming.new (M := M) resp.body).recvMessage with ⟨read, streaming⟩
  rcases read with (status | _ | message) | _ <;> rfl

/-- The steps that a successful unary call takes. -/
theorem newUnary_eq_ok {resp : HttpResponse H} {r : Response M} :
    newUnary M resp = .ready (.ok r) ↔
      resp.status = .ok ∧ ∃ m trailer,
        (Streaming.new (M := M) resp.body).recvMessage.1 = .ready (.ok (some m)) ∧
        (Streaming.new (M := M) resp.body).recvMessage.2.recvTrailers = .ready (.ok trailer) ∧
        conclude m (extendHeaders resp.headers trailer) = .ok r := by
  by_cases hstatus : resp.status = .ok
  · rw [newUnary_of_ok hstatus]
    rcases (Streaming.new (M := M) resp.body).recvMessage with ⟨(status | _ | m) | _, streaming⟩
    case ready.ok.some =>
      rcases streaming.recvTrailers with (status | trailer) | _ <;> simp [hstatus]
    all_goals simp
  · cases hcheck : checkHttpStatus resp.status with
    | error status => simp [newUnary, hcheck, hstatus]
    | ok u => exact absurd (checkHttpStatus_eq_ok_iff.mp hcheck) hstatus

omit [Message M] in
theorem newStreaming_of_ok {resp : HttpResponse H} (h : resp.status = .ok) :
    newStreaming M resp =
      .ok ⟨.new resp.body, MetadataMap.new.mergeHttpHeader resp.headers⟩ := by
  rw [newStreaming, checkHttpStatus_eq_ok_iff.mpr h]

end Response

end LieGrpc
