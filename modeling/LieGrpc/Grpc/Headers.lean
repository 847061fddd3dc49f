import LieGrpc.Grpc.Unary

/-!
# What a response keeps of its headers

The HTTP status is looked at before any header: where it is not 200, the status that the
server put into `grpc-status` is never read. Where it is, and the call succeeds, the
metadata come from the headers as the trailers extend them, name by name.
-/

namespace LieGrpc

namespace Response

variable {M H : Type} [Message M] [HeaderMap H]

open Streaming (TrailersBehind)

/-! ## The HTTP status -/

theorem checkHttpStatus_of_ne_ok {c : StatusCode} (h : c ≠ .ok) :
    checkHttpStatus c = .error (.fromHttpStatus c) := by
  have hok : (Status.fromHttpStatus c).isOk = false := by
    have := Status.isOk_fromHttpStatus c
    grind
  simp [checkHttpStatus, h, hok]

theorem newUnary_of_ne_ok {resp : HttpResponse H} (h : resp.status ≠ .ok) :
    newUnary M resp = .ready (.error (.fromHttpStatus resp.status)) := by
  rw [newUnary, checkHttpStatus_of_ne_ok h]

omit [Message M] in
theorem newStreaming_of_ne_ok {resp : HttpResponse H} (h : resp.status ≠ .ok) :
    newStreaming M resp = .error (.fromHttpStatus resp.status) := by
  rw [newStreaming, checkHttpStatus_of_ne_ok h]

/-- A response with an HTTP status other than 200 and a failure in its headers. -/
structure FailedTwice (resp : HttpResponse H) (c : Code) (message : String) : Prop where
  status : resp.status ≠ .ok
  code : c ≠ .ok
  carried : ∃ v, HeaderMap.get resp.headers grpcStatus = some v ∧ Code.fromBytes v = .ok c
  message : message = ((HeaderMap.get resp.headers grpcMessage).map fromUtf8Lossy).getD ""

variable (M) in
/-- Both constructors return an error with this code and message. -/
def BothFailWith (resp : HttpResponse H) (c : Code) (message : String) : Prop :=
  FailsWith M resp c message ∧
    ∃ status, newStreaming M resp = .error status ∧ status.code = c ∧ status.message = message

/-- The status in the headers is reported only where it is what the HTTP status maps to. -/
theorem bothFailWith_iff (resp : HttpResponse H) (c : Code) (message : String)
    (h : FailedTwice resp c message) :
    BothFailWith M resp c message ↔ c = (Status.fromHttpStatus resp.status).code ∧
      message = (Status.fromHttpStatus resp.status).message := by
  have hunary := newUnary_of_ne_ok (M := M) h.status
  have hstreaming := newStreaming_of_ne_ok (M := M) h.status
  rw [BothFailWith, failsWith_of_local hunary, hstreaming]
  refine and_iff_left_of_imp ?_
  rintro ⟨rfl, rfl⟩
  exact ⟨_, rfl, rfl, rfl⟩

variable (M) in
/-- One of the constructors returns what the table makes of the HTTP status. Its text says
that the header of the status is missing. -/
def TableUsed (resp : HttpResponse H) : Prop :=
  newUnary M resp = .ready (.error (.fromHttpStatus resp.status)) ∨
    newStreaming M resp = .error (.fromHttpStatus resp.status)

variable (M) in
/-- A failure in the headers is reported, and the table is for responses without a status. -/
structure StatusWins (resp : HttpResponse H) : Prop where
  reported : ∀ c message, FailedTwice resp c message → BothFailWith M resp c message
  missing : TableUsed M resp → HeaderMap.get resp.headers grpcStatus = none

/-- The table is used for every such response, also for one that carries a status. That status
is reported at most by coincidence. -/
theorem statusWins_iff (resp : HttpResponse H) (h : resp.status ≠ .ok) :
    (StatusWins M resp ↔ HeaderMap.get resp.headers grpcStatus = none) ∧
      ∀ c message, FailedTwice resp c message →
        (BothFailWith M resp c message ↔ c = (Status.fromHttpStatus resp.status).code ∧
          message = (Status.fromHttpStatus resp.status).message) := by
  have hused : TableUsed M resp := .inl (newUnary_of_ne_ok h)
  refine ⟨⟨fun hwins => hwins.missing hused, fun hnone => ?_⟩, bothFailWith_iff resp⟩
  refine ⟨fun c message hfailed => ?_, fun _ => hnone⟩
  obtain ⟨v, hv, -⟩ := hfailed.carried
  rw [hnone] at hv
  cases hv

/-- Forbidden by HTTP and by gRPC, with a message of its own. -/
theorem statusWins_iff_bool :
    let resp : HttpResponse HeaderList := ⟨⟨403, by decide⟩,
      ⟨[("grpc-status", [0x37]), ("grpc-message", [0x6E])]⟩,
      ⟨[], .eof, fun _ => .ready (.ok none)⟩⟩
    (StatusWins Bool resp ↔ HeaderMap.get resp.headers grpcStatus = none) ∧
      ∀ c message, FailedTwice resp c message →
        (BothFailWith Bool resp c message ↔ c = (Status.fromHttpStatus resp.status).code ∧
          message = (Status.fromHttpStatus resp.status).message) :=
  statusWins_iff _ (by decide)

/-- HTTP 503 with status 7: the call says Unavailable. -/
theorem not_statusWins_503 :
    ¬ ∀ resp : HttpResponse HeaderList, resp.status ≠ .ok → StatusWins Bool resp := by
  intro h
  have hwins := h ⟨⟨503, by decide⟩, ⟨[("grpc-status", [0x37])]⟩,
    ⟨[], .eof, fun _ => .ready (.ok none)⟩⟩ (by decide)
  obtain ⟨⟨status, hcall, hcode, -⟩, -⟩ :=
    hwins.reported .permissionDenied "" ⟨by decide, by decide, ⟨[0x37], rfl, rfl⟩, rfl⟩
  rw [newUnary_of_ne_ok (by decide)] at hcall
  obtain rfl := Except.error.inj (Poll.ready.inj hcall)
  cases hcode

/-! ## The metadata -/

/-- The metadata of a successful call hold, for each name, the acceptable values that the
trailers give it, or those of the headers where the trailers do not have the name. -/
theorem metadata_of_ok [LawfulHeaderMap H] (resp : HttpResponse H) (r : Response M)
    (trailer : Option H) (hr : newUnary M resp = .ready (.ok r))
    (htrailer : TrailersBehind resp.body trailer) (name : String) :
    r.metadata.get name = MetadataMap.appended none
      (MetadataMap.acceptedValues name (HeaderMap.afterTrailers resp.headers trailer name)) := by
  obtain ⟨hstatus, payload, extra, unread, -, hfirst, hdec, -, -⟩ :=
    newUnary_ok_iff_firstFrame.mp ⟨r, hr, rfl⟩
  obtain ⟨payload', extra', unread', hfirst', hready⟩ := htrailer
  obtain ⟨-, rfl⟩ := hfirst.unique hfirst'
  rw [newUnary_of_firstFrame hstatus hfirst hdec, hready] at hr
  obtain ⟨-, hmade⟩ := conclude_eq_ok.mp (Poll.ready.inj hr)
  have hmetadata : r.metadata =
      MetadataMap.new.mergeHttpHeader (extendHeaders resp.headers trailer) :=
    congrArg Response.metadata hmade
  have hall : HeaderMap.getAll (extendHeaders resp.headers trailer) name =
      HeaderMap.afterTrailers resp.headers trailer name := by
    cases trailer with
    | none => rfl
    | some t => exact LawfulHeaderMap.getAll_extend resp.headers t name
  rw [hmetadata, MetadataMap.get_mergeHttpHeader, MetadataMap.get_new, hall]

/-- A name in the headers and, with two values of which one is a tab, in the trailers. -/
theorem metadata_of_ok_bool :
    let headers : HeaderList := ⟨[("x", [0x31]), ("y", [0xFF])]⟩
    let trailer : HeaderList := ⟨[("x", [0x32]), ("x", [0x09]), ("grpc-status", [0x30])]⟩
    (MetadataMap.new.mergeHttpHeader (extendHeaders headers (some trailer))).get "x" =
      MetadataMap.appended none (MetadataMap.acceptedValues "x" [[0x32], [0x09]]) := by
  intro headers trailer
  have hundecided : Undecided [] := attemptFrame_eq_more_iff.mp rfl
  exact metadata_of_ok (M := Bool)
    ⟨.ok, headers, ⟨[.data [0, 0, 0, 0, 0]], .eof, trailersLast (some trailer)⟩⟩
    ⟨false, _⟩ (some trailer) rfl
    ⟨[], [], [], ⟨[], _, rfl, by simp, hundecided, by simp, rfl⟩, rfl⟩ "x"

/-- A name in the headers and in the trailers: the value in the headers is lost. -/
theorem not_metadata_concatenated :
    ¬ ∀ (resp : HttpResponse HeaderList) (r : Response Bool) (t : HeaderList) (name : String),
      newUnary Bool resp = .ready (.ok r) →
      TrailersBehind resp.body (some t) →
      MetadataMap.isValidName name = true →
      r.metadata.get name = MetadataMap.appended none
        (MetadataMap.acceptedValues name (HeaderMap.getAll resp.headers name) ++
          MetadataMap.acceptedValues name (HeaderMap.getAll t name)) := by
  intro h
  have hundecided : Undecided [] := attemptFrame_eq_more_iff.mp rfl
  have hlost := h
    ⟨.ok, ⟨[("x", [0x31])]⟩, ⟨[.data [0, 0, 0, 0, 0]], .eof,
      trailersLast (some ⟨[("x", [0x32]), ("grpc-status", [0x30])]⟩)⟩⟩
    ⟨false, _⟩ ⟨[("x", [0x32]), ("grpc-status", [0x30])]⟩ "x" rfl
    ⟨[], [], [], ⟨[], _, rfl, by simp, hundecided, by simp, rfl⟩, rfl⟩ rfl
  rw [MetadataMap.get_mergeHttpHeader] at hlost
  revert hlost
  decide

end Response

end LieGrpc
