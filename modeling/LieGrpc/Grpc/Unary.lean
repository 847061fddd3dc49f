import LieGrpc.Grpc.FirstFrame

/-!
# Unary calls

When a unary call succeeds, and whether a call that the server failed says so. The only
way to succeed is the right one. But a message is looked for before the status, so a failed
call whose body is empty reports the missing message instead. And the trailers are awaited
behind the first frame, where they do not come if they wait for chunks that are not read.
-/

namespace LieGrpc

namespace Response

variable {M H : Type} [Message M] [HeaderMap H]

open Streaming (TrailersBehind)

theorem newUnary_ok_iff [LawfulHeaderMap H] (resp : HttpResponse H) (m : M) :
    (∃ r, newUnary M resp = .ready (.ok r) ∧ r.message = m) ↔
      resp.status = .ok ∧
      (∃ payload rest, payload.length < 2 ^ 32 ∧
        bytesBeforeError resp.body.events = frame payload ++ rest ∧
        Message.decode payload = .ok m) ∧
      ∃ trailer, TrailersBehind resp.body trailer ∧
        (HeaderMap.afterTrailers resp.headers trailer grpcStatus).head? = some [0x30] := by
  rw [newUnary_ok_iff_firstFrame]
  constructor
  · rintro ⟨hstatus, payload, extra, unread, trailer, hfirst, hdec, htrailers, hok⟩
    obtain ⟨rest, hbytes⟩ := hfirst.exists_rest
    obtain ⟨-, -, -, -, -, hlen, -⟩ := id hfirst
    exact ⟨hstatus, ⟨payload, rest, hlen, hbytes, hdec⟩, trailer,
      ⟨payload, extra, unread, hfirst, htrailers⟩, hok⟩
  · rintro ⟨hstatus, ⟨payload, rest, hlen, hbytes, hdec⟩, trailer, hbehind, hok⟩
    obtain ⟨first, extra, unread, hfirst, htrailers⟩ := hbehind
    obtain ⟨extra', unread', hfirst'⟩ := Streaming.exists_firstFrame_of_frame hlen hbytes
    obtain ⟨rfl, rfl⟩ := hfirst.unique hfirst'
    exact ⟨hstatus, first, extra, unread, trailer, hfirst, hdec, htrailers, hok⟩

/-- A frame over two chunks, and a status in the trailers that replaces one in the headers. -/
theorem newUnary_ok_iff_bool :
    let resp : HttpResponse HeaderList :=
      ⟨.ok, ⟨[("grpc-status", [0x35])]⟩, ⟨[.data [0, 0, 0], .data [0, 2, 8, 1]], .eof,
        fun _ => .ready (.ok (some ⟨[("grpc-status", [0x30])]⟩))⟩⟩
    (∃ r, newUnary Bool resp = .ready (.ok r) ∧ r.message = true) ↔
      resp.status = .ok ∧
      (∃ payload rest, payload.length < 2 ^ 32 ∧
        bytesBeforeError resp.body.events = frame payload ++ rest ∧
        Message.decode payload = .ok true) ∧
      ∃ trailer, TrailersBehind resp.body trailer ∧
        (HeaderMap.afterTrailers resp.headers trailer grpcStatus).head? = some [0x30] :=
  newUnary_ok_iff _ true

/-! ## Failed calls -/

/-- The call returns an error with this code and message. -/
def FailsWith (M : Type) [Message M] (resp : HttpResponse H) (c : Code) (message : String) : Prop :=
  ∃ status, newUnary M resp = .ready (.error status) ∧ status.code = c ∧ status.message = message

/-- The trailers of a body. They are there once all of its chunks are read; before that they may
have to be waited for. -/
structure GivesTrailers (trailer : Option H) (body : Body H) : Prop where
  completes : ∀ seen unread, body.events = seen ++ unread → chunks unread = [] →
    body.trailers unread = .ready (.ok trailer)
  waits : ∀ seen unread, body.events = seen ++ unread →
    body.trailers unread = .pending ∨ body.trailers unread = .ready (.ok trailer)

/-- The trailers of a body that gives them as the transport does: when the data are read. -/
def trailersLast (trailer : Option H) (unread : List BodyEvent) :
    Poll (Except HyperError (Option H)) :=
  match chunks unread with
  | [] => .ready (.ok trailer)
  | _ => .pending

omit [HeaderMap H] in
theorem trailersLast_of_read {trailer : Option H} {unread : List BodyEvent}
    (h : chunks unread = []) : trailersLast trailer unread = .ready (.ok trailer) := by
  rw [trailersLast, h]

omit [HeaderMap H] in
theorem trailersLast_of_unread {trailer : Option H} {unread : List BodyEvent}
    (h : chunks unread ≠ []) : trailersLast trailer unread = .pending := by
  rw [trailersLast]
  split
  · contradiction
  · rfl

omit [HeaderMap H] in
theorem GivesTrailers.of_trailersLast (events : List BodyEvent) (ending : BodyEnd)
    (trailer : Option H) : GivesTrailers trailer ⟨events, ending, trailersLast trailer⟩ where
  completes _ _ _ h := trailersLast_of_read h
  waits _ unread _ := by
    by_cases h : chunks unread = []
    · exact .inr (trailersLast_of_read h)
    · exact .inl (trailersLast_of_unread h)

/-- A response with the HTTP status 200 and at most one frame, all of it read without an
error, whose headers after the trailers carry a failure. -/
structure Failed (resp : HttpResponse H) (payload : Option Bytes) (c : Code) (message : String) :
    Prop where
  status : resp.status = .ok
  noError : ∀ e ∈ resp.body.events, e.isError = false
  ended : resp.body.ending = .eof
  fits : ∀ p ∈ payload, p.length < 2 ^ 32
  data : dataBytes resp.body.events = (payload.map frame).getD []
  code : c ≠ .ok
  carried : ∃ trailer, GivesTrailers trailer resp.body ∧
    (∃ v, (HeaderMap.afterTrailers resp.headers trailer grpcStatus).head? = some v ∧
      Code.fromBytes v = .ok c) ∧
    message = ((HeaderMap.afterTrailers resp.headers trailer grpcMessage).head?.map
      fromUtf8Lossy).getD ""

/-- A message is there to be read, and the trailers are there behind it, so that the status is
looked at; or the status happens to be the one that is made up for the missing message. -/
def StatusReached (M : Type) [Message M] (body : Body H) (c : Code) (message : String) :
    Option Bytes → Prop
  | none => c = .internal ∧ message = "expect first message"
  | some payload =>
    (∃ m : M, Message.decode payload = .ok m) ∧ (∃ trailer, TrailersBehind body trailer) ∨
      (∃ e, Message.decode (M := M) payload = .error e) ∧
        c = .internal ∧ message = "prost decode failed"

/-- A local error stands for the server's only by coincidence. -/
theorem failsWith_of_local {resp : HttpResponse H} {status : Status} {c : Code} {message : String}
    (h : newUnary M resp = .ready (.error status)) :
    FailsWith M resp c message ↔ c = status.code ∧ message = status.message := by
  constructor
  · rintro ⟨status', h', rfl, rfl⟩
    obtain rfl : status = status' := by simpa [h] using h'
    exact ⟨rfl, rfl⟩
  · rintro ⟨rfl, rfl⟩
    exact ⟨status, h, rfl, rfl⟩

theorem failsWith_iff [LawfulHeaderMap H] (resp : HttpResponse H) (payload : Option Bytes)
    (c : Code) (message : String) (h : Failed resp payload c message) :
    FailsWith M resp c message ↔ StatusReached M resp.body c message payload := by
  cases payload with
  | none =>
    have hcall := newUnary_of_ok (M := M) h.status
    rw [Streaming.recvMessage_new_of_empty h.noError h.ended h.data] at hcall
    exact failsWith_of_local hcall
  | some p =>
    have hbytes : bytesBeforeError resp.body.events = frame p ++ [] := by
      rw [bytesBeforeError_of_noError h.noError, List.append_nil]
      exact h.data
    obtain ⟨extra, unread, hfirst⟩ := Streaming.exists_firstFrame_of_frame (h.fits p rfl) hbytes
    cases hp : Message.decode (M := M) p with
    | error e =>
      have hcall := newUnary_of_ok (M := M) h.status
      rw [hfirst.recvMessage, ProstDecoder.ofPayload, hp] at hcall
      have hlocal : FailsWith M resp c message ↔ c = .internal ∧ message = "prost decode failed" :=
        failsWith_of_local hcall
      simpa [StatusReached, hp] using hlocal
    | ok m =>
      obtain ⟨trailer, hgives, ⟨v, hv, hcode⟩, rfl⟩ := h.carried
      have hcall := newUnary_of_firstFrame h.status hfirst hp
      obtain ⟨read, hsplit⟩ := hfirst.exists_read
      rcases hgives.waits _ _ hsplit with hpending | hready
      · -- the trailers wait for chunks that are not read
        refine iff_of_false ?_ ?_
        · rintro ⟨status, hstatus, -⟩
          rw [hcall, hpending] at hstatus
          cases hstatus
        · rintro (⟨-, trailer', payload', extra', unread', hfirst', hready⟩ | ⟨⟨e, he⟩, -⟩)
          · obtain ⟨-, rfl⟩ := hfirst.unique hfirst'
            rw [hpending] at hready
            cases hready
          · rw [hp] at he
            cases he
      · rw [← get_extendHeaders] at hv
        obtain ⟨status, hconclude, hc, hmessage⟩ :
            ∃ status, conclude m (extendHeaders resp.headers trailer) = .error status ∧ _ :=
          conclude_of_code hv hcode h.code
        rw [get_extendHeaders] at hmessage
        rw [hready] at hcall
        dsimp only at hcall
        rw [hconclude] at hcall
        exact iff_of_true ⟨status, hcall, hc, hmessage⟩
          (.inl ⟨⟨m, hp⟩, trailer, p, extra, unread, hfirst, hready⟩)

/-- A message that is read, and the failure in the trailers. -/
theorem failsWith_iff_bool :
    let resp : HttpResponse HeaderList := ⟨.ok, ⟨[]⟩, ⟨[.data [0, 0, 0], .data [0, 0]], .eof,
      trailersLast (some ⟨[("grpc-status", [0x35]), ("grpc-message", [0x6E])]⟩)⟩⟩
    FailsWith Bool resp .notFound "n" ↔
      StatusReached Bool resp.body .notFound "n" (some []) :=
  failsWith_iff _ (some []) .notFound "n"
    ⟨rfl, by simp [BodyEvent.isError], rfl, by simp, rfl, by decide,
      some ⟨[("grpc-status", [0x35]), ("grpc-message", [0x6E])]⟩, .of_trailersLast _ _ _,
      ⟨[0x35], rfl, rfl⟩, rfl⟩

/-- A failure that is the whole response: status 5 in the headers, no body, no trailers. -/
theorem not_failsWith_trailersOnly :
    ¬ ∀ (resp : HttpResponse HeaderList) (payload : Option Bytes) (c : Code) (message : String),
      Failed resp payload c message → FailsWith Bool resp c message := by
  intro h
  obtain ⟨status, hcall, hcode, -⟩ :=
    h ⟨.ok, ⟨[("grpc-status", [0x35])]⟩, ⟨[], .eof, trailersLast none⟩⟩ none .notFound ""
      ⟨rfl, by simp, rfl, by simp, rfl, by decide, none, .of_trailersLast _ _ _,
        ⟨[0x35], rfl, rfl⟩, rfl⟩
  have hmade : newUnary Bool (H := HeaderList)
      ⟨.ok, ⟨[("grpc-status", [0x35])]⟩, ⟨[], .eof, trailersLast none⟩⟩ =
      .ready (.error (.internal "expect first message")) := rfl
  obtain rfl : Status.internal "expect first message" = status := by
    simpa [hmade] using hcall
  cases hcode

end Response

end LieGrpc
