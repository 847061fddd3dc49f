import LieGrpc.Grpc.Headers
import LieGrpc.Grpc.UnaryBody

/-!
# The table of unary results

What `new_unary` makes of every response, in terms of the response alone: which parts of it are
looked at, in which order, and the error with its text that each of them can end the call with.
The rules cover every response, and no two of them disagree.
-/

namespace LieGrpc

/-! ## Malformed codes -/

/-- How a malformed `grpc-status` is shown: two digits from 10 on as their number, and anything
else as bytes. -/
def spelled (v : Bytes) : String :=
  match v with
  | [d, e] => if d = 0x31 && isAsciiDigit e then toString (e.toNat - 38) else debugBytes v
  | _ => debugBytes v

def invalidStatus (v : Bytes) : Status :=
  .new .internal ("invalid grpc-status(" ++ spelled v ++ ")")

theorem Code.tryFrom_cases (v : UInt8) :
    (∃ c, Code.tryFrom v = .ok c) ∨ 16 < v.toNat ∧
      Code.tryFrom v =
        .error (.new .internal ("invalid grpc-status(" ++ toString v.toNat ++ ")")) := by
  unfold Code.tryFrom
  split
  case h_18 => exact .inr ⟨by grind, rfl⟩
  all_goals exact .inl ⟨_, rfl⟩

/-- A value that is no code is reported as it is spelled. -/
theorem Code.fromBytes_of_invalid {v : Bytes} (h : ∀ c : Code, v ≠ utf8 (toString c.value)) :
    Code.fromBytes v = .error (invalidStatus v) := by
  have hnot (c : Code) : Code.fromBytes v ≠ .ok c := fun hok =>
    h c (Code.fromBytes_eq_ok_iff.mp hok)
  match v with
  | [] => rfl
  | [d] =>
    by_cases hd : isAsciiDigit d = true
    · have hcode : Code.fromBytes [d] = Code.tryFrom (d - 0x30) := if_pos hd
      rcases Code.tryFrom_cases (d - 0x30) with ⟨c, hc⟩ | ⟨hlt, -⟩
      · exact absurd (hcode.trans hc) (hnot c)
      · rw [toNat_oneDigit d hd] at hlt
        have := (isAsciiDigit_iff.mp hd).2
        omega
    · exact if_neg hd
  | [d, e] =>
    by_cases hde : (d = 0x31 && isAsciiDigit e) = true
    · obtain ⟨rfl, he⟩ : d = 0x31 ∧ isAsciiDigit e = true := by simpa using hde
      have hcode : Code.fromBytes [0x31, e] = Code.tryFrom ((0x31 - 0x30) * 10 + e - 0x30) :=
        if_pos hde
      have hspelled : spelled [0x31, e] = toString (e.toNat - 38) := if_pos hde
      rcases Code.tryFrom_cases ((0x31 - 0x30) * 10 + e - 0x30) with ⟨c, hc⟩ | ⟨-, herr⟩
      · exact absurd (hcode.trans hc) (hnot c)
      · rw [hcode, herr, toNat_twoDigits e he, invalidStatus, hspelled]
    · have hcode : Code.fromBytes [d, e] =
          .error (.new .internal ("invalid grpc-status(" ++ debugBytes [d, e] ++ ")")) :=
        if_neg hde
      have hspelled : spelled [d, e] = debugBytes [d, e] := if_neg hde
      rw [hcode, invalidStatus, hspelled]
  | _ :: _ :: _ :: _ => rfl

namespace Response

variable {M H : Type} [Message M] [HeaderMap H]

/-! ## The rules -/

/-- The status that the headers report with this code. -/
def reportedStatus (headers : H) (c : Code) : Status :=
  { code := c
    message := ((HeaderMap.get headers grpcMessage).map fromUtf8Lossy).getD ""
    detail := (HeaderMap.get headers grpcStatusDetailBin).getD []
    cause := none }

/-- How a call ends once its message and its trailers are there. -/
inductive Concluded {T : Type} (message : T) (headers : H) : Except Status (Response T) → Prop
  | noStatus : HeaderMap.get headers grpcStatus = none →
    Concluded message headers (.error (.internal "grpc-status not found"))
  | invalid {v : Bytes} : HeaderMap.get headers grpcStatus = some v →
    (∀ c : Code, v ≠ utf8 (toString c.value)) →
    Concluded message headers (.error (invalidStatus v))
  | failed {c : Code} : HeaderMap.get headers grpcStatus = some (utf8 (toString c.value)) →
    c ≠ .ok → Concluded message headers (.error (reportedStatus headers c))
  | done : HeaderMap.get headers grpcStatus = some (utf8 (toString Code.ok.value)) →
    Concluded message headers (.ok ⟨message, MetadataMap.new.mergeHttpHeader headers⟩)

/-- How a call ends whose response has the HTTP status 200. -/
inductive Read (M : Type) [Message M] (headers : H) (body : Body H) :
    Poll (Except Status (Response M)) → Prop
  /-- The body fails before it has given a frame. -/
  | transport {seen unread : List BodyEvent} {e : HyperError} :
    body.events = seen ++ .error e :: unread → (∀ e ∈ seen, e.isError = false) →
    Undecided (dataBytes seen) → Read M headers body (.ready (.error (.fromHyperError e)))
  /-- The body ends before it has given a frame. -/
  | noMessage : (∀ e ∈ body.events, e.isError = false) → Undecided (dataBytes body.events) →
    body.ending = .eof → Read M headers body (.ready (.error (.internal "expect first message")))
  /-- The body neither gives a frame nor ends. -/
  | stalled : (∀ e ∈ body.events, e.isError = false) → Undecided (dataBytes body.events) →
    body.ending = .stalled → Read M headers body .pending
  | compressed : 5 ≤ (bytesBeforeError body.events).length →
    (bytesBeforeError body.events)[0]! ≠ 0 →
    Read M headers body (.ready (.error ProstDecoder.unsupportedCompression))
  | undecodable {payload extra : Bytes} {unread : List BodyEvent} {e : DecodeError} :
    Streaming.FirstFrame body payload extra unread →
    Message.decode (M := M) payload = .error e →
    Read M headers body (.ready (.error (.fromDecodeError e)))
  /-- The trailers do not come, for one because the rest of the data is not read. -/
  | noTrailers {payload extra : Bytes} {unread : List BodyEvent} {m : M} :
    Streaming.FirstFrame body payload extra unread → Message.decode payload = .ok m →
    body.trailers unread = .pending → Read M headers body .pending
  | trailersFailed {payload extra : Bytes} {unread : List BodyEvent} {m : M} {e : HyperError} :
    Streaming.FirstFrame body payload extra unread → Message.decode payload = .ok m →
    body.trailers unread = .ready (.error e) →
    Read M headers body (.ready (.error (.fromHyperError e)))
  | concluded {payload extra : Bytes} {unread : List BodyEvent} {m : M} {trailer : Option H}
    {r : Except Status (Response M)} :
    Streaming.FirstFrame body payload extra unread → Message.decode payload = .ok m →
    body.trailers unread = .ready (.ok trailer) →
    Concluded m (extendHeaders headers trailer) r → Read M headers body (.ready r)

/-- How a unary call ends. -/
inductive Ends (M : Type) [Message M] (resp : HttpResponse H) :
    Poll (Except Status (Response M)) → Prop
  | http : resp.status ≠ .ok → Ends M resp (.ready (.error (.fromHttpStatus resp.status)))
  | read {r : Poll (Except Status (Response M))} : resp.status = .ok →
    Read M resp.headers resp.body r → Ends M resp r

/-! ## What the rules say -/

theorem fromHeaderMap_of_code {headers : H} {c : Code}
    (h : HeaderMap.get headers grpcStatus = some (utf8 (toString c.value))) :
    Status.fromHeaderMap headers = .ok (reportedStatus headers c) := by
  rw [Status.fromHeaderMap, h]
  dsimp only
  rw [Code.fromBytes_value]
  rfl

theorem Concluded.eq {T : Type} {message : T} {headers : H} {r : Except Status (Response T)}
    (h : Concluded message headers r) : conclude message headers = r := by
  unfold conclude
  cases h with
  | noStatus hnone => rw [Status.fromHeaderMap, hnone]
  | invalid hv hinvalid =>
    rw [Status.fromHeaderMap, hv]
    dsimp only
    rw [Code.fromBytes_of_invalid hinvalid]
  | failed hv hc =>
    rw [fromHeaderMap_of_code hv]
    simp [reportedStatus, Status.isOk, hc]
  | done hv =>
    rw [fromHeaderMap_of_code hv]
    rfl

theorem exists_concluded {T : Type} (message : T) (headers : H) :
    ∃ r, Concluded message headers r := by
  cases hv : HeaderMap.get headers grpcStatus with
  | none => exact ⟨_, .noStatus hv⟩
  | some v =>
    by_cases hcode : ∃ c : Code, v = utf8 (toString c.value)
    · obtain ⟨c, rfl⟩ := hcode
      by_cases hc : c = .ok
      · subst hc
        exact ⟨_, .done hv⟩
      · exact ⟨_, .failed hv hc⟩
    · exact ⟨_, .invalid hv (not_exists.mp hcode)⟩

omit [HeaderMap H] in
theorem recvMessage_of_undecided {body : Body H} (herr : ∀ e ∈ body.events, e.isError = false)
    (h : Undecided (dataBytes body.events)) :
    (Streaming.new (M := M) body).recvMessage.1 =
      match body.ending with
      | .eof => .ready (.ok none)
      | .stalled => .pending := by
  have hfind : body.events.find? BodyEvent.isError = none := by
    rw [List.find?_eq_none]
    intro e he
    simp [herr e he]
  rw [Streaming.recvMessage_new, bytesBeforeError_of_noError herr, attemptFrame_eq_more_iff.mpr h,
    Streaming.exhausted.eq_def, hfind]
  cases body.ending <;> rfl

omit [HeaderMap H] in
theorem bytesBeforeError_of_split {events seen unread : List BodyEvent} {e : HyperError}
    (hevents : events = seen ++ .error e :: unread) (herr : ∀ e ∈ seen, e.isError = false) :
    bytesBeforeError events = dataBytes seen := by
  rw [hevents, bytesBeforeError_append herr, bytesBeforeError_error, List.append_nil]

omit [HeaderMap H] in
theorem recvMessage_of_transport {body : Body H} {seen unread : List BodyEvent} {e : HyperError}
    (hevents : body.events = seen ++ .error e :: unread) (herr : ∀ e ∈ seen, e.isError = false)
    (h : Undecided (dataBytes seen)) :
    (Streaming.new (M := M) body).recvMessage.1 = .ready (.error (.fromHyperError e)) := by
  have hfind : body.events.find? BodyEvent.isError = some (.error e) := by
    rw [hevents, List.find?_append, List.find?_eq_none.mpr fun e he => by simp [herr e he]]
    rfl
  rw [Streaming.recvMessage_new, bytesBeforeError_of_split hevents herr,
    attemptFrame_eq_more_iff.mpr h,
    Streaming.exhausted.eq_def, hfind]

theorem Read.eq {resp : HttpResponse H} (hok : resp.status = .ok)
    {r : Poll (Except Status (Response M))} (h : Read M resp.headers resp.body r) :
    newUnary M resp = r := by
  have hcall := newUnary_of_ok (M := M) hok
  cases h with
  | transport hevents herr hundecided =>
    rw [hcall, recvMessage_of_transport hevents herr hundecided]
  | noMessage herr hundecided heof =>
    rw [hcall, recvMessage_of_undecided herr hundecided, heof]
  | stalled herr hundecided hstalled =>
    rw [hcall, recvMessage_of_undecided herr hundecided, hstalled]
  | compressed hlen hflag =>
    have hhalt : attemptFrame (bytesBeforeError resp.body.events) = .halt () :=
      attemptFrame_eq_halt_iff.mpr ⟨hlen, hflag⟩
    rw [hcall, Streaming.recvMessage_new, hhalt]
  | undecodable hfirst hdec =>
    rw [hcall, hfirst.recvMessage, ProstDecoder.ofPayload, hdec]
    rfl
  | noTrailers hfirst hdec htrailers =>
    rw [newUnary_of_firstFrame hok hfirst hdec, htrailers]
  | trailersFailed hfirst hdec htrailers =>
    rw [newUnary_of_firstFrame hok hfirst hdec, htrailers]
  | concluded hfirst hdec htrailers hconcluded =>
    rw [newUnary_of_firstFrame hok hfirst hdec, htrailers]
    exact congrArg Poll.ready hconcluded.eq

theorem exists_read (headers : H) (body : Body H) : ∃ r, Read M headers body r := by
  cases ha : attemptFrame (bytesBeforeError body.events) with
  | more =>
    have hundecided := attemptFrame_eq_more_iff.mp ha
    cases hfind : body.events.find? BodyEvent.isError with
    | none =>
      have herr : ∀ e ∈ body.events, e.isError = false := by
        simpa using List.find?_eq_none.mp hfind
      rw [bytesBeforeError_of_noError herr] at hundecided
      cases hend : body.ending with
      | eof => exact ⟨_, .noMessage herr hundecided hend⟩
      | stalled => exact ⟨_, .stalled herr hundecided hend⟩
    | some event =>
      obtain ⟨herror, seen, unread, hevents, herr⟩ := List.find?_eq_some_iff_append.mp hfind
      have herr : ∀ e ∈ seen, e.isError = false := by simpa using herr
      cases event with
      | data _ => simp [BodyEvent.isError] at herror
      | pending => simp [BodyEvent.isError] at herror
      | error e =>
        rw [bytesBeforeError_of_split hevents herr] at hundecided
        exact ⟨_, .transport hevents herr hundecided⟩
  | halt u =>
    obtain ⟨hlen, hflag⟩ := attemptFrame_eq_halt_iff.mp ha
    exact ⟨_, .compressed hlen hflag⟩
  | item payload n =>
    obtain ⟨extra, unread, hfirst⟩ := Streaming.exists_firstFrame_of_attempt ha
    cases hdec : Message.decode (M := M) payload with
    | error e => exact ⟨_, .undecodable hfirst hdec⟩
    | ok m =>
      rcases htrailers : body.trailers unread with (e | trailer) | _
      · exact ⟨_, .trailersFailed hfirst hdec htrailers⟩
      · obtain ⟨r, hr⟩ := exists_concluded m (extendHeaders headers trailer)
        exact ⟨_, .concluded hfirst hdec htrailers hr⟩
      · exact ⟨_, .noTrailers hfirst hdec htrailers⟩

theorem Ends.eq {resp : HttpResponse H} {r : Poll (Except Status (Response M))}
    (h : Ends M resp r) : newUnary M resp = r := by
  cases h with
  | http hne => exact newUnary_of_ne_ok hne
  | read hok hread => exact hread.eq hok

theorem exists_ends (resp : HttpResponse H) : ∃ r, Ends M resp r := by
  by_cases hok : resp.status = .ok
  · obtain ⟨r, hread⟩ := exists_read (M := M) resp.headers resp.body
    exact ⟨r, .read hok hread⟩
  · exact ⟨_, .http hok⟩

/-- The rules and the code say the same of every response. -/
theorem ends_iff (resp : HttpResponse H) (r : Poll (Except Status (Response M))) :
    Ends M resp r ↔ newUnary M resp = r := by
  refine ⟨Ends.eq, ?_⟩
  rintro rfl
  obtain ⟨r, hr⟩ := exists_ends (M := M) resp
  rwa [hr.eq]

end Response

end LieGrpc
