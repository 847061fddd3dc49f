import LieGrpc.Codec

/-!
# The streaming reader

`Streaming` reads messages from a body in two ways: the future of `recv_message`, which
waits for data and decodes once after each chunk, and `poll_next`, which polls the body
once and decodes once unless the body is not ready.

Whatever a call does, it is accounted for by the parser of frames: some poll results are
used up, and at most one payload is taken from the buffer they extend (`call_accounted`).
-/

namespace LieGrpc

/-- The decoder of a stream has no state of its own. -/
structure Streaming (M H : Type) where
  body : Body H
  buf : Bytes

namespace Streaming

variable {M H : Type} [Message M]

def new (body : Body H) : Streaming M H := ⟨body, []⟩

variable (M) in
/-- The loop of `recv_message` over the poll results that are still to come. Nothing but
`self` lives across its await point. A future that is polled once stops at `Pending`; one
that is awaited is polled again. -/
def recvLoop (awaited : Bool) (ending : BodyEnd) :
    List BodyEvent → Bytes → Poll (Except Status (Option M)) × List BodyEvent × Bytes
  | [], buf =>
    match ending with
    | .eof => (.ready (.ok none), [], buf)
    | .stalled => (.pending, [], buf)
  | .pending :: es, buf => if awaited then recvLoop awaited ending es buf else (.pending, es, buf)
  | .error err :: es, buf => (.ready (.error (.fromHyperError err)), es, buf)
  | .data b :: es, buf =>
    match ProstDecoder.decode M (buf ++ b) with
    | (.error status, buf) => (.ready (.error status), es, buf)
    | (.ok (some m), buf) => (.ready (.ok (some m)), es, buf)
    | (.ok none, buf) => recvLoop awaited ending es buf

def recv (awaited : Bool) (self : Streaming M H) :
    Poll (Except Status (Option M)) × Streaming M H :=
  let r := recvLoop M awaited self.body.ending self.body.events self.buf
  (r.1, { body := { self.body with events := r.2.1 }, buf := r.2.2 })

/-- One poll of the future of `recv_message`. -/
def pollRecvMessage (self : Streaming M H) : Poll (Except Status (Option M)) × Streaming M H :=
  self.recv false

/-- The awaited call; `pending` if it never completes. -/
def recvMessage (self : Streaming M H) : Poll (Except Status (Option M)) × Streaming M H :=
  self.recv true

def pollMessage (self : Streaming M H) : Poll (Option (Except Status M)) × Streaming M H :=
  match self.body.pollData with
  | (.pending, body) => (.pending, { self with body })
  | (.ready (some (.error err)), body) =>
    (.ready (some (.error (.fromHyperError err))), { self with body })
  | (.ready b, body) =>
    let buf :=
      match b with
      | some (.ok bs) => self.buf ++ bs
      | _ => self.buf
    match ProstDecoder.decode M buf with
    | (.ok (some m), buf) => (.ready (some (.ok m)), ⟨body, buf⟩)
    | (.ok none, buf) => (.pending, ⟨body, buf⟩)
    | (.error err, buf) => (.ready (some (.error err)), ⟨body, buf⟩)

/-- `Stream::poll_next`. -/
def pollNext (self : Streaming M H) : Poll (Option (Except Status M)) × Streaming M H :=
  self.pollMessage

/-- Awaiting `recv_trailers`. -/
def recvTrailers (self : Streaming M H) : Poll (Except Status (Option H)) :=
  match self.body.trailers self.body.events with
  | .pending => .pending
  | .ready (.ok trailers) => .ready (.ok trailers)
  | .ready (.error e) => .ready (.error (.fromHyperError e))

/-! ## One chunk in terms of the parser -/

theorem recvLoop_more {buf b : Bytes} (h : attemptFrame (buf ++ b) = .more) (awaited : Bool)
    (ending : BodyEnd) (es : List BodyEvent) :
    recvLoop M awaited ending (.data b :: es) buf = recvLoop M awaited ending es (buf ++ b) := by
  simp [recvLoop, ProstDecoder.decode_of_more h]

theorem recvLoop_halt {buf b : Bytes} {u : Unit} (h : attemptFrame (buf ++ b) = .halt u)
    (awaited : Bool) (ending : BodyEnd) (es : List BodyEvent) :
    recvLoop M awaited ending (.data b :: es) buf =
      (.ready (.error ProstDecoder.unsupportedCompression), es, buf ++ b) := by
  simp [recvLoop, ProstDecoder.decode_of_halt h]

theorem recvLoop_item {buf b payload : Bytes} {n : Nat}
    (h : attemptFrame (buf ++ b) = .item payload n) (awaited : Bool) (ending : BodyEnd)
    (es : List BodyEvent) :
    recvLoop M awaited ending (.data b :: es) buf =
      (.ready ((ProstDecoder.ofPayload M payload).map some), es, (buf ++ b).drop n) := by
  rw [recvLoop, ProstDecoder.decode_of_item h]
  cases ProstDecoder.ofPayload M payload <;> rfl

/-- What `poll_message` answers to a verdict of the parser. -/
def ofVerdict : Attempt Bytes Unit → Poll (Option (Except Status M))
  | .more => .pending
  | .halt _ => .ready (some (.error ProstDecoder.unsupportedCompression))
  | .item payload _ => .ready (some (ProstDecoder.ofPayload M payload))

/-- The decoding end of `poll_message` is one attempt on the buffer. -/
theorem decode_eq_ofVerdict (body : Body H) (buf : Bytes) :
    (match ProstDecoder.decode M buf with
      | (.ok (some m), buf) => ((.ready (some (.ok m)), ⟨body, buf⟩) : _ × Streaming M H)
      | (.ok none, buf) => (.pending, ⟨body, buf⟩)
      | (.error err, buf) => (.ready (some (.error err)), ⟨body, buf⟩)) =
      (ofVerdict (attemptFrame buf), ⟨body, (attemptFrame buf).advance buf⟩) := by
  cases ha : attemptFrame buf with
  | more => simp [ProstDecoder.decode_of_more ha, ofVerdict]
  | halt u => simp [ProstDecoder.decode_of_halt ha, ofVerdict]
  | item payload n =>
    rw [ProstDecoder.decode_of_item ha]
    simp only [ofVerdict]
    cases ProstDecoder.ofPayload M payload <;> rfl

/-- All that a poll of the stream can do. A body that is ready without an error gives one
attempt on the buffer that its chunk extends. -/
theorem pollNext_cases (s : Streaming M H) :
    (s.body.pollData.1 = .pending ∧ s.pollNext = (.pending, ⟨s.body.pollData.2, s.buf⟩)) ∨
    (∃ err, s.body.pollData.1 = .ready (some (.error err)) ∧
      s.pollNext = (.ready (some (.error (.fromHyperError err))), ⟨s.body.pollData.2, s.buf⟩)) ∨
    ∃ b, feed? s.body.pollData.1 = some b ∧
      s.pollNext = (ofVerdict (attemptFrame (s.buf ++ b)),
        ⟨s.body.pollData.2, (attemptFrame (s.buf ++ b)).advance (s.buf ++ b)⟩) := by
  rw [pollNext, pollMessage]
  rcases s.body.pollData with ⟨(_ | err | b) | _, body⟩
  · exact .inr (.inr ⟨[], rfl, by simpa using decode_eq_ofVerdict body s.buf⟩)
  · exact .inr (.inl ⟨err, rfl, rfl⟩)
  · exact .inr (.inr ⟨b, rfl, decode_eq_ofVerdict body (s.buf ++ b)⟩)
  · exact .inl ⟨rfl, rfl⟩

theorem pollNext_body (s : Streaming M H) : s.pollNext.2.body = s.body.pollData.2 := by
  rcases s.pollNext_cases with ⟨-, h⟩ | ⟨err, -, h⟩ | ⟨b, -, h⟩ <;> rw [h]

/-! ## The loop and its polls -/

/-- One poll of the future runs the loop of the source on `poll_data`. -/
theorem pollRecvMessage_eq (s : Streaming M H) :
    s.pollRecvMessage =
      match s.body.pollData with
      | (.pending, body) => (.pending, { s with body })
      | (.ready none, body) => (.ready (.ok none), { s with body })
      | (.ready (some (.error err)), body) =>
        (.ready (.error (.fromHyperError err)), { s with body })
      | (.ready (some (.ok b)), body) =>
        match ProstDecoder.decode M (s.buf ++ b) with
        | (.error status, buf) => (.ready (.error status), ⟨body, buf⟩)
        | (.ok (some m), buf) => (.ready (.ok (some m)), ⟨body, buf⟩)
        | (.ok none, buf) => pollRecvMessage ⟨body, buf⟩ := by
  obtain ⟨⟨events, ending, trailers⟩, buf⟩ := s
  cases events with
  | nil => cases ending <;> rfl
  | cons e es =>
    cases e with
    | pending => rfl
    | error err => rfl
    | data b =>
      simp only [pollRecvMessage, recv, recvLoop, Body.pollData, BodyEvent.poll]
      split <;> rfl

/-- An awaited loop goes on where a poll that was not ready stopped. -/
theorem recvLoop_resume (ending : BodyEnd) (es : List BodyEvent) (buf : Bytes) :
    recvLoop M true ending es buf =
      match recvLoop M false ending es buf with
      | (.ready r, es', buf') => (.ready r, es', buf')
      | (.pending, es', buf') => recvLoop M true ending es' buf' := by
  induction es generalizing buf with
  | nil => cases ending <;> rfl
  | cons e es ih =>
    cases e with
    | pending => rfl
    | error err => rfl
    | data b =>
      simp only [recvLoop]
      split
      · rfl
      · rfl
      · exact ih _

/-- Awaiting is polling until the future is ready. -/
theorem recvMessage_of_poll (s : Streaming M H) :
    s.recvMessage =
      match s.pollRecvMessage with
      | (.ready r, s') => (.ready r, s')
      | (.pending, s') => s'.recvMessage := by
  simp only [recvMessage, pollRecvMessage, recv]
  rw [recvLoop_resume]
  split <;> simp_all

/-- What an awaited call gives if the bytes before an error hold no frame. -/
def exhausted (ending : BodyEnd) (es : List BodyEvent) : Poll (Except Status (Option M)) :=
  match es.find? BodyEvent.isError, ending with
  | some (.error err), _ => .ready (.error (.fromHyperError err))
  | _, .eof => .ready (.ok none)
  | _, .stalled => .pending

/-- The first awaited call depends on the bytes before a body error, not on their chunks. -/
theorem recvLoop_fst (ending : BodyEnd) (es : List BodyEvent) {buf : Bytes}
    (h : attemptFrame buf = .more) :
    (recvLoop M true ending es buf).1 =
      match attemptFrame (buf ++ bytesBeforeError es) with
      | .more => exhausted ending es
      | .halt _ => .ready (.error ProstDecoder.unsupportedCompression)
      | .item payload _ => .ready ((ProstDecoder.ofPayload M payload).map some) := by
  induction es generalizing buf with
  | nil => cases ending <;> simp [h, recvLoop, exhausted]
  | cons e es ih =>
    cases e with
    | pending => exact ih h
    | error err =>
      rw [bytesBeforeError_error, List.append_nil, h]
      rfl
    | data b =>
      rw [bytesBeforeError_data, ← List.append_assoc]
      cases ha : attemptFrame (buf ++ b) with
      | more => rw [recvLoop_more ha, ih ha]; rfl
      | halt u =>
        have hwhole : attemptFrame (buf ++ b ++ bytesBeforeError es) = .halt u :=
          framing.stable_halt ha _
        rw [recvLoop_halt ha, hwhole]
      | item payload n =>
        have hwhole : attemptFrame (buf ++ b ++ bytesBeforeError es) = .item payload n :=
          framing.stable_item ha _
        rw [recvLoop_item ha, hwhole]

theorem recvMessage_new (body : Body H) :
    (new (M := M) body).recvMessage.1 =
      match attemptFrame (bytesBeforeError body.events) with
      | .more => exhausted body.ending body.events
      | .halt _ => .ready (.error ProstDecoder.unsupportedCompression)
      | .item payload _ => .ready ((ProstDecoder.ofPayload M payload).map some) :=
  recvLoop_fst body.ending body.events rfl

omit [Message M] in
theorem exhausted_ne_some (ending : BodyEnd) (es : List BodyEvent) (m : M) :
    exhausted ending es ≠ .ready (.ok (some m)) := by
  unfold exhausted
  split <;> simp

/-- The first message of a body is the payload of the frame at its front. -/
theorem recvMessage_new_eq_some_iff {body : Body H} {m : M} :
    (new body).recvMessage.1 = .ready (.ok (some m)) ↔
      ∃ payload rest, payload.length < 2 ^ 32 ∧
        bytesBeforeError body.events = frame payload ++ rest ∧ Message.decode payload = .ok m := by
  rw [recvMessage_new]
  constructor
  · intro h
    cases ha : attemptFrame (bytesBeforeError body.events) with
    | more => exact absurd (by simpa only [ha] using h) (exhausted_ne_some _ _ m)
    | halt u => simp [ha] at h
    | item payload n =>
      obtain ⟨hlen, -, rest, hrest⟩ := attemptFrame_eq_item_iff.mp ha
      refine ⟨payload, rest, hlen, hrest.symm, ?_⟩
      cases hp : Message.decode (M := M) payload with
      | ok m' => simpa [ha, ProstDecoder.ofPayload, hp, Except.map] using h
      | error e => simp [ha, ProstDecoder.ofPayload, hp, Except.map] at h
  · rintro ⟨payload, rest, hlen, hbytes, hdec⟩
    simp [hbytes, attemptFrame_frame hlen, ProstDecoder.ofPayload, hdec, Except.map]

/-- A body that ends without data has no first message. -/
theorem recvMessage_new_of_empty {body : Body H} (herr : ∀ e ∈ body.events, e.isError = false)
    (heof : body.ending = .eof) (h : dataBytes body.events = []) :
    (new (M := M) body).recvMessage.1 = .ready (.ok none) := by
  have hfind : body.events.find? BodyEvent.isError = none := by
    rw [List.find?_eq_none]
    intro e he
    simp [herr e he]
  rw [recvMessage_new, bytesBeforeError_of_noError herr, h, heof]
  simp [exhausted, hfind, attemptFrame]

/-! ## Calls and what they hand over -/

/-- The calls on one `Streaming` value. A `recv_message` future that is dropped while it
waits is one that was polled and not polled again. -/
inductive Call where
  | recvMessage
  | pollRecvMessage
  | pollNext
  deriving DecidableEq, Repr

inductive Reply (M : Type) where
  | recv (r : Poll (Except Status (Option M)))
  | next (r : Poll (Option (Except Status M)))

def call : Call → Streaming M H → Reply M × Streaming M H
  | .recvMessage, s => (.recv s.recvMessage.1, s.recvMessage.2)
  | .pollRecvMessage, s => (.recv s.pollRecvMessage.1, s.pollRecvMessage.2)
  | .pollNext, s => (.next s.pollNext.1, s.pollNext.2)

/-- A message or an error that a call hands over. -/
def Reply.result? : Reply M → Option (Except Status M)
  | .recv (.ready (.ok (some m))) => some (.ok m)
  | .recv (.ready (.error status)) => some (.error status)
  | .next (.ready (some r)) => some r
  | _ => none

/-- The decoder's part in a result: a message, or the error of a payload. -/
def outcome? : Except Status M → Option (Except DecodeError M)
  | .ok m => some (.ok m)
  | .error status =>
    match status.cause with
    | some (.decode e) => some (.error e)
    | _ => none

def Reply.outcome? (r : Reply M) : Option (Except DecodeError M) :=
  r.result?.bind Streaming.outcome?

@[simp] theorem outcome?_ofPayload (payload : Bytes) :
    outcome? (ProstDecoder.ofPayload M payload) = some (Message.decode payload) := by
  unfold ProstDecoder.ofPayload
  cases Message.decode (M := M) payload <;> rfl

/-! ## Accounting -/

/-- The poll results used up between two states, and the payloads taken from the buffer they
extended: these are the outcomes handed over. -/
def Accounted (s : Streaming M H) (outcomes : List (Except DecodeError M))
    (s' : Streaming M H) : Prop :=
  ∃ seen payloads, s.body = { s'.body with events := seen ++ s'.body.events } ∧
    framing.Consumes (s.buf ++ dataBytes seen) payloads s'.buf ∧
    outcomes = payloads.map Message.decode

theorem Accounted.refl (s : Streaming M H) : Accounted s [] s :=
  ⟨[], [], rfl, by simpa using .refl _, rfl⟩

theorem Accounted.trans {s t u : Streaming M H} {os ps : List (Except DecodeError M)}
    (h : Accounted s os t) (g : Accounted t ps u) : Accounted s (os ++ ps) u := by
  obtain ⟨seen, payloads, hbody, hc, rfl⟩ := h
  obtain ⟨seen', payloads', hbody', hc', rfl⟩ := g
  refine ⟨seen ++ seen', payloads ++ payloads', ?_, ?_, by simp⟩
  · rw [hbody, hbody']
    simp
  · have := (hc.feed (dataBytes seen')).trans hc'
    simpa using this

/-- The results that the loop uses up and the payload it takes. -/
theorem recvLoop_accounted (awaited : Bool) (ending : BodyEnd) (es : List BodyEvent)
    (buf : Bytes) :
    let r := recvLoop M awaited ending es buf
    ∃ seen payloads, es = seen ++ r.2.1 ∧
      framing.Consumes (buf ++ dataBytes seen) payloads r.2.2 ∧
      (Reply.recv r.1).outcome?.toList = payloads.map Message.decode := by
  induction es generalizing buf with
  | nil => cases ending <;> exact ⟨[], [], rfl, by simpa using .refl buf, rfl⟩
  | cons e es ih =>
    cases e with
    | pending =>
      cases awaited with
      | false => exact ⟨[.pending], [], rfl, by simpa using .refl buf, rfl⟩
      | true =>
        obtain ⟨seen, payloads, hes, hc, ho⟩ := ih buf
        exact ⟨.pending :: seen, payloads, congrArg _ hes, hc, ho⟩
    | error err => exact ⟨[.error err], [], rfl, by simpa using .refl buf, rfl⟩
    | data b =>
      cases ha : attemptFrame (buf ++ b) with
      | more =>
        obtain ⟨seen, payloads, hes, hc, ho⟩ := ih (buf ++ b)
        rw [recvLoop_more ha]
        exact ⟨.data b :: seen, payloads, congrArg _ hes, by simpa using hc, ho⟩
      | halt u =>
        rw [recvLoop_halt ha]
        exact ⟨[.data b], [], rfl, by simpa using .refl (buf ++ b), rfl⟩
      | item payload n =>
        rw [recvLoop_item ha]
        refine ⟨[.data b], [payload], rfl, by simpa using .single ha, ?_⟩
        have ho := outcome?_ofPayload (M := M) payload
        cases hp : ProstDecoder.ofPayload M payload <;>
          simp [Except.map, Reply.outcome?, Reply.result?, ← hp, ho]

theorem recv_accounted (awaited : Bool) (s : Streaming M H) :
    Accounted s (Reply.recv (s.recv awaited).1).outcome?.toList (s.recv awaited).2 := by
  obtain ⟨seen, payloads, hes, hc, ho⟩ :=
    recvLoop_accounted (M := M) awaited s.body.ending s.body.events s.buf
  refine ⟨seen, payloads, ?_, hc, ho⟩
  rw [recv]
  dsimp only
  rw [← hes]

theorem outcome?_ofVerdict (v : Attempt Bytes Unit) :
    (Reply.next (ofVerdict (M := M) v)).outcome?.toList = v.item?.toList.map Message.decode := by
  cases v with
  | more | halt => rfl
  | item payload n =>
    have ho := outcome?_ofPayload (M := M) payload
    simp [Reply.outcome?, Reply.result?, ofVerdict, ho]

theorem pollNext_accounted (s : Streaming M H) :
    Accounted s (Reply.next s.pollNext.1).outcome?.toList s.pollNext.2 := by
  obtain ⟨seen, hbody, hseen⟩ := s.body.exists_seen
  rcases s.pollNext_cases with ⟨hpoll, h⟩ | ⟨err, hpoll, h⟩ | ⟨b, hpoll, h⟩
  all_goals
    rw [hpoll] at hseen
    rw [h]
  · exact ⟨seen, [], hbody, by simpa [hseen, feed?] using .refl s.buf, rfl⟩
  · exact ⟨seen, [], hbody, by simpa [hseen, feed?] using .refl s.buf, rfl⟩
  · refine ⟨seen, _, hbody, ?_, outcome?_ofVerdict _⟩
    rw [hseen, Option.getD_some]
    exact .advance framing (s.buf ++ b)

/-- No call loses, repeats or makes up anything. -/
theorem call_accounted (c : Call) (s : Streaming M H) :
    Accounted s (call c s).1.outcome?.toList (call c s).2 := by
  cases c with
  | recvMessage => exact recv_accounted true s
  | pollRecvMessage => exact recv_accounted false s
  | pollNext => exact pollNext_accounted s

/-! ## Runs -/

/-- Calls made one after another, with their replies. -/
def run : List Call → Streaming M H → List (Reply M) × Streaming M H
  | [], s => ([], s)
  | c :: cs, s =>
    let r := call c s
    let t := run cs r.2
    (r.1 :: t.1, t.2)

/-- The decoder outcomes among some replies. -/
def delivered (replies : List (Reply M)) : List (Except DecodeError M) :=
  replies.filterMap Reply.outcome?

theorem run_accounted (cs : List Call) (s : Streaming M H) :
    Accounted s (delivered (run cs s).1) (run cs s).2 := by
  induction cs generalizing s with
  | nil => exact .refl s
  | cons c cs ih =>
    have h := (call_accounted c s).trans (ih (call c s).2)
    cases ho : (call c s).1.outcome? <;> simpa [run, delivered, ho] using h

/-- One poll of the stream: what it got from the body and what it answered. -/
structure Polled (M : Type) where
  body : Poll (Option (Except HyperError Bytes))
  reply : Poll (Option (Except Status M))

/-- `n` polls of the stream. -/
def polls : Nat → Streaming M H → List (Polled M) × Streaming M H
  | 0, s => ([], s)
  | n + 1, s =>
    let r := polls n s.pollNext.2
    (⟨s.body.pollData.1, s.pollNext.1⟩ :: r.1, r.2)

end Streaming

end LieGrpc
