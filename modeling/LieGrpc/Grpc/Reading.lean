import LieGrpc.Grpc.Streaming

/-!
# Runs of the streaming reader

What holds after any calls on a fresh `Streaming` value, in any order and whatever the body
gives. The reader is faithful to its input: what it hands over begins the greedy parse of
the body. But it gets to a message that it has already received only with the next chunk,
and its `Stream` implementation breaks two rules of that trait: it answers `Pending` after a
chunk that completes no frame, when nobody will wake the task, and it never ends.
-/

namespace LieGrpc

namespace Streaming

variable {M H : Type} [Message M]

/-! ## Faithfulness -/

variable (M) in
/-- The outcomes of decoding a complete input frame by frame, from left to right. -/
def greedyOutcomes (bytes : Bytes) : List (Except DecodeError M) :=
  (framing.items bytes).map Message.decode

/-- What a reader of `body` has handed over and holds in its buffer is true to the body. -/
structure Faithful (body : Body H) (outcomes : List (Except DecodeError M))
    (s : Streaming M H) : Prop where
  /-- The bytes received so far are the consumed frames followed by the buffer. -/
  received : ∃ seen payloads, body = { s.body with events := seen ++ s.body.events } ∧
    (∀ p ∈ payloads, p.length < 2 ^ 32) ∧ dataBytes seen = frames payloads ++ s.buf ∧
    outcomes = payloads.map Message.decode
  inOrder : outcomes <+: greedyOutcomes M (dataBytes body.events)
  /-- A bad flag stops the reader for good. -/
  refused : 5 ≤ s.buf.length → s.buf[0]! ≠ 0 → ∀ later, delivered (run later s).1 = []

theorem Accounted.inOrder {s s' : Streaming M H} {outcomes : List (Except DecodeError M)}
    (h : Accounted s outcomes s') :
    outcomes <+: greedyOutcomes M (s.buf ++ dataBytes s.body.events) := by
  obtain ⟨seen, payloads, hbody, hc, rfl⟩ := h
  have hall : framing.Consumes (s.buf ++ dataBytes s.body.events) payloads
      (s'.buf ++ dataBytes s'.body.events) := by
    rw [hbody]
    simpa using hc.feed (dataBytes s'.body.events)
  rw [greedyOutcomes, hall.items, List.map_append]
  exact List.prefix_append _ _

/-- Behind a refused flag there is nothing to account for. -/
theorem Accounted.eq_nil_of_halt {s s' : Streaming M H} {outcomes : List (Except DecodeError M)}
    (h : Accounted s outcomes s') {u : Unit} (hs : attemptFrame s.buf = .halt u) :
    outcomes = [] := by
  obtain ⟨seen, payloads, -, hc, rfl⟩ := h
  have hnone := framing.items_of_halt hs (dataBytes seen)
  rw [hc.items, List.append_eq_nil_iff] at hnone
  rw [hnone.1, List.map_nil]

theorem faithful_run (body : Body H) (calls : List Call) :
    Faithful body (delivered (run calls (new (M := M) body)).1) (run calls (new body)).2 := by
  have hrun := run_accounted calls (new (M := M) body)
  refine ⟨?_, by simpa [new] using hrun.inOrder, ?_⟩
  · obtain ⟨seen, payloads, hbody, hc, hout⟩ := hrun
    obtain ⟨hfit, hseen⟩ := consumes_iff.mp hc
    exact ⟨seen, payloads, hbody, hfit, hseen, hout⟩
  · intro hlen hflag later
    exact (run_accounted later _).eq_nil_of_halt
      (attemptFrame_eq_halt_iff (e := ()).mpr ⟨hlen, hflag⟩)

/-! ## Wake-ups -/

/-- The states before, between and after the calls of a run. -/
def states : List Call → Streaming M H → List (Streaming M H)
  | [], s => [s]
  | c :: cs, s => s :: states cs (call c s).2

/-- `Pending` is passed on from the body, which then has the waker. -/
def PendingHonest (s : Streaming M H) : Prop :=
  s.pollNext.1 = .pending → s.body.pollData.1 = .pending

/-- If the body is ready without an error, the extended buffer starts with a frame or is
refused. -/
def PollDecides (s : Streaming M H) : Prop :=
  match s.body.pollData.1 with
  | .pending | .ready (some (.error _)) => True
  | .ready (some (.ok b)) => ¬ Undecided (s.buf ++ b)
  | .ready none => ¬ Undecided s.buf

theorem ofVerdict_eq_pending_iff (v : Attempt Bytes Unit) :
    ofVerdict (M := M) v = .pending ↔ v = .more := by
  cases v <;> simp [ofVerdict]

theorem pendingHonest_iff_pollDecides (s : Streaming M H) : PendingHonest s ↔ PollDecides s := by
  unfold PendingHonest PollDecides
  rcases s.pollNext_cases with ⟨hpoll, -⟩ | ⟨err, hpoll, h⟩ | ⟨b, hpoll, h⟩
  · simp [hpoll]
  · simp [hpoll, h]
  · rw [h, ofVerdict_eq_pending_iff, attemptFrame_eq_more_iff]
    rcases hp : s.body.pollData.1 with (_ | err | b') | _ <;> simp_all [feed?]

/-- In a run, no `Pending` of `poll_next` is the decoder's exactly if no poll meets a ready
body that leaves the buffer undecided. -/
theorem pendingHonest_iff (body : Body H) (calls : List Call) :
    (∀ s ∈ states calls (new (M := M) body), PendingHonest s) ↔
      ∀ s ∈ states calls (new (M := M) body), PollDecides s :=
  forall₂_congr fun s _ => pendingHonest_iff_pollDecides s

/-- One byte of a header is a chunk after which nobody wakes the task. -/
theorem not_pendingHonest_headerByte :
    ¬ ∀ (body : Body HeaderList) (calls : List Call),
      ∀ s ∈ states calls (new (M := Bool) body), PendingHonest s := by
  intro h
  have hwake := h ⟨[.data [0]], .eof, fun _ => .ready (.ok none)⟩ [] _ List.mem_cons_self rfl
  cases hwake

/-! ## Messages already received -/

/-- The buffer starts with the frame of a message. -/
def Buffered (s : Streaming M H) (m : M) : Prop :=
  ∃ payload rest, payload.length < 2 ^ 32 ∧ s.buf = frame payload ++ rest ∧
    Message.decode payload = .ok m

/-- Both calls return a buffered message when they are polled once. -/
def DeliversBuffered (s : Streaming M H) : Prop :=
  ∀ m, Buffered s m → s.pollRecvMessage.1 = .ready (.ok (some m)) ∧
    s.pollNext.1 = .ready (some (.ok m))

/-- The body has a further chunk ready. -/
def DataAtHand (s : Streaming M H) : Prop := ∃ b, s.body.pollData.1 = .ready (some (.ok b))

/-- A frame at the front is what an attempt finds, whatever is appended. -/
theorem Buffered.attempt {s : Streaming M H} {m : M} (h : Buffered s m) :
    ∃ payload n, Message.decode payload = .ok m ∧
      ∀ b, attemptFrame (s.buf ++ b) = .item payload n := by
  obtain ⟨payload, rest, hlen, hbuf, hdec⟩ := h
  refine ⟨payload, (frame payload).length, hdec, fun b => ?_⟩
  rw [hbuf, List.append_assoc]
  exact attemptFrame_frame hlen _

/-- `recv_message` decodes only after a chunk. -/
theorem Buffered.pollRecvMessage_iff {s : Streaming M H} {m : M} (h : Buffered s m) :
    s.pollRecvMessage.1 = .ready (.ok (some m)) ↔ DataAtHand s := by
  obtain ⟨payload, n, hdec, hitem⟩ := h.attempt
  have hdecode (b : Bytes) :
      ProstDecoder.decode M (s.buf ++ b) = (.ok (some m), (s.buf ++ b).drop n) := by
    rw [ProstDecoder.decode_of_item (hitem b), ProstDecoder.ofPayload, hdec]
    rfl
  rw [pollRecvMessage_eq, DataAtHand]
  rcases s.body.pollData with ⟨(_ | err | b) | _, body⟩ <;> simp [hdecode]

/-- `poll_next` decodes at the end of the data as well. -/
theorem Buffered.pollNext_iff {s : Streaming M H} {m : M} (h : Buffered s m) :
    s.pollNext.1 = .ready (some (.ok m)) ↔ (feed? s.body.pollData.1).isSome := by
  obtain ⟨payload, n, hdec, hitem⟩ := h.attempt
  rcases s.pollNext_cases with ⟨hpoll, hs⟩ | ⟨err, hpoll, hs⟩ | ⟨b, hpoll, hs⟩
  · simp [hs, hpoll, feed?]
  · simp [hs, hpoll, feed?]
  · simp [hs, hpoll, hitem, ofVerdict, ProstDecoder.ofPayload, hdec]

theorem deliversBuffered_iff (s : Streaming M H) :
    DeliversBuffered s ↔ ∀ m, Buffered s m → DataAtHand s := by
  refine forall₂_congr fun m hm => ?_
  rw [hm.pollRecvMessage_iff, hm.pollNext_iff]
  refine and_iff_left_of_imp ?_
  rintro ⟨b, hb⟩
  simp [hb, feed?]

/-- In a run, a buffered message is delivered at once in all states exactly if in all of them
the body has a further chunk to go with it. -/
theorem deliversBuffered_run_iff (body : Body H) (calls : List Call) :
    (∀ s ∈ states calls (new (M := M) body), DeliversBuffered s) ↔
      ∀ s ∈ states calls (new (M := M) body), ∀ m, Buffered s m → DataAtHand s :=
  forall₂_congr fun s _ => deliversBuffered_iff s

/-- Two frames in one chunk and nothing more yet: the second message is not delivered. -/
theorem not_deliversBuffered_twoFrames :
    ¬ ∀ (body : Body HeaderList) (calls : List Call),
      ∀ s ∈ states calls (new (M := Bool) body), DeliversBuffered s := by
  intro h
  have hstate : ∃ s : Streaming Bool HeaderList, s.buf = frame [] ∧ s.pollNext.1 = .pending ∧
      s ∈ states [.pollNext] (new ⟨[.data [0, 0, 0, 0, 0, 0, 0, 0, 0, 0]], .stalled,
        fun _ => .pending⟩) :=
    ⟨_, rfl, rfl, List.mem_cons_of_mem _ List.mem_cons_self⟩
  obtain ⟨s, hbuf, hpending, hs⟩ := hstate
  have hmessage : Buffered s false := ⟨[], [], by simp, by simpa using hbuf, rfl⟩
  have hnow := (h _ _ s hs false hmessage).2
  rw [hpending] at hnow
  cases hnow

/-! ## The end of the stream -/

/-- One of the first `bound` polls answers `Ready(None)`. -/
def EndsWithin (bound : Nat) (s : Streaming M H) : Prop :=
  .ready none ∈ (polls bound s).1.map Polled.reply

theorem pollNext_ne_none (s : Streaming M H) : s.pollNext.1 ≠ .ready none := by
  rcases s.pollNext_cases with ⟨-, h⟩ | ⟨err, -, h⟩ | ⟨b, -, h⟩
  · simp [h]
  · simp [h]
  · rw [h]
    cases attemptFrame (s.buf ++ b) <;> simp [ofVerdict]

theorem none_notMem_polls (n : Nat) (s : Streaming M H) :
    .ready none ∉ (polls n s).1.map Polled.reply := by
  induction n generalizing s with
  | zero => simp [polls]
  | succ n ih =>
    rw [polls, List.map_cons, List.mem_cons, not_or]
    exact ⟨(pollNext_ne_none s).symm, ih _⟩

/-- Whatever its chunks, a body whose data ends gives a stream that does not. -/
theorem not_endsWithin (chunks : List Bytes)
    (trailers : List BodyEvent → Poll (Except HyperError (Option H))) :
    ¬ EndsWithin (chunks.length + chunks.flatten.length + 2)
      (new (M := M) ⟨chunks.map .data, .eof, trailers⟩) :=
  none_notMem_polls _ _

/-- The empty body. -/
theorem not_endsWithin_emptyBody :
    ¬ ∀ (chunks : List Bytes)
      (trailers : List BodyEvent → Poll (Except HyperError (Option HeaderList))),
      EndsWithin (chunks.length + chunks.flatten.length + 2)
        (new (M := Bool) ⟨chunks.map .data, .eof, trailers⟩) := fun h =>
  none_notMem_polls _ _ (h [] fun _ => .ready (.ok none))

end Streaming

end LieGrpc
