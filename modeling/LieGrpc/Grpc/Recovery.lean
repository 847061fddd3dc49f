import LieGrpc.Grpc.Schedules

/-!
# What a disturbed reader makes good

Whatever calls were made, and whatever errors the transport had in between: the stream that is
polled on hands over all the rest, and the errors leave the messages around them alone.
-/

namespace LieGrpc

namespace Streaming

variable {M H : Type} [Message M]

/-! ## Polling on -/

theorem run_append (cs cs' : List Call) (s : Streaming M H) :
    run (cs ++ cs') s =
      ((run cs s).1 ++ (run cs' (run cs s).2).1, (run cs' (run cs s).2).2) := by
  induction cs generalizing s with
  | nil => rfl
  | cons c cs ih => simp [run, ih]

theorem endPolls_append (cs cs' : List Call) (s : Streaming M H) :
    endPolls (cs ++ cs') s = endPolls cs s + endPolls cs' (run cs s).2 := by
  induction cs generalizing s with
  | nil => simp [endPolls, run]
  | cons c cs ih => simp [endPolls, run, ih, Nat.add_assoc]

/-- Each poll takes one result from the body; where the data end, the polls that find none ask
on. -/
theorem run_polls (n : Nat) (s : Streaming M H) :
    (run (List.replicate n .pollNext) s).2.body =
        { s.body with events := s.body.events.drop n } ∧
      endPolls (List.replicate n .pollNext) s =
        if s.body.ending = .eof then n - s.body.events.length else 0 := by
  induction n generalizing s with
  | zero => exact ⟨rfl, by simp [endPolls]⟩
  | succ n ih =>
    obtain ⟨hbody, hends⟩ := ih s.pollNext.2
    rw [pollNext_body] at hbody hends
    have hrun : (run (List.replicate (n + 1) .pollNext) s).2 =
        (run (List.replicate n .pollNext) s.pollNext.2).2 := rfl
    have hcount : endPolls (List.replicate (n + 1) .pollNext) s =
        (if sawEnd s.body.pollData.1 then 1 else 0) +
          endPolls (List.replicate n .pollNext) s.pollNext.2 := by
      simp [List.replicate_succ, endPolls, Call.endPolls, call]
    rw [hrun, hcount, hbody, hends]
    obtain ⟨⟨events, ending, trailers⟩, buf⟩ := s
    cases events with
    | nil =>
      refine ⟨by cases ending <;> simp [Body.pollData], ?_⟩
      cases ending <;> simp [Body.pollData, sawEnd, Nat.add_comm]
    | cons e es => cases ending <;> exact ⟨rfl, by simp [Body.pollData]⟩

theorem outcome?_answer? (x : HyperError ⊕ Attempt Bytes Unit) :
    (answer? (M := M) x).bind outcome? =
      (x.getRight?.bind Attempt.item?).map Message.decode := by
  rcases x with e | v | u | ⟨payload, n⟩
  · rfl
  · rfl
  · rfl
  · exact outcome?_ofPayload payload

omit [Message M] in
theorem delivered_eq_results (replies : List (Reply M)) :
    delivered replies = (results replies).filterMap outcome? := by
  rw [results, List.filterMap_filterMap]
  rfl

/-- The decoder outcomes of a replayed run are those of the payloads that a paced reader of its
chunks delivers. -/
theorem delivered_of_replayed {s s' : Streaming M H} {input : List (HyperError ⊕ Bytes)}
    {replies : List (Reply M)} (h : Replayed s input (results replies) s') :
    delivered replies =
      (framing.deliveries s.buf (input.filterMap Sum.getRight?)).map Message.decode := by
  rw [delivered_eq_results, h.results, Incremental.deliveries,
    ← (Incremental.relay_paced s.buf input).1]
  simp only [List.filterMap_filterMap, ← List.filterMap_eq_map, outcome?_answer?]
  refine List.filterMap_congr fun x _ => ?_
  cases x.getRight?.bind Attempt.item? <;> rfl

/-- How many of `n` polls come after the end of the data. -/
def asked (body : Body H) (n : Nat) : Nat :=
  if body.ending = .eof then n - body.events.length else 0

/-- What the buffer of a fresh stream is extended by in `n` polls. -/
def fed (body : Body H) (n : Nat) : List Bytes :=
  chunks (body.events.take n) ++ List.replicate (asked body n) []

omit [Message M] in
theorem asked_of_le {body : Body H} {n : Nat} (h : n ≤ body.events.length) : asked body n = 0 := by
  rw [asked, Nat.sub_eq_zero_of_le h, ite_self]

omit [Message M] in
theorem flatten_fed (body : Body H) (n : Nat) :
    (fed body n).flatten = dataBytes (body.events.take n) := by
  simp [fed, dataBytes]

/-- Polls are replayed by the first results of the body, and then by asking on. -/
theorem run_polls_replayed (body : Body H) (n : Nat) :
    Replayed (new body)
      (signals (body.events.take n) ++ List.replicate (asked body n) (.inr []))
      (results (run (List.replicate n .pollNext) (new (M := M) body)).1)
      (run (List.replicate n .pollNext) (new body)).2 := by
  obtain ⟨seen, hbody, -, h⟩ := run_replayed (List.replicate n .pollNext) (new (M := M) body)
  obtain ⟨hlast, hends⟩ := run_polls n (new (M := M) body)
  have htaken : body.events = seen ++ body.events.drop n := by
    have := congrArg Body.events hbody
    rwa [hlast] at this
  have hseen : body.events.take n = seen := by
    refine List.append_cancel_right (?_ : _ ++ body.events.drop n = _)
    rw [List.take_append_drop]
    exact htaken
  rw [hends, ← hseen] at h
  exact h

theorem run_polls_buf (body : Body H) (n : Nat) :
    (run (List.replicate n .pollNext) (new (M := M) body)).2.buf =
      (framing.paced [] (fed body n)).2 := by
  rw [(run_polls_replayed body n).buf, (Incremental.relay_paced _ _).2, chunks_input]
  rfl

theorem run_polls_delivered (body : Body H) (n : Nat) :
    delivered (run (List.replicate n .pollNext) (new (M := M) body)).1 =
      (framing.deliveries [] (fed body n)).map Message.decode := by
  rw [delivered_of_replayed (run_polls_replayed body n), chunks_input]
  rfl

/-- Polls that are enough for the results that are still unread and for the frames leave nothing to
be read, and the stream has been asked on once for each frame. -/
theorem run_polled_out (body : Body H) (cs : List Call) (n : Nat) (heof : body.ending = .eof)
    (hn : (run cs (new (M := M) body)).2.body.events.length +
      (framing.items (dataBytes body.events)).length ≤ n) :
    ∃ k, (framing.items (dataBytes body.events)).length ≤ k ∧
      (run (cs ++ List.replicate n .pollNext) (new (M := M) body)).2.body =
        { body with events := [] } ∧
      Replayed (new body) (signals body.events ++ List.replicate k (.inr []))
        (results (run (cs ++ List.replicate n .pollNext) (new (M := M) body)).1)
        (run (cs ++ List.replicate n .pollNext) (new body)).2 := by
  obtain ⟨seen, hbody, -, h⟩ := run_replayed (cs ++ List.replicate n .pollNext) (new (M := M) body)
  obtain ⟨mid, hmid, -, -⟩ := run_replayed cs (new (M := M) body)
  obtain ⟨hlast, hasked⟩ := run_polls n (run cs (new (M := M) body)).2
  have hnone : (run (cs ++ List.replicate n .pollNext) (new (M := M) body)).2.body.events = [] := by
    rw [run_append]
    dsimp only
    rw [hlast, List.drop_eq_nil_of_le (by omega)]
  have hseen : body.events = seen := by
    have hevents := congrArg Body.events hbody
    rwa [hnone, List.append_nil] at hevents
  refine ⟨_, ?_, ?_, hseen ▸ h⟩
  · have heof' : (run cs (new (M := M) body)).2.body.ending = .eof := by
      rw [← heof]
      exact (congrArg Body.ending hmid).symm
    rw [endPolls_append, hasked, if_pos heof']
    omega
  · generalize (run (cs ++ List.replicate n .pollNext) (new (M := M) body)).2.body = last
      at hbody hnone ⊢
    obtain ⟨events, ending, trailers⟩ := last
    obtain rfl : events = [] := hnone
    have hsame : body = ⟨seen ++ [], ending, trailers⟩ := hbody
    rw [hsame]

/-- Whatever was called before, and whatever transport errors there are: polled once for each
result that is still unread and once for each frame, the stream has handed over every payload. -/
theorem run_complete (body : Body H) (cs : List Call) (n : Nat) (heof : body.ending = .eof)
    (hn : (run cs (new (M := M) body)).2.body.events.length +
      (framing.items (dataBytes body.events)).length ≤ n) :
    delivered (run (cs ++ List.replicate n .pollNext) (new (M := M) body)).1 =
      greedyOutcomes M (dataBytes body.events) := by
  obtain ⟨k, hk, -, h⟩ := run_polled_out (M := M) body cs n heof hn
  rw [delivered_of_replayed h, chunks_input]
  exact congrArg _ (Incremental.deliveries_asked_on hk)

/-- Two frames over three chunks, a future that is dropped and an error of the transport: two
results are unread after the first calls. -/
theorem run_complete_bools :
    delivered (run ([.pollRecvMessage, .recvMessage] ++ List.replicate 4 .pollNext)
        (new (M := Bool) (H := HeaderList) ⟨[.data [0, 0, 0], .pending, .data [0, 0, 0],
          .error ⟨"reset"⟩, .data [0, 0, 0, 0]], .eof, fun _ => .ready (.ok none)⟩)).1 =
      greedyOutcomes Bool [0, 0, 0, 0, 0, 0, 0, 0, 0, 0] := by
  have hframes : framing.items ([0, 0, 0, 0, 0, 0, 0, 0, 0, 0] : Bytes) = [[], []] :=
    have hshort : ∀ p ∈ ([[], []] : List Bytes), p.length < 2 ^ 32 := by simp
    items_encoded hshort
  exact run_complete _ _ 4 rfl (by
    change 2 + (framing.items ([0, 0, 0, 0, 0, 0, 0, 0, 0, 0] : Bytes)).length ≤ 4
    rw [hframes]
    decide)

/-! ## Errors of the transport -/

/-- The error of the transport that a result passes on. -/
def transport? : Except Status M → Option HyperError
  | .ok _ => none
  | .error status =>
    match status.cause with
    | some (.hyper e) => some e
    | _ => none

theorem transport?_answer? (x : HyperError ⊕ Attempt Bytes Unit) :
    (answer? (M := M) x).bind transport? = x.getLeft? := by
  rcases x with e | v | u | ⟨payload, n⟩
  · rfl
  · rfl
  · rfl
  · simp only [answer?, result?_item, ProstDecoder.ofPayload]
    cases Message.decode (M := M) payload <;> rfl

theorem filterMap_transport? (xs : List (HyperError ⊕ Attempt Bytes Unit)) :
    (xs.filterMap (answer? (M := M))).filterMap transport? = xs.filterMap Sum.getLeft? := by
  rw [List.filterMap_filterMap]
  exact List.filterMap_congr fun x _ => transport?_answer? x

/-- Without the errors of the transport, the verdicts are answered as always. -/
theorem filter_transport? (xs : List (HyperError ⊕ Attempt Bytes Unit)) :
    (xs.filterMap (answer? (M := M))).filter (fun r => (transport? r).isNone) =
      (xs.filterMap Sum.getRight?).filterMap result? := by
  induction xs with
  | nil => rfl
  | cons x xs ih =>
    have hx := transport?_answer? (M := M) x
    cases x with
    | inl e =>
      have hsome : transport? (M := M) (.error (.fromHyperError e)) = some e := hx
      simpa [List.filterMap_cons, answer?, hsome] using ih
    | inr v =>
      cases hv : result? (M := M) v with
      | none => simpa [List.filterMap_cons, answer?, hv] using ih
      | some r =>
        have hnone : transport? r = none := by simpa [answer?, hv] using hx
        simpa [List.filterMap_cons, answer?, hv, hnone] using ih

theorem errors_signals (es : List BodyEvent) :
    (signals es).filterMap Sum.getLeft? = es.filterMap BodyEvent.error? := by
  induction es with
  | nil => rfl
  | cons e es ih => cases e <;> simp [List.filterMap_cons, ih, BodyEvent.error?]

/-- The chunks among some poll results, with nothing between them and nothing behind. -/
def quiet (body : Body H) (seen : List BodyEvent) : Body H :=
  { body with events := (chunks seen).map .data, ending := .eof }

theorem signals_quiet (cs : List Bytes) : signals (cs.map .data) = cs.map .inr := by
  induction cs with
  | nil => rfl
  | cons c cs ih => simp [ih]

/-- Polling a body of chunks and on after its end is pacing through the chunks. -/
theorem run_quiet (body : Body H) (seen : List BodyEvent) (k : Nat) :
    let r := run (List.replicate ((chunks seen).length + k) .pollNext)
      (new (M := M) (quiet body seen))
    results r.1 = (framing.paced [] (chunks seen ++ List.replicate k [])).1.filterMap result? ∧
      r.2.buf = (framing.paced [] (chunks seen ++ List.replicate k [])).2 := by
  obtain ⟨all, hbody, -, h⟩ := run_replayed
    (List.replicate ((chunks seen).length + k) .pollNext) (new (M := M) (quiet body seen))
  obtain ⟨hlast, hends⟩ := run_polls ((chunks seen).length + k) (new (M := M) (quiet body seen))
  have hall := congrArg Body.events hbody
  rw [hlast] at hall
  have hk : (chunks seen).length + k - ((chunks seen).map BodyEvent.data).length = k := by simp
  have hevents : all = (chunks seen).map .data := by
    simpa [new, quiet, List.drop_eq_nil_of_le] using hall.symm
  have hasked := hends.trans (if_pos rfl)
  rw [hasked, hevents, signals_quiet] at h
  have hinput : (chunks seen).map Sum.inr ++
      List.replicate ((chunks seen).length + k - (quiet body seen).events.length) (.inr []) =
      (chunks seen ++ List.replicate k []).map (Sum.inr (α := HyperError)) := by
    simp [quiet]
  obtain ⟨hresults, hbuf⟩ := h
  simp only [new, hinput, Incremental.relay_map_inr] at hresults hbuf
  refine ⟨?_, hbuf⟩
  rw [new, hresults, List.filterMap_map]
  rfl

/-- What a run on a body with errors hands over and holds. -/
structure Undisturbed (body : Body H) (cs : List Call) (seen : List BodyEvent) : Prop where
  taken : body.events = seen ++ (run cs (new (M := M) body)).2.body.events
  /-- The errors of the transport are passed on, each once and in order. -/
  passed : (results (run cs (new (M := M) body)).1).filterMap transport? =
    seen.filterMap BodyEvent.error?
  /-- Everything else is as if they had not occurred, and as if the body had always been ready. -/
  others : ((results (run cs (new (M := M) body)).1).filter fun r => (transport? r).isNone) =
    results (run (List.replicate ((chunks seen).length + endPolls cs (new (M := M) body)) .pollNext)
      (new (quiet body seen))).1
  buf : (run cs (new (M := M) body)).2.buf =
    (run (List.replicate ((chunks seen).length + endPolls cs (new (M := M) body)) .pollNext)
      (new (M := M) (quiet body seen))).2.buf

/-- Errors of the transport do not disturb the framing, whatever the calls are. -/
theorem run_undisturbed (body : Body H) (cs : List Call) :
    ∃ seen, Undisturbed (M := M) body cs seen := by
  obtain ⟨seen, hbody, -, h⟩ := run_replayed cs (new (M := M) body)
  obtain ⟨hquiet, hquietBuf⟩ := run_quiet (M := M) body seen (endPolls cs (new (M := M) body))
  obtain ⟨hpaced, hbuf⟩ := Incremental.relay_paced (P := framing) [] (signals seen ++
    List.replicate (endPolls cs (new (M := M) body)) (.inr []))
  rw [chunks_input] at hpaced hbuf
  refine ⟨seen, congrArg Body.events hbody, ?_, ?_, ?_⟩
  · rw [h.results, filterMap_transport?, Incremental.interruptions_relay, List.filterMap_append,
      errors_signals, List.filterMap_replicate]
    exact List.append_nil _
  · rw [h.results, filter_transport?, hquiet]
    exact congrArg _ hpaced
  · rw [h.buf, hquietBuf]
    exact hbuf

end Streaming

end LieGrpc
