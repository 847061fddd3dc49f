import LieGrpc.Grpc.Delivery
import LieGrpc.Grpc.Reading
import LieGrpc.Library.Interrupted

/-!
# Schedules of the streaming reader

The calls on a `Streaming` value can come in many orders: futures are awaited, or polled and
dropped, and the stream is polled in between. What they hand over is a function of what they
have taken from the body (`run_replayed`): every chunk is one attempt, every transport error
passes, and a poll of the stream after the end of the data is one attempt more. So the order
of the calls makes no difference, and a dropped future loses nothing.
-/

namespace LieGrpc

namespace Streaming

variable {M H : Type} [Message M]

/-! ## What a run takes in -/

/-- What a poll result brings: a chunk, an error, or nothing. -/
def signal? : BodyEvent → Option (HyperError ⊕ Bytes)
  | .pending => none
  | .data b => some (.inr b)
  | .error e => some (.inl e)

def signals (es : List BodyEvent) : List (HyperError ⊕ Bytes) := es.filterMap signal?

/-- What is handed over for an error or for a verdict on the buffer. -/
def answer? : HyperError ⊕ Attempt Bytes Unit → Option (Except Status M)
  | .inl e => some (.error (.fromHyperError e))
  | .inr v => result? v

/-- The messages and errors that some replies hand over. -/
def results (replies : List (Reply M)) : List (Except Status M) :=
  replies.filterMap Reply.result?

/-- The polls of the stream that a call makes after the end of the data: one at most. -/
def Call.endPolls (c : Call) (s : Streaming M H) : Nat :=
  if c = .pollNext ∧ sawEnd s.body.pollData.1 then 1 else 0

/-- The polls of the stream after the end of the data; each of them is one more attempt. -/
def endPolls : List Call → Streaming M H → Nat
  | [], _ => 0
  | c :: cs, s => c.endPolls s + endPolls cs (call c s).2

/-- The input leads from one state to the other and to these results. -/
structure Replayed (s : Streaming M H) (input : List (HyperError ⊕ Bytes))
    (rs : List (Except Status M)) (s' : Streaming M H) : Prop where
  results : rs = (framing.relay s.buf input).1.filterMap answer?
  buf : s'.buf = (framing.relay s.buf input).2

@[simp] theorem signals_nil : signals [] = [] := rfl
@[simp] theorem signals_pending (es : List BodyEvent) :
    signals (.pending :: es) = signals es := rfl
@[simp] theorem signals_data (b : Bytes) (es : List BodyEvent) :
    signals (.data b :: es) = .inr b :: signals es := rfl
@[simp] theorem signals_error (e : HyperError) (es : List BodyEvent) :
    signals (.error e :: es) = .inl e :: signals es := rfl
@[simp] theorem signals_append (es es' : List BodyEvent) :
    signals (es ++ es') = signals es ++ signals es' := List.filterMap_append

/-- The chunks among the signals are those of the poll results. -/
theorem chunks_signals (es : List BodyEvent) :
    (signals es).filterMap Sum.getRight? = chunks es := by
  induction es with
  | nil => rfl
  | cons e es ih => cases e <;> simp [List.filterMap_cons, ih]

/-- The chunks that a run is replayed by. -/
theorem chunks_input (seen : List BodyEvent) (n : Nat) :
    List.filterMap Sum.getRight? (signals seen ++ List.replicate n (.inr [])) =
      chunks seen ++ List.replicate n [] := by
  rw [List.filterMap_append, chunks_signals, List.filterMap_replicate]
  rfl

theorem Replayed.refl (s : Streaming M H) : Replayed s [] [] s := ⟨rfl, rfl⟩

theorem Replayed.trans {s t u : Streaming M H} {is js : List (HyperError ⊕ Bytes)}
    {rs qs : List (Except Status M)} (h : Replayed s is rs t) (g : Replayed t js qs u) :
    Replayed s (is ++ js) (rs ++ qs) u := by
  constructor
  · rw [Incremental.relay_append, List.filterMap_append, ← h.results, ← h.buf, ← g.results]
  · rw [Incremental.relay_append, g.buf, h.buf]

/-- One chunk is one attempt. -/
theorem Replayed.attempt (s : Streaming M H) (b : Bytes) (body : Body H) :
    Replayed s [.inr b] (result? (attemptFrame (s.buf ++ b))).toList
      ⟨body, (attemptFrame (s.buf ++ b)).advance (s.buf ++ b)⟩ := by
  constructor
  · cases h : result? (M := M) (attemptFrame (s.buf ++ b)) <;>
      simp [Incremental.relay, answer?, h]
  · rfl

/-! ## One call -/

theorem recvLoop_replayed (awaited : Bool) (ending : BodyEnd)
    (trailers : List BodyEvent → Poll (Except HyperError (Option H))) (es : List BodyEvent)
    (buf : Bytes) :
    let r := recvLoop M awaited ending es buf
    ∃ seen, es = seen ++ r.2.1 ∧
      Replayed (H := H) ⟨⟨es, ending, trailers⟩, buf⟩ (signals seen)
        (Reply.recv r.1).result?.toList ⟨⟨r.2.1, ending, trailers⟩, r.2.2⟩ := by
  induction es generalizing buf with
  | nil => cases ending <;> exact ⟨[], rfl, rfl, rfl⟩
  | cons e es ih =>
    cases e with
    | pending =>
      cases awaited with
      | false => exact ⟨[.pending], rfl, rfl, rfl⟩
      | true =>
        obtain ⟨seen, hes, hresults, hbuf⟩ := ih buf
        exact ⟨.pending :: seen, congrArg _ hes, hresults, hbuf⟩
    | error err => exact ⟨[.error err], rfl, rfl, rfl⟩
    | data b =>
      have hone := Replayed.attempt (M := M) (H := H) ⟨⟨.data b :: es, ending, trailers⟩, buf⟩ b
        ⟨es, ending, trailers⟩
      dsimp only at hone
      cases ha : attemptFrame (buf ++ b) with
      | more =>
        rw [ha] at hone
        obtain ⟨seen, hes, hrest⟩ := ih (buf ++ b)
        rw [recvLoop_more ha]
        exact ⟨.data b :: seen, congrArg _ hes, hone.trans hrest⟩
      | halt u =>
        rw [ha] at hone
        rw [recvLoop_halt ha]
        exact ⟨[.data b], rfl, hone⟩
      | item payload n =>
        rw [ha] at hone
        rw [recvLoop_item ha]
        refine ⟨[.data b], rfl, ?_⟩
        rw [result?_item] at hone
        cases hp : ProstDecoder.ofPayload M payload <;> rw [hp] at hone <;> exact hone

omit [Message M] in
theorem result?_next_ofVerdict [Message M] (v : Attempt Bytes Unit) :
    (Reply.next (ofVerdict (M := M) v)).result? = result? v := by cases v <;> rfl

theorem pollNext_replayed (s : Streaming M H) :
    ∃ seen, s.body = { s.pollNext.2.body with events := seen ++ s.pollNext.2.body.events } ∧
      (sawEnd s.body.pollData.1 = true → s.pollNext.2.body.events = []) ∧
      Replayed s
        (signals seen ++ if sawEnd s.body.pollData.1 then [.inr []] else [])
        (Reply.next s.pollNext.1).result?.toList s.pollNext.2 := by
  obtain ⟨⟨events, ending, trailers⟩, buf⟩ := s
  cases events with
  | nil =>
    cases ending with
    | stalled => exact ⟨[], rfl, nofun, rfl, rfl⟩
    | eof =>
      have hpoll : pollNext (M := M) (H := H) ⟨⟨[], .eof, trailers⟩, buf⟩ = _ :=
        decode_eq_ofVerdict ⟨[], .eof, trailers⟩ buf
      have hone := Replayed.attempt (M := M) (H := H) ⟨⟨[], .eof, trailers⟩, buf⟩ []
        ⟨[], .eof, trailers⟩
      rw [hpoll]
      refine ⟨[], rfl, fun _ => rfl, ?_⟩
      dsimp only at hone ⊢
      rw [List.append_nil] at hone
      rw [result?_next_ofVerdict]
      exact hone
  | cons e es =>
    cases e with
    | pending => exact ⟨[.pending], rfl, nofun, rfl, rfl⟩
    | error err => exact ⟨[.error err], rfl, nofun, rfl, rfl⟩
    | data b =>
      have hpoll : pollNext (M := M) (H := H) ⟨⟨.data b :: es, ending, trailers⟩, buf⟩ = _ :=
        decode_eq_ofVerdict ⟨es, ending, trailers⟩ (buf ++ b)
      have hone := Replayed.attempt (M := M) (H := H) ⟨⟨.data b :: es, ending, trailers⟩, buf⟩ b
        ⟨es, ending, trailers⟩
      rw [hpoll]
      refine ⟨[.data b], rfl, nofun, ?_⟩
      dsimp only at hone ⊢
      rw [result?_next_ofVerdict]
      exact hone

/-- What a call takes from the body leads to what it hands over. -/
theorem call_replayed (c : Call) (s : Streaming M H) :
    ∃ seen, s.body = { (call c s).2.body with events := seen ++ (call c s).2.body.events } ∧
      (0 < c.endPolls s → (call c s).2.body.events = []) ∧
      Replayed s (signals seen ++ List.replicate (c.endPolls s) (.inr []))
        (call c s).1.result?.toList (call c s).2 := by
  have hrecv (awaited : Bool) : ∃ seen,
      s.body = { (s.recv awaited).2.body with events := seen ++ (s.recv awaited).2.body.events } ∧
      Replayed s (signals seen) (Reply.recv (s.recv awaited).1).result?.toList
        (s.recv awaited).2 := by
    obtain ⟨seen, hes, h⟩ :=
      recvLoop_replayed (M := M) awaited s.body.ending s.body.trailers s.body.events s.buf
    refine ⟨seen, ?_, h⟩
    rw [recv]
    dsimp only
    rw [← hes]
  cases c with
  | recvMessage =>
    obtain ⟨seen, hbody, h⟩ := hrecv true
    have hnone : Call.recvMessage.endPolls s = 0 := by simp [Call.endPolls]
    refine ⟨seen, hbody, fun hpos => absurd hpos (by simp [hnone]), ?_⟩
    rw [hnone, List.replicate_zero, List.append_nil]
    exact h
  | pollRecvMessage =>
    obtain ⟨seen, hbody, h⟩ := hrecv false
    have hnone : Call.pollRecvMessage.endPolls s = 0 := by simp [Call.endPolls]
    refine ⟨seen, hbody, fun hpos => absurd hpos (by simp [hnone]), ?_⟩
    rw [hnone, List.replicate_zero, List.append_nil]
    exact h
  | pollNext =>
    obtain ⟨seen, hbody, hend, h⟩ := s.pollNext_replayed
    have hpolls : Call.pollNext.endPolls s = if sawEnd s.body.pollData.1 then 1 else 0 := by
      simp [Call.endPolls]
    refine ⟨seen, hbody, fun hpos => hend ?_, ?_⟩
    · by_contra hsaw
      simp [hpolls, hsaw] at hpos
    · rw [hpolls]
      cases hsaw : sawEnd s.body.pollData.1 <;> rw [hsaw] at h <;> exact h

/-! ## Runs -/

/-- A run is replayed by what it has taken from the body: the chunks and the errors of the poll
results that it has used up, and an empty chunk for each poll after the end of the data. -/
theorem run_replayed (cs : List Call) (s : Streaming M H) :
    ∃ seen, s.body = { (run cs s).2.body with events := seen ++ (run cs s).2.body.events } ∧
      (0 < endPolls cs s → (run cs s).2.body.events = []) ∧
      Replayed s (signals seen ++ List.replicate (endPolls cs s) (.inr []))
        (results (run cs s).1) (run cs s).2 := by
  induction cs generalizing s with
  | nil => exact ⟨[], rfl, nofun, .refl s⟩
  | cons c cs ih =>
    obtain ⟨seen, hbody, hend, hone⟩ := call_replayed c s
    obtain ⟨seen', hbody', hend', hrest⟩ := ih (call c s).2
    have hresults : results (run (c :: cs) s).1 =
        (call c s).1.result?.toList ++ results (run cs (call c s).2).1 := by
      cases h : (call c s).1.result? <;> simp [results, run, h]
    have hsplit : (call c s).2.body.events = seen' ++ (run cs (call c s).2).2.body.events :=
      congrArg Body.events hbody'
    refine ⟨seen ++ seen', ?_, ?_, ?_⟩
    · have hlast : (run (c :: cs) s).2 = (run cs (call c s).2).2 := rfl
      rw [hlast, List.append_assoc, ← hsplit, hbody, hbody']
    · intro hpos
      rcases Nat.eq_zero_or_pos (endPolls cs (call c s).2) with hzero | hlater
      · rw [endPolls, hzero] at hpos
        have hnow := hend hpos
        rw [hsplit, List.append_eq_nil_iff] at hnow
        exact hnow.2
      · exact hend' hlater
    · rw [hresults]
      have hinput : signals (seen ++ seen') ++ List.replicate (endPolls (c :: cs) s) (.inr []) =
          (signals seen ++ List.replicate (c.endPolls s) (.inr [])) ++
            (signals seen' ++ List.replicate (endPolls cs (call c s).2) (.inr [])) := by
        rcases Nat.eq_zero_or_pos (c.endPolls s) with hzero | hpos
        · simp [endPolls, hzero]
        · -- nothing is left to be taken after the end of the data
          have hnow := hend hpos
          rw [hsplit, List.append_eq_nil_iff] at hnow
          rw [hnow.1, List.append_nil, signals_nil, List.nil_append, endPolls,
            List.replicate_add, List.append_assoc]
      rw [hinput]
      exact hone.trans hrest

omit [Message M] in
/-- Two states that stem from one body, with the same unread results and the same buffer. -/
theorem eq_of_unread {s t : Streaming M H} {body : Body H} {seen seen' : List BodyEvent}
    (hs : body = { s.body with events := seen ++ s.body.events })
    (ht : body = { t.body with events := seen' ++ t.body.events })
    (hunread : s.body.events = t.body.events) (hbuf : s.buf = t.buf) : s = t := by
  obtain ⟨⟨events, ending, trailers⟩, buf⟩ := s
  obtain ⟨⟨events', ending', trailers'⟩, buf'⟩ := t
  obtain rfl : events = events' := hunread
  obtain rfl : buf = buf' := hbuf
  have hsame := hs.symm.trans ht
  simp only [Body.mk.injEq] at hsame
  rw [hsame.2.1, hsame.2.2]

/-- Runs that leave the same results of the body unread, and have asked on equally often after
its end, have handed over the same and are in the same state, whatever their calls were. -/
theorem run_confluent (body : Body H) (cs cs' : List Call)
    (hunread : (run cs (new (M := M) body)).2.body.events =
      (run cs' (new (M := M) body)).2.body.events)
    (hends : endPolls cs (new (M := M) body) = endPolls cs' (new (M := M) body)) :
    results (run cs (new (M := M) body)).1 = results (run cs' (new (M := M) body)).1 ∧
      (run cs (new (M := M) body)).2 = (run cs' (new (M := M) body)).2 := by
  obtain ⟨seen, hbody, -, h⟩ := run_replayed cs (new (M := M) body)
  obtain ⟨seen', hbody', -, h'⟩ := run_replayed cs' (new (M := M) body)
  have hsame := congrArg Body.events (hbody.symm.trans hbody')
  dsimp only at hsame
  rw [hunread, List.append_left_inj] at hsame
  rw [hsame, hends] at h
  exact ⟨h.results.trans h'.results.symm,
    eq_of_unread hbody hbody' hunread (h.buf.trans h'.buf.symm)⟩

/-- One reader awaits `recv_message` and the other polls the stream. -/
theorem run_confluent_bools :
    let body : Body HeaderList :=
      ⟨[.data [0, 0, 0, 0, 0, 0], .pending, .data [0, 0, 0, 0]], .stalled, fun _ => .pending⟩
    results (run [.recvMessage, .pollRecvMessage, .recvMessage] (new (M := Bool) body)).1 =
        results (run [.pollNext, .pollNext, .pollNext] (new (M := Bool) body)).1 ∧
      (run [.recvMessage, .pollRecvMessage, .recvMessage] (new (M := Bool) body)).2 =
        (run [.pollNext, .pollNext, .pollNext] (new (M := Bool) body)).2 :=
  run_confluent _ _ _ rfl rfl

/-! ## Dropped futures -/

/-- What the calls of `recv_message` that were ready have returned, `Ok(None)` as well. -/
def received (replies : List (Reply M)) : List (Except Status (Option M)) :=
  replies.filterMap fun
    | .recv (.ready r) => some r
    | _ => none

/-- A call that never completes has used up the body, and so does the next. -/
theorem recvMessage_of_pending {s s' : Streaming M H} (h : s.recvMessage = (.pending, s')) :
    s'.recvMessage = s.recvMessage := by
  have hloop (ending : BodyEnd) (es : List BodyEvent) (buf : Bytes)
      (hp : (recvLoop M true ending es buf).1 = .pending) :
      recvLoop M true ending (recvLoop M true ending es buf).2.1
        (recvLoop M true ending es buf).2.2 = recvLoop M true ending es buf := by
    induction es generalizing buf with
    | nil => cases ending <;> rfl
    | cons e es ih =>
      cases e with
      | pending => exact ih buf hp
      | error err => cases hp
      | data b =>
        cases ha : attemptFrame (buf ++ b) with
        | more =>
          rw [recvLoop_more ha] at hp ⊢
          exact ih _ hp
        | halt u =>
          rw [recvLoop_halt ha] at hp
          cases hp
        | item payload n =>
          rw [recvLoop_item ha] at hp
          cases hp
  have hfst : (recvLoop M true s.body.ending s.body.events s.buf).1 = .pending :=
    congrArg Prod.fst h
  obtain rfl : s.recvMessage.2 = s' := congrArg Prod.snd h
  simp only [recvMessage, recv, hloop _ _ _ hfst]

/-- States in which the next awaited call is the same have the same awaited calls ahead. -/
theorem run_recvMessage_congr {s t : Streaming M H} (h : s.recvMessage = t.recvMessage) (k : Nat) :
    (run (List.replicate k .recvMessage) s).1 = (run (List.replicate k .recvMessage) t).1 ∧
      (run (List.replicate k .recvMessage) s).2.recvMessage =
        (run (List.replicate k .recvMessage) t).2.recvMessage := by
  cases k with
  | zero => exact ⟨rfl, h⟩
  | succ k =>
    have hcall : call .recvMessage s = call .recvMessage t := by simp only [call, h]
    simp only [List.replicate_succ, run, hcall, and_self]

/-- A call of `recv_message` that is ready is an awaited one, and one that waits leads to the same
awaited calls. -/
theorem call_recv_cases {c : Call} (s : Streaming M H) (hc : c ≠ .pollNext) :
    (∃ r s', call c s = (.recv (.ready r), s') ∧ s.recvMessage = (.ready r, s')) ∨
      ∃ s', call c s = (.recv .pending, s') ∧ s'.recvMessage = s.recvMessage := by
  cases c with
  | pollNext => exact absurd rfl hc
  | recvMessage =>
    cases hread : s.recvMessage with
    | mk read s' =>
      cases read with
      | ready r => exact .inl ⟨r, s', by simp [call, hread], rfl⟩
      | pending =>
        refine .inr ⟨s', by simp [call, hread], ?_⟩
        rw [← hread]
        exact recvMessage_of_pending hread
  | pollRecvMessage =>
    have hpoll := s.recvMessage_of_poll
    cases hread : s.pollRecvMessage with
    | mk read s' =>
      rw [hread] at hpoll
      cases read with
      | ready r => exact .inl ⟨r, s', by simp [call, hread], hpoll⟩
      | pending => exact .inr ⟨s', by simp [call, hread], hpoll.symm⟩

/-- Futures of `recv_message` that are dropped while they wait make no difference: the calls that
were ready have returned what as many awaited calls return, and the next one goes on there. -/
theorem run_dropped (cs : List Call) (s : Streaming M H) (h : .pollNext ∉ cs) :
    received (run cs s).1 =
        received (run (List.replicate (received (run cs s).1).length .recvMessage) s).1 ∧
      (run cs s).2.recvMessage =
        (run (List.replicate (received (run cs s).1).length .recvMessage) s).2.recvMessage := by
  induction cs generalizing s with
  | nil => exact ⟨rfl, rfl⟩
  | cons c cs ih =>
    rw [List.mem_cons, not_or] at h
    rcases call_recv_cases s (Ne.symm h.1) with ⟨r, s', hcall, hread⟩ | ⟨s', hcall, hread⟩
    · have hawaited : call .recvMessage s = (.recv (.ready r), s') := by simp only [call, hread]
      obtain ⟨hreceived, hnext⟩ := ih s' h.2
      have hone : received (run (c :: cs) s).1 = r :: received (run cs s').1 := by
        simp [received, run, hcall]
      rw [hone, List.length_cons, List.replicate_succ]
      have hcs : (run (c :: cs) s).2 = (run cs s').2 := by simp [run, hcall]
      rw [hcs]
      simp only [run, hawaited]
      exact ⟨congrArg (r :: ·) hreceived, hnext⟩
    · obtain ⟨hreceived, hnext⟩ := ih s' h.2
      have hnone : received (run (c :: cs) s).1 = received (run cs s').1 := by
        simp [received, run, hcall]
      have hcs : (run (c :: cs) s).2 = (run cs s').2 := by simp [run, hcall]
      obtain ⟨hsame, hsame'⟩ := run_recvMessage_congr hread (received (run cs s').1).length
      rw [hnone, hcs, ← hsame, ← hsame']
      exact ⟨hreceived, hnext⟩

/-- A future is dropped within a frame, and another one after it. -/
theorem run_dropped_bools :
    let s : Streaming Bool HeaderList := new
      ⟨[.data [0, 0], .pending, .data [0, 0, 0], .pending], .eof, fun _ => .ready (.ok none)⟩
    let cs : List Call := [.pollRecvMessage, .pollRecvMessage, .pollRecvMessage]
    received (run cs s).1 =
        received (run (List.replicate (received (run cs s).1).length .recvMessage) s).1 ∧
      (run cs s).2.recvMessage =
        (run (List.replicate (received (run cs s).1).length .recvMessage) s).2.recvMessage :=
  run_dropped _ _ (by decide)

end Streaming

end LieGrpc
