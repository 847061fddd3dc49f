import LieGrpc.Grpc.Response

/-!
# The first frame of a body

A call that awaits a message stops behind the chunk that completes the first frame, so this is
where a unary call looks for its trailers. What it returns is stated here in terms of the poll
results of the body and of what its trailers give at that point.
-/

namespace LieGrpc

namespace Streaming

variable {M H : Type} [Message M]

/-- Chunks that leave the buffer undecided only extend it. -/
theorem recvLoop_undecided (ending : BodyEnd) (seen es : List BodyEvent) {buf : Bytes}
    (herr : ∀ e ∈ seen, e.isError = false)
    (h : attemptFrame (buf ++ dataBytes seen) = .more) :
    recvLoop M true ending (seen ++ es) buf =
      recvLoop M true ending es (buf ++ dataBytes seen) := by
  induction seen generalizing buf with
  | nil => simp
  | cons e seen ih =>
    have hseen : ∀ e ∈ seen, e.isError = false := fun e he => herr e (List.mem_cons_of_mem _ he)
    cases e with
    | pending => exact ih hseen h
    | error err => cases herr _ List.mem_cons_self
    | data b =>
      rw [dataBytes_data, ← List.append_assoc] at h ⊢
      have hmore : attemptFrame (buf ++ b) = .more := framing.more_of_append h
      rw [List.cons_append, recvLoop_more hmore, ih hseen h]

/-- The poll results of a body, cut after the chunk that completes its first frame: `extra`
follows the frame in this chunk, and `unread` follows the chunk. -/
def FirstFrame (body : Body H) (payload extra : Bytes) (unread : List BodyEvent) : Prop :=
  ∃ seen b, body.events = seen ++ .data b :: unread ∧ (∀ e ∈ seen, e.isError = false) ∧
    Undecided (dataBytes seen) ∧ payload.length < 2 ^ 32 ∧
    dataBytes seen ++ b = frame payload ++ extra

/-- The data of a body are the first frame, the rest of its chunk, and what is not read. -/
theorem FirstFrame.data {body : Body H} {payload extra : Bytes} {unread : List BodyEvent}
    (h : FirstFrame body payload extra unread) :
    dataBytes body.events = frame payload ++ (extra ++ dataBytes unread) := by
  obtain ⟨seen, b, hevents, -, -, -, hb⟩ := h
  rw [hevents, dataBytes_append, dataBytes_data, ← List.append_assoc, hb, List.append_assoc]

/-- What is unread is the end of the poll results. -/
theorem FirstFrame.exists_read {body : Body H} {payload extra : Bytes} {unread : List BodyEvent}
    (h : FirstFrame body payload extra unread) : ∃ read, body.events = read ++ unread := by
  obtain ⟨seen, b, hevents, -⟩ := h
  exact ⟨seen ++ [.data b], by rw [hevents, List.append_assoc, List.singleton_append]⟩

/-- The bytes before an error are the frame, the rest of its chunk, and what follows. -/
theorem FirstFrame.exists_rest {body : Body H} {payload extra : Bytes} {unread : List BodyEvent}
    (h : FirstFrame body payload extra unread) :
    ∃ rest, bytesBeforeError body.events = frame payload ++ rest := by
  obtain ⟨seen, b, hevents, herr, -, -, hb⟩ := h
  refine ⟨extra ++ bytesBeforeError unread, ?_⟩
  rw [hevents, bytesBeforeError_append herr, bytesBeforeError_data, ← List.append_assoc, hb,
    List.append_assoc]

/-- The first awaited call stops behind the first frame. -/
theorem FirstFrame.recvMessage {body : Body H} {payload extra : Bytes} {unread : List BodyEvent}
    (h : FirstFrame body payload extra unread) :
    (new (M := M) body).recvMessage =
      (.ready ((ProstDecoder.ofPayload M payload).map some),
        ⟨{ body with events := unread }, extra⟩) := by
  obtain ⟨seen, b, hevents, herr, hseen, hlen, hb⟩ := h
  have hmore : attemptFrame ([] ++ dataBytes seen) = .more := attemptFrame_eq_more_iff.mpr hseen
  have hitem : attemptFrame ([] ++ dataBytes seen ++ b) = .item payload (frame payload).length := by
    rw [List.nil_append, hb]
    exact attemptFrame_frame hlen extra
  rw [Streaming.recvMessage, recv, new, hevents]
  dsimp only
  rw [recvLoop_undecided body.ending seen _ herr hmore, recvLoop_item hitem, List.nil_append, hb,
    List.drop_left]

theorem exists_cut {es : List BodyEvent} {payload : Bytes} {n : Nat} {buf : Bytes}
    (hbuf : attemptFrame buf = .more)
    (h : attemptFrame (buf ++ bytesBeforeError es) = .item payload n) :
    ∃ seen b unread, es = seen ++ .data b :: unread ∧ (∀ e ∈ seen, e.isError = false) ∧
      attemptFrame (buf ++ dataBytes seen) = .more ∧
      attemptFrame (buf ++ dataBytes seen ++ b) = .item payload n := by
  induction es generalizing buf with
  | nil => simp [hbuf] at h
  | cons e es ih =>
    cases e with
    | error err => simp [hbuf] at h
    | pending =>
      obtain ⟨seen, b, unread, rfl, herr, hmore, hitem⟩ := ih hbuf h
      exact ⟨.pending :: seen, b, unread, rfl, by simpa [BodyEvent.isError] using herr, hmore,
        hitem⟩
    | data c =>
      rw [bytesBeforeError_data, ← List.append_assoc] at h
      rcases framing.eq_of_append (b := buf ++ c) (c := bytesBeforeError es) with hm | heq
      · obtain ⟨seen, b, unread, rfl, herr, hmore, hitem⟩ := ih hm h
        refine ⟨.data c :: seen, b, unread, rfl, by simpa [BodyEvent.isError] using herr, ?_, ?_⟩
        · simpa using hmore
        · simpa using hitem
      · exact ⟨[], c, es, rfl, by simp, by simpa using hbuf, by simpa using heq.trans h⟩

/-- Where the bytes before an error start with a frame, it is completed by some chunk. -/
theorem exists_firstFrame_of_attempt {body : Body H} {payload : Bytes} {n : Nat}
    (h : attemptFrame (bytesBeforeError body.events) = .item payload n) :
    ∃ extra unread, FirstFrame body payload extra unread := by
  obtain ⟨seen, b, unread, hevents, herr, hmore, hb⟩ := exists_cut attemptFrame_nil h
  obtain ⟨hlen, -, extra, hextra⟩ := attemptFrame_eq_item_iff.mp hb
  exact ⟨extra, unread, seen, b, hevents, herr, attemptFrame_eq_more_iff.mp hmore, hlen,
    hextra.symm⟩

theorem exists_firstFrame_of_frame {body : Body H} {payload rest : Bytes}
    (hlen : payload.length < 2 ^ 32) (h : bytesBeforeError body.events = frame payload ++ rest) :
    ∃ extra unread, FirstFrame body payload extra unread := by
  refine exists_firstFrame_of_attempt (n := (frame payload).length) ?_
  rw [h, attemptFrame_frame hlen rest]

/-- A call that returns a message has stopped behind the first frame. -/
theorem exists_firstFrame {body : Body H} {m : M}
    (h : (new body).recvMessage.1 = .ready (.ok (some m))) :
    ∃ payload extra unread, FirstFrame body payload extra unread ∧
      Message.decode payload = .ok m := by
  obtain ⟨payload, rest, hlen, hbytes, hdec⟩ := recvMessage_new_eq_some_iff.mp h
  obtain ⟨extra, unread, hfirst⟩ := exists_firstFrame_of_frame hlen hbytes
  exact ⟨payload, extra, unread, hfirst, hdec⟩

/-- A body has one first frame. -/
theorem FirstFrame.unique {body : Body H} {payload payload' extra extra' : Bytes}
    {unread unread' : List BodyEvent} (h : FirstFrame body payload extra unread)
    (h' : FirstFrame body payload' extra' unread') : payload = payload' ∧ unread = unread' := by
  obtain ⟨rest, hbytes⟩ := h.exists_rest
  obtain ⟨rest', hbytes'⟩ := h'.exists_rest
  obtain ⟨-, -, -, -, -, hlen, -⟩ := id h
  obtain ⟨-, -, -, -, -, hlen', -⟩ := id h'
  have hitem := attemptFrame_frame hlen rest
  rw [← hbytes, hbytes', attemptFrame_frame hlen' rest'] at hitem
  obtain ⟨rfl, -⟩ := Attempt.item.inj hitem
  -- a call stops at one place, whatever the type of its message is
  have hstop := (h.recvMessage (M := Bytes)).symm.trans h'.recvMessage
  exact ⟨rfl, congrArg (fun r => r.2.body.events) hstop⟩

/-- Awaiting the trailers gives these once the first frame is read, and no more. -/
def TrailersBehind (body : Body H) (trailer : Option H) : Prop :=
  ∃ payload extra unread, FirstFrame body payload extra unread ∧
    body.trailers unread = .ready (.ok trailer)

end Streaming

namespace Response

variable {M H : Type} [Message M] [HeaderMap H]

open Streaming (FirstFrame)

/-- Once the first message is read, a unary call hangs on the trailers at that point. -/
theorem newUnary_of_firstFrame {resp : HttpResponse H} (hstatus : resp.status = .ok)
    {payload extra : Bytes} {unread : List BodyEvent}
    (h : FirstFrame resp.body payload extra unread) {m : M}
    (hdec : Message.decode payload = .ok m) :
    newUnary M resp =
      match resp.body.trailers unread with
      | .pending => .pending
      | .ready (.error e) => .ready (.error (.fromHyperError e))
      | .ready (.ok trailer) => .ready (conclude m (extendHeaders resp.headers trailer)) := by
  rw [newUnary_of_ok hstatus, h.recvMessage, ProstDecoder.ofPayload, hdec]
  simp only [Except.map, Streaming.recvTrailers]
  rcases resp.body.trailers unread with (e | trailer) | _ <;> rfl

/-- What a successful call has found, in terms of the poll results of the body. -/
theorem newUnary_ok_iff_firstFrame [LawfulHeaderMap H] {resp : HttpResponse H} {m : M} :
    (∃ r, newUnary M resp = .ready (.ok r) ∧ r.message = m) ↔
      resp.status = .ok ∧ ∃ payload extra unread trailer,
        FirstFrame resp.body payload extra unread ∧ Message.decode payload = .ok m ∧
        resp.body.trailers unread = .ready (.ok trailer) ∧
        (HeaderMap.afterTrailers resp.headers trailer grpcStatus).head? = some [0x30] := by
  constructor
  · rintro ⟨r, hr, rfl⟩
    obtain ⟨hstatus, m, _, hread, -, -⟩ := newUnary_eq_ok.mp hr
    obtain ⟨payload, extra, unread, hfirst, hdec⟩ := Streaming.exists_firstFrame hread
    rw [newUnary_of_firstFrame hstatus hfirst hdec] at hr
    rcases htrailers : resp.body.trailers unread with (e | trailer) | _
    all_goals simp only [htrailers, reduceCtorEq, Poll.ready.injEq] at hr
    obtain ⟨hok, rfl⟩ := conclude_eq_ok.mp hr
    rw [get_extendHeaders] at hok
    exact ⟨hstatus, payload, extra, unread, trailer, hfirst, hdec, htrailers, hok⟩
  · rintro ⟨hstatus, payload, extra, unread, trailer, hfirst, hdec, htrailers, hok⟩
    rw [← get_extendHeaders] at hok
    rw [newUnary_of_firstFrame hstatus hfirst hdec, htrailers]
    exact ⟨_, congrArg Poll.ready (conclude_eq_ok.mpr ⟨hok, rfl⟩), rfl⟩

end Response

end LieGrpc
