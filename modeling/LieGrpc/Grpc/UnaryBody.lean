import LieGrpc.Grpc.Unary

/-!
# The body of a unary call

Where `new_unary` stops reading: after the chunk that completes the first frame. What it has
not read then, and what is left of that chunk, it drops without a look. So surplus bytes go
unnoticed, and trailers that wait for the rest of the data are waited for in vain.
-/

namespace LieGrpc

namespace Streaming

variable {H : Type}

/-- The bytes of the body are one frame. -/
def OneFrame (body : Body H) : Prop :=
  ∃ payload, payload.length < 2 ^ 32 ∧ dataBytes body.events = frame payload

theorem oneFrame_iff {body : Body H} {payload extra : Bytes} {unread : List BodyEvent}
    (h : FirstFrame body payload extra unread) :
    OneFrame body ↔ extra = [] ∧ dataBytes unread = [] := by
  have hdata := h.data
  obtain ⟨-, -, -, -, -, hlen, -⟩ := h
  rw [← List.append_eq_nil_iff]
  constructor
  · rintro ⟨payload', hlen', heq⟩
    exact frame_eq_append hlen hlen' (heq.symm.trans hdata)
  · intro hnil
    exact ⟨payload, hlen, by rw [hdata, hnil, List.append_nil]⟩

end Streaming

namespace Response

variable {M H : Type} [Message M] [HeaderMap H]

open Streaming (FirstFrame)

/-! ## Surplus bytes -/

variable (M) in
/-- The chunk that completes the first frame ends with it and all later chunks are empty,
unless the call fails for its HTTP status, its payload, its trailers or its status. -/
def NothingBehind (resp : HttpResponse H) : Prop :=
  ∀ payload extra unread, FirstFrame resp.body payload extra unread →
    resp.status = .ok → (∃ m : M, Message.decode payload = .ok m) →
    (∃ trailer, resp.body.trailers unread = .ready (.ok trailer) ∧
      (HeaderMap.afterTrailers resp.headers trailer grpcStatus).head? = some [0x30]) →
    extra = [] ∧ dataBytes unread = []

/-- A call that succeeds has read a body of one frame exactly if nothing is behind it. -/
theorem oneFrame_of_ok_iff [LawfulHeaderMap H] (resp : HttpResponse H) :
    (∀ r, newUnary M resp = .ready (.ok r) → Streaming.OneFrame resp.body) ↔
      NothingBehind M resp := by
  constructor
  · rintro h payload extra unread hfirst hstatus ⟨m, hdec⟩ ⟨trailer, htrailers, hok⟩
    obtain ⟨r, hr, -⟩ := newUnary_ok_iff_firstFrame.mpr
      ⟨hstatus, payload, extra, unread, trailer, hfirst, hdec, htrailers, hok⟩
    exact (Streaming.oneFrame_iff hfirst).mp (h r hr)
  · intro h r hr
    obtain ⟨hstatus, payload, extra, unread, trailer, hfirst, hdec, htrailers, hok⟩ :=
      newUnary_ok_iff_firstFrame.mp ⟨r, hr, rfl⟩
    exact (Streaming.oneFrame_iff hfirst).mpr
      (h payload extra unread hfirst hstatus ⟨_, hdec⟩ ⟨trailer, htrailers, hok⟩)

theorem oneFrame_of_ok_iff_bool :
    let resp : HttpResponse HeaderList :=
      ⟨.ok, ⟨[("grpc-status", [0x30])]⟩, ⟨[.data [0, 0, 0, 0, 0], .data [], .data [7]], .eof,
        fun _ => .ready (.ok none)⟩⟩
    (∀ r, newUnary Bool resp = .ready (.ok r) → Streaming.OneFrame resp.body) ↔
      NothingBehind Bool resp :=
  oneFrame_of_ok_iff _

/-- One byte behind the frame in its chunk: the call succeeds all the same. -/
theorem not_oneFrame_of_ok_surplusByte :
    ¬ ∀ (resp : HttpResponse HeaderList) (r : Response Bool),
      newUnary Bool resp = .ready (.ok r) → Streaming.OneFrame resp.body := by
  intro h
  have hok : ∃ r, newUnary Bool (H := HeaderList)
      ⟨.ok, ⟨[("grpc-status", [0x30])]⟩, ⟨[.data [0, 0, 0, 0, 0, 7]], .eof,
        fun _ => .ready (.ok none)⟩⟩ = .ready (.ok r) := ⟨_, rfl⟩
  obtain ⟨r, hr⟩ := hok
  obtain ⟨payload, hlen, hdata⟩ := h _ r hr
  have hshort : ([] : Bytes).length < 2 ^ 32 := by simp
  have hnil := frame_eq_append (c := [7]) hshort hlen hdata.symm
  cases hnil

/-! ## Where the chunks are cut -/

/-- A body whose data are one frame and whose trailers come once, and not before, every chunk
is read. -/
structure UnaryBody (payload : Bytes) (trailer : Option H) (body : Body H) : Prop where
  noError : ∀ e ∈ body.events, e.isError = false
  data : dataBytes body.events = frame payload
  waits : ∀ seen unread, body.events = seen ++ unread → chunks unread ≠ [] →
    body.trailers unread = .pending
  completes : ∀ seen unread, body.events = seen ++ unread → chunks unread = [] →
    body.trailers unread = .ready (.ok trailer)

omit [HeaderMap H] in
/-- The frame is completed by the last chunk that is not empty. -/
theorem UnaryBody.firstFrame {payload : Bytes} {trailer : Option H} {body : Body H}
    (h : UnaryBody payload trailer body) (hlen : payload.length < 2 ^ 32) :
    ∃ unread, FirstFrame body payload [] unread ∧
      (chunks unread = [] ↔ (chunks body.events).getLast? ≠ some []) := by
  have hbytes : bytesBeforeError body.events = frame payload ++ [] := by
    rw [bytesBeforeError_of_noError h.noError, h.data, List.append_nil]
  obtain ⟨extra, unread, hfirst⟩ := Streaming.exists_firstFrame_of_frame hlen hbytes
  obtain ⟨rfl, hunread⟩ := (Streaming.oneFrame_iff hfirst).mp ⟨payload, hlen, h.data⟩
  refine ⟨unread, hfirst, ?_⟩
  obtain ⟨seen, b, hevents, -, hseen, -, hb⟩ := hfirst
  have hchunks : chunks body.events = chunks seen ++ b :: chunks unread := by
    rw [hevents, chunks_append, chunks_data]
  rw [hchunks]
  rcases List.eq_nil_or_concat (chunks unread) with hnil | ⟨cs, c, hcs⟩
  · have hne : b ≠ [] := by
      rintro rfl
      have hmore := attemptFrame_eq_more_iff.mpr hseen
      rw [List.append_nil] at hb
      rw [hb, attemptFrame_frame hlen] at hmore
      cases hmore
    simp [hnil, hne]
  · -- what is unread holds no byte, so its last chunk is empty
    have hc : c = [] := by
      rw [dataBytes, hcs, List.flatten_eq_nil_iff] at hunread
      exact hunread c (by simp)
    have hlast : chunks seen ++ b :: chunks unread = (chunks seen ++ b :: cs) ++ [[]] := by
      simp [hcs, hc]
    rw [hlast, List.getLast?_concat]
    simp [hcs]

omit [HeaderMap H] in
/-- Where the trailers wait for all chunks, the status of a failed call is looked at exactly if the
last chunk is not empty. -/
theorem UnaryBody.statusReached_iff {payload : Bytes} {trailer : Option H} {body : Body H}
    (h : UnaryBody payload trailer body) (hlen : payload.length < 2 ^ 32) {m : M}
    (hdec : Message.decode payload = .ok m) (c : Code) (message : String) :
    StatusReached M body c message (some payload) ↔ (chunks body.events).getLast? ≠ some [] := by
  obtain ⟨unread, hfirst, hlast⟩ := h.firstFrame hlen
  obtain ⟨read, hsplit⟩ := hfirst.exists_read
  rw [← hlast]
  constructor
  · rintro (⟨-, t, payload', extra', unread', hfirst', hready⟩ | ⟨⟨e, he⟩, -⟩)
    · obtain ⟨-, rfl⟩ := hfirst.unique hfirst'
      by_contra hunread
      rw [h.waits _ _ hsplit hunread] at hready
      cases hready
    · rw [hdec] at he
      cases he
  · intro hunread
    exact .inl ⟨⟨m, hdec⟩, trailer, payload, [], unread, hfirst, h.completes _ _ hsplit hunread⟩

/-- A body of one message gives it exactly if its last chunk is not empty. -/
theorem UnaryBody.newUnary [LawfulHeaderMap H] {payload : Bytes} {trailer : Option H}
    {body : Body H} (h : UnaryBody payload trailer body) (hlen : payload.length < 2 ^ 32) {m : M}
    (hdec : Message.decode payload = .ok m) {headers : H}
    (hok : (HeaderMap.afterTrailers headers trailer grpcStatus).head? = some [0x30]) :
    newUnary M ⟨.ok, headers, body⟩ =
      if (chunks body.events).getLast? = some [] then .pending
      else .ready (.ok ⟨m, MetadataMap.new.mergeHttpHeader (extendHeaders headers trailer)⟩) := by
  obtain ⟨unread, hfirst, hlast⟩ := h.firstFrame hlen
  obtain ⟨read, hsplit⟩ := hfirst.exists_read
  rw [newUnary_of_firstFrame rfl hfirst hdec]
  dsimp only
  by_cases hempty : (chunks body.events).getLast? = some []
  · rw [if_pos hempty, h.waits _ _ hsplit fun hnil => hlast.mp hnil hempty]
  · rw [← get_extendHeaders] at hok
    rw [if_neg hempty, h.completes _ _ hsplit (hlast.mpr hempty)]
    exact congrArg Poll.ready (conclude_eq_ok.mpr ⟨hok, rfl⟩)

/-- Two ways to cut the same frame give the same successful result exactly if neither has an
empty chunk at its end. -/
theorem newUnary_cut_iff [LawfulHeaderMap H] (payload : Bytes) (m : M) (headers : H)
    (trailer : Option H) (body body' : Body H) (hlen : payload.length < 2 ^ 32)
    (hdec : Message.decode payload = .ok m)
    (hok : (HeaderMap.afterTrailers headers trailer grpcStatus).head? = some [0x30])
    (h : UnaryBody payload trailer body) (h' : UnaryBody payload trailer body') :
    (∃ r, newUnary M ⟨.ok, headers, body⟩ = .ready (.ok r) ∧
        newUnary M ⟨.ok, headers, body'⟩ = .ready (.ok r)) ↔
      (chunks body.events).getLast? ≠ some [] ∧ (chunks body'.events).getLast? ≠ some [] := by
  rw [h.newUnary hlen hdec hok, h'.newUnary hlen hdec hok]
  by_cases hempty : (chunks body.events).getLast? = some []
  · simp [hempty]
  · by_cases hempty' : (chunks body'.events).getLast? = some []
    · simp [hempty']
    · simp [hempty, hempty']

omit [HeaderMap H] in
theorem UnaryBody.of_trailersLast {events : List BodyEvent} {ending : BodyEnd} {payload : Bytes}
    {trailer : Option H} (herr : ∀ e ∈ events, e.isError = false)
    (hdata : dataBytes events = frame payload) :
    UnaryBody payload trailer ⟨events, ending, trailersLast trailer⟩ where
  noError := herr
  data := hdata
  waits _ _ _ h := trailersLast_of_unread h
  completes _ _ _ h := trailersLast_of_read h

/-- A frame in one chunk, and in two with empty ones around. -/
theorem newUnary_cut_iff_bool :
    (∃ r, newUnary Bool ⟨.ok, ⟨[]⟩, ⟨[.data [0, 0, 0, 0, 0]], .eof,
          trailersLast (some (⟨[("grpc-status", [0x30])]⟩ : HeaderList))⟩⟩ = .ready (.ok r) ∧
        newUnary Bool ⟨.ok, ⟨[]⟩, ⟨[.data [], .data [0, 0], .pending, .data [], .data [0, 0, 0]],
          .eof, trailersLast (some (⟨[("grpc-status", [0x30])]⟩ : HeaderList))⟩⟩ =
            .ready (.ok r)) ↔
      [([0, 0, 0, 0, 0] : Bytes)].getLast? ≠ some [] ∧
        [([] : Bytes), [0, 0], [], [0, 0, 0]].getLast? ≠ some [] :=
  newUnary_cut_iff (H := HeaderList) [] false ⟨[]⟩ (some ⟨[("grpc-status", [0x30])]⟩) ⟨_, _, _⟩
    ⟨_, _, _⟩ (by simp) rfl rfl
    (.of_trailersLast (by simp [BodyEvent.isError]) rfl)
    (.of_trailersLast (by simp [BodyEvent.isError]) rfl)

/-- An empty chunk after the frame: the call waits for its trailers for good. -/
theorem not_newUnary_cut_emptyChunk :
    ¬ ∀ (payload : Bytes) (m : Bool) (headers : HeaderList) (trailer : Option HeaderList)
      (body body' : Body HeaderList), payload.length < 2 ^ 32 →
      Message.decode payload = .ok m →
      (HeaderMap.afterTrailers headers trailer grpcStatus).head? = some [0x30] →
      UnaryBody payload trailer body → UnaryBody payload trailer body' →
      ∃ r, newUnary Bool ⟨.ok, headers, body⟩ = .ready (.ok r) ∧
        newUnary Bool ⟨.ok, headers, body'⟩ = .ready (.ok r) := by
  intro h
  obtain ⟨r, -, hr⟩ := h [] false ⟨[("grpc-status", [0x30])]⟩ none
    ⟨[.data [0, 0, 0, 0, 0]], .eof, trailersLast none⟩
    ⟨[.data [0, 0, 0, 0, 0], .data []], .eof, trailersLast none⟩ (by simp) rfl rfl
    (.of_trailersLast (by simp [BodyEvent.isError]) rfl)
    (.of_trailersLast (by simp [BodyEvent.isError]) rfl)
  have hwait : newUnary Bool (H := HeaderList) ⟨.ok, ⟨[("grpc-status", [0x30])]⟩,
      ⟨[.data [0, 0, 0, 0, 0], .data []], .eof, trailersLast none⟩⟩ = .pending := rfl
  rw [hwait] at hr
  cases hr

end Response

end LieGrpc
