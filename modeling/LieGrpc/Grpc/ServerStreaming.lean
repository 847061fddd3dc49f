import LieGrpc.Grpc.Delivery
import LieGrpc.Grpc.Response

/-!
# Streaming calls

What a caller gets to see of a streaming call, from the response to the trailers. A failure
that the server reports in the headers of a response without a body is not among it:
`new_streaming` does not look at `grpc-status`, and the metadata leave out its name.
-/

namespace LieGrpc

namespace Response

variable {M H : Type} [Message M] [HeaderMap H]

/-- What the caller of a streaming method has seen when it is through. -/
structure View (M H : Type) where
  metadata : MetadataMap
  messages : List (Except Status M)
  trailers : Poll (Except Status (Option H))

variable (M) in
/-- Take the response, call `recv_message` until it returns `Ok(None)`, at most `fuel` times,
and await `recv_trailers`. -/
def observe (fuel : Nat) (resp : HttpResponse H) : Option (Except Status (View M H)) :=
  match newStreaming M resp with
  | .error status => some (.error status)
  | .ok response =>
    (Streaming.recvUntilNone fuel response.message).map fun r =>
      .ok ⟨response.metadata, r.1, r.2.recvTrailers⟩

variable (M) in
def Observed (resp : HttpResponse H) (view : Except Status (View M H)) : Prop :=
  ∃ fuel, observe M fuel resp = some view

/-- The view holds an error or a `grpc-status`. -/
def ShowsStatus : Except Status (View M H) → Prop
  | .error _ => True
  | .ok view =>
    (∃ status, .error status ∈ view.messages) ∨ view.metadata.get grpcStatus ≠ none ∨
      (∃ status, view.trailers = .ready (.error status)) ∨
      ∃ trailer, view.trailers = .ready (.ok (some trailer)) ∧
        HeaderMap.get trailer grpcStatus ≠ none

variable (M) in
/-- A caller sees the status somewhere. -/
def StatusSeen (resp : HttpResponse H) : Prop := ∃ view, Observed M resp view ∧ ShowsStatus view

/-- A response with the HTTP status 200 and the status `c` in its headers, without data and
without trailers. -/
structure TrailersOnly (resp : HttpResponse H) (c : Code) : Prop where
  status : resp.status = .ok
  noError : ∀ e ∈ resp.body.events, e.isError = false
  ended : resp.body.ending = .eof
  noData : dataBytes resp.body.events = []
  noTrailers : resp.body.trailers [] = .ready (.ok none)
  carried : ∃ v, HeaderMap.get resp.headers grpcStatus = some v ∧ Code.fromBytes v = .ok c

/-- The server reports a failure, and nothing else. -/
def FailedTrailersOnly (resp : HttpResponse H) : Prop := ∃ c, c ≠ .ok ∧ TrailersOnly resp c

theorem Observed.unique {resp : HttpResponse H} {view view' : Except Status (View M H)}
    (h : Observed M resp view) (h' : Observed M resp view') : view = view' := by
  obtain ⟨fuel, h⟩ := h
  obtain ⟨fuel', h'⟩ := h'
  unfold observe at h h'
  cases hnew : newStreaming M resp with
  | error status =>
    rw [hnew] at h h'
    exact Option.some.inj (h.symm.trans h')
  | ok response =>
    rw [hnew] at h h'
    obtain ⟨r, hr, rfl⟩ := Option.map_eq_some_iff.mp h
    obtain ⟨r', hr', rfl⟩ := Option.map_eq_some_iff.mp h'
    rw [Streaming.recvUntilNone_unique hr hr']

/-- Of such a response there is nothing to see but the metadata. -/
theorem observed_trailersOnly {resp : HttpResponse H} {c : Code} (h : TrailersOnly resp c) :
    Observed M resp
      (.ok ⟨MetadataMap.new.mergeHttpHeader resp.headers, [], .ready (.ok none)⟩) := by
  obtain ⟨status, headers, ⟨events, ending, trailers⟩⟩ := resp
  obtain rfl : ending = .eof := h.ended
  have hnone :
      (framing.paced [] (chunks events)).1.filterMap (Streaming.result? (M := M)) = [] := by
    have hflat : (chunks events).flatten = frames [] ++ [] := h.noData
    have hpre := Incremental.deliveries_prefix (P := framing) [] (chunks events)
    rw [List.nil_append, hflat, items_frames (by simp) attemptFrame_nil, List.prefix_nil] at hpre
    rw [Streaming.filterMap_result?
      (Streaming.paced_frames_not_halt (by simp) attemptFrame_nil hflat)]
    exact congrArg (List.map _) hpre
  have hread := @Streaming.recvUntilNone_eq M H _ events h.noError trailers [] _
    (Nat.lt_succ_self _)
  rw [hnone] at hread
  have htrailers : trailers [] = .ready (.ok none) := h.noTrailers
  refine ⟨(chunks events).length + 1, ?_⟩
  rw [observe, newStreaming_of_ok h.status]
  dsimp only [Streaming.new]
  rw [hread]
  simp [Streaming.recvTrailers, htrailers]

/-- The name of the status is reserved, so the metadata are the same whatever its value. -/
theorem mergeHttpHeader_eq_of_same {h h' : H}
    (hsame : ∀ name, name ≠ grpcStatus → HeaderMap.getAll h name = HeaderMap.getAll h' name) :
    MetadataMap.new.mergeHttpHeader h = MetadataMap.new.mergeHttpHeader h' := by
  apply MetadataMap.ext_get
  intro name
  rw [MetadataMap.get_mergeHttpHeader, MetadataMap.get_mergeHttpHeader]
  by_cases hname : name = grpcStatus
  · have hreserved : MetadataMap.isValidName name = false := by rw [hname]; decide
    simp [MetadataMap.acceptedValues, hreserved]
  · rw [hsame name hname]

theorem not_statusSeen {resp : HttpResponse H} {c : Code} (h : TrailersOnly resp c) :
    ¬ StatusSeen M resp := by
  rintro ⟨view, hview, hshows⟩
  obtain rfl := hview.unique (observed_trailersOnly h)
  have hmeta : (MetadataMap.new.mergeHttpHeader resp.headers).get grpcStatus = none := by
    have hreserved : MetadataMap.isValidName grpcStatus = false := by decide
    simp [MetadataMap.get_mergeHttpHeader, MetadataMap.acceptedValues, hreserved,
      MetadataMap.appended]
  simp [ShowsStatus, hmeta] at hshows

/-- A failure without data and trailers is seen nowhere: what the caller sees is what it
sees of every success with the same other headers. -/
theorem failure_unseen (resp : HttpResponse H) (h : FailedTrailersOnly resp) :
    ¬ StatusSeen M resp ∧ ∃ view, Observed M resp view ∧
      ∀ twin : HttpResponse H, TrailersOnly twin .ok →
        (∀ name, name ≠ grpcStatus →
          HeaderMap.getAll resp.headers name = HeaderMap.getAll twin.headers name) →
        Observed M twin view := by
  obtain ⟨c, -, hresp⟩ := h
  refine ⟨not_statusSeen hresp, _, observed_trailersOnly hresp, fun twin htwin hsame => ?_⟩
  rw [mergeHttpHeader_eq_of_same hsame]
  exact observed_trailersOnly htwin

/-- Status 5 in the headers. -/
theorem failure_unseen_bool :
    let resp : HttpResponse HeaderList :=
      ⟨.ok, ⟨[("grpc-status", [0x35])]⟩, ⟨[], .eof, fun _ => .ready (.ok none)⟩⟩
    ¬ StatusSeen Bool resp ∧ ∃ view, Observed Bool resp view ∧
      ∀ twin : HttpResponse HeaderList, TrailersOnly twin .ok →
        (∀ name, name ≠ grpcStatus →
          HeaderMap.getAll resp.headers name = HeaderMap.getAll twin.headers name) →
        Observed Bool twin view :=
  failure_unseen _ ⟨.notFound, by decide, rfl, by simp, rfl, rfl, rfl, [0x35], rfl, rfl⟩

theorem not_statusSeen_status5 :
    ¬ ∀ resp : HttpResponse HeaderList, FailedTrailersOnly resp → StatusSeen Bool resp := by
  intro h
  have hfailed : TrailersOnly (H := HeaderList)
      ⟨.ok, ⟨[("grpc-status", [0x35])]⟩, ⟨[], .eof, fun _ => .ready (.ok none)⟩⟩ .notFound :=
    ⟨rfl, by simp, rfl, rfl, rfl, [0x35], rfl, rfl⟩
  exact not_statusSeen hfailed (h _ ⟨.notFound, by decide, hfailed⟩)

end Response

end LieGrpc
