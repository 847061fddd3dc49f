import LieGrpc.Grpc.Delivery

/-!
# Where the data end

What the readers have made of a body once its data have ended, for any bytes and any
chunks. `poll_next` asked often enough has handed over every message there is. `recv_message`
has handed over those that it got to before the last chunk, and what it leaves in its
buffer then, a whole message or a part of one, it does not mention.
-/

namespace LieGrpc

namespace Streaming

variable {M H : Type} [Message M]

/-! ## The messages of a log -/

/-- The messages among some results. -/
def messages (log : List (Except Status M)) : List M := log.filterMap Except.toOption

variable (M) in
/-- The messages that some payloads decode to, without those that do not decode. -/
def decodable (payloads : List Bytes) : List M :=
  payloads.filterMap fun payload => (Message.decode (M := M) payload).toOption

omit [Message M] in
@[simp] theorem messages_append (log log' : List (Except Status M)) :
    messages (log ++ log') = messages log ++ messages log' := List.filterMap_append

/-- Refused flags and payloads that do not decode leave the other messages alone. -/
theorem messages_results (vs : List (Attempt Bytes Unit)) :
    messages (vs.filterMap (result? (M := M))) = decodable M (vs.filterMap Attempt.item?) := by
  induction vs with
  | nil => rfl
  | cons v vs ih =>
    unfold messages decodable at ih ⊢
    cases v with
    | more => simpa [List.filterMap_cons] using ih
    | halt u => simpa [List.filterMap_cons, Except.toOption] using ih
    | item payload n =>
      cases hp : Message.decode (M := M) payload <;>
        simpa [List.filterMap_cons, ProstDecoder.ofPayload, hp, Except.toOption] using ih

/-- The first payloads give all the messages exactly if every payload that decodes is one
of them. -/
theorem decodable_take_eq_iff {payloads : List Bytes} {k : Nat} :
    decodable M (payloads.take k) = decodable M payloads ↔
      ∀ i payload m, payloads[i]? = some payload → Message.decode (M := M) payload = .ok m →
        i < k := by
  have hsplit : decodable M payloads =
      decodable M (payloads.take k) ++ decodable M (payloads.drop k) := by
    unfold decodable
    rw [← List.filterMap_append, List.take_append_drop]
  rw [hsplit, List.self_eq_append_right, decodable, List.filterMap_eq_nil_iff]
  constructor
  · intro h i payload m hi hdec
    by_contra hk
    have hmem : payload ∈ payloads.drop k := by
      rw [List.mem_iff_getElem?]
      exact ⟨i - k, by rw [List.getElem?_drop, ← hi]; congr; omega⟩
    simpa [hdec, Except.toOption] using h payload hmem
  · intro h payload hmem
    obtain ⟨j, hj⟩ := List.mem_iff_getElem?.mp hmem
    rw [List.getElem?_drop] at hj
    cases hdec : Message.decode (M := M) payload with
    | error e => rfl
    | ok m =>
      have := h (k + j) payload m hj hdec
      omega

/-! ## The two readers -/

/-- `recv_message`, called until it returns `Ok(None)`, has returned these messages. -/
def MessagesRead (body : Body H) (ms : List M) : Prop :=
  ∃ fuel log s, recvUntilNone fuel (new body) = some (log, s) ∧ messages log = ms

/-- The data have ended, and no message comes from polling on. -/
structure Exhausted (s : Streaming M H) : Prop where
  ended : s.body.pollData.1 = .ready none
  final : ∀ n, messages (returned (polls n s).1) = []

/-- `poll_next`, called until the stream is exhausted, has returned these messages. -/
def MessagesPolled (body : Body H) (ms : List M) : Prop :=
  ∃ n, Exhausted (polls n (new (M := M) body)).2 ∧
    messages (returned (polls n (new body)).1) = ms

theorem messagesRead_iff {body : Body H} (herr : ∀ e ∈ body.events, e.isError = false)
    (heof : body.ending = .eof) {ms : List M} :
    MessagesRead body ms ↔ ms = decodable M (framing.deliveries [] (chunks body.events)) := by
  obtain ⟨events, ending, trailers⟩ := body
  obtain rfl : ending = .eof := heof
  have hread := recvUntilNone_eq (M := M) herr trailers [] (Nat.lt_succ_self _)
  have hlog : messages ((framing.paced [] (chunks events)).1.filterMap (result? (M := M))) =
      decodable M (framing.deliveries [] (chunks events)) := messages_results _
  constructor
  · rintro ⟨fuel, log, s, h, rfl⟩
    obtain ⟨rfl, -⟩ := Prod.mk.inj (recvUntilNone_unique h hread)
    exact hlog
  · rintro rfl
    exact ⟨_, _, _, hread, hlog⟩

theorem polls_add (n k : Nat) (s : Streaming M H) :
    polls (n + k) s =
      ((polls n s).1 ++ (polls k (polls n s).2).1, (polls k (polls n s).2).2) := by
  induction n generalizing s with
  | zero => simp [polls]
  | succ n ih => simp [Nat.succ_add, polls, ih]

/-- Each poll takes one result from the body. -/
theorem polls_body (n : Nat) (s : Streaming M H) :
    (polls n s).2.body = { s.body with events := s.body.events.drop n } := by
  induction n generalizing s with
  | zero => rfl
  | succ n ih =>
    rw [polls, ih, pollNext_body]
    obtain ⟨⟨events, ending, trailers⟩, buf⟩ := s
    cases events <;> cases ending <;> simp [Body.pollData]

/-- Every poll after the end of the data sees the end. -/
theorem ends_polls_of_ended (n : Nat) {s : Streaming M H} (h : s.body.pollData.1 = .ready none) :
    ends (polls n s).1 = n := by
  induction n generalizing s with
  | zero => rfl
  | succ n ih =>
    have hnext : s.pollNext.2.body.pollData.1 = .ready none := by
      rw [pollNext_body]
      rcases s.body.pollData_cases with ⟨e, -, he⟩ | ⟨-, hsame, -⟩
      · rw [he] at h
        cases e <;> cases h
      · rwa [hsame]
    have hhead : sawEnd s.body.pollData.1 = true := by rw [h]; rfl
    have hrec := ih hnext
    rw [ends] at hrec ⊢
    rw [polls, List.countP_cons, hrec, if_pos hhead]

theorem events_eq_nil_of_ended {body : Body H} (h : body.pollData.1 = .ready none) :
    body.events = [] := by
  rcases body.pollData_cases with ⟨e, -, he⟩ | ⟨hnil, -, -⟩
  · rw [he] at h
    cases e <;> cases h
  · exact hnil

/-- After the end of the data and one more poll for each frame, all messages are out. -/
theorem messages_polls {body : Body H} (herr : ∀ e ∈ body.events, e.isError = false) {n k : Nat}
    (hended : (polls n (new (M := M) body)).2.body.pollData.1 = .ready none)
    (hk : (framing.items (dataBytes body.events)).length ≤ k) :
    messages (returned (polls (n + k) (new (M := M) body)).1) =
      decodable M (framing.items (dataBytes body.events)) := by
  have hnil : body.events.drop n = [] := by
    have := events_eq_nil_of_ended hended
    rwa [polls_body] at this
  have hall : chunks (polls (n + k) (new (M := M) body)).2.body.events = [] := by
    rw [polls_body]
    simp [new, ← List.drop_drop, hnil]
  have hends : k ≤ ends (polls (n + k) (new (M := M) body)).1 := by
    have := ends_polls_of_ended k hended
    simp only [ends] at this
    simp [polls_add, ends, List.countP_append, this]
  rw [returned_polls _ (new body) herr, messages_results]
  exact congrArg _ (deliveries_polls hall (hk.trans hends))

theorem messagesPolled_iff {body : Body H} (herr : ∀ e ∈ body.events, e.isError = false)
    (heof : body.ending = .eof) {ms : List M} :
    MessagesPolled body ms ↔ ms = decodable M (framing.items (dataBytes body.events)) := by
  have hended (j : Nat) :
      (polls (body.events.length + j) (new (M := M) body)).2.body.pollData.1 = .ready none := by
    have hnil : body.events.drop (body.events.length + j) = [] := by simp
    rw [polls_body]
    simp [new, Body.pollData, heof, hnil]
  have hsplit (n k : Nat) : messages (returned (polls (n + k) (new (M := M) body)).1) =
      messages (returned (polls n (new body)).1) ++
        messages (returned (polls k (polls n (new body)).2).1) := by
    rw [polls_add, ← messages_append]
    exact congrArg _ (List.filterMap_append)
  constructor
  · rintro ⟨n, hn, rfl⟩
    have hall := messages_polls herr hn.ended (Nat.le_refl _)
    rwa [hsplit, hn.final, List.append_nil] at hall
  · rintro rfl
    have hk := messages_polls herr (hended 0) (Nat.le_refl _)
    refine ⟨_, ⟨hended _, fun j => ?_⟩, hk⟩
    -- the messages were all out before, and no poll takes one back
    have hj := messages_polls herr (hended 0) (Nat.le_add_right _ j)
    rw [← Nat.add_assoc, hsplit] at hj
    exact List.append_right_eq_self.mp (hj.trans hk.symm)

/-- The readers agree exactly if `recv_message` gets to every frame that decodes: wherever
the chunks are cut in two, the frames complete by then and the chunks still to come make up
for the frames up to this one. -/
theorem readers_agree_iff (body : Body H) (herr : ∀ e ∈ body.events, e.isError = false)
    (heof : body.ending = .eof) :
    (∃ ms : List M, MessagesRead body ms ∧ MessagesPolled body ms) ↔
      ∀ i payload m, (framing.items (dataBytes body.events))[i]? = some payload →
        Message.decode (M := M) payload = .ok m →
        ∀ pre post, chunks body.events = pre ++ post →
          i < (framing.items pre.flatten).length + post.length := by
  simp only [messagesRead_iff herr heof, messagesPolled_iff herr heof, exists_eq_left]
  rw [Incremental.deliveries_eq_take]
  refine decodable_take_eq_iff.trans ?_
  simp only [← Nat.succ_le_iff, Incremental.le_length_deliveries_iff]
  exact Iff.rfl

/-- An error in the middle: the second payload does not decode, a flag is refused last. -/
theorem readers_agree_iff_bool :
    let body : Body HeaderList :=
      ⟨[.data [0, 0, 0, 0, 0, 0, 0], .pending, .data [0, 0, 1, 7], .data [1, 0, 0, 0, 0]], .eof,
        fun _ => .ready (.ok none)⟩
    (∃ ms : List Bool, MessagesRead body ms ∧ MessagesPolled body ms) ↔
      ∀ i payload m, (framing.items (dataBytes body.events))[i]? = some payload →
        Message.decode (M := Bool) payload = .ok m →
        ∀ pre post, chunks body.events = pre ++ post →
          i < (framing.items pre.flatten).length + post.length :=
  readers_agree_iff _ (by simp [BodyEvent.isError]) rfl

/-- Two frames in one chunk: `recv_message` returns one message, `poll_next` two. -/
theorem not_readers_agree_twoFrames :
    ¬ ∀ body : Body HeaderList, (∀ e ∈ body.events, e.isError = false) → body.ending = .eof →
      ∃ ms : List Bool, MessagesRead body ms ∧ MessagesPolled body ms := by
  intro h
  obtain ⟨ms, ⟨fuel, log, s, hlog, rfl⟩, hpolled⟩ :=
    h ⟨[.data [0, 0, 0, 0, 0, 0, 0, 0, 0, 0]], .eof, fun _ => .ready (.ok none)⟩
      (by simp [BodyEvent.isError]) rfl
  have hone : ∃ t, recvUntilNone 2 (new (M := Bool) (H := HeaderList)
      ⟨[.data [0, 0, 0, 0, 0, 0, 0, 0, 0, 0]], .eof, fun _ => .ready (.ok none)⟩) =
      some ([.ok false], t) := ⟨_, rfl⟩
  obtain ⟨t, ht⟩ := hone
  obtain ⟨rfl, -⟩ := Prod.mk.inj (recvUntilNone_unique hlog ht)
  have hfit : ∀ p ∈ ([[], []] : List Bytes), p.length < 2 ^ 32 := by simp
  have hitems : framing.items [0, 0, 0, 0, 0, 0, 0, 0, 0, 0] = [[], []] := items_encoded hfit
  have htwo := (messagesPolled_iff (by simp [BodyEvent.isError]) rfl).mp hpolled
  simp only [dataBytes, chunks_data, chunks_nil, List.flatten_cons, List.flatten_nil,
    List.append_nil, hitems] at htwo
  cases htwo

/-! ## Truncated streams -/

/-- Call `recv_message` as long as it returns messages, at most `fuel` times: the answer that
is none, an error or the end, and the state it leaves. -/
def afterMessages : Nat → Streaming M H → Option (Except Status Unit × Streaming M H)
  | 0, _ => none
  | fuel + 1, s =>
    match s.recvMessage with
    | (.pending, _) => none
    | (.ready (.ok none), s) => some (.ok (), s)
    | (.ready (.ok (some _)), s) => afterMessages fuel s
    | (.ready (.error e), s) => some (.error e, s)

/-- The caller that stops at the first error sees the log of the one that goes on, up to
that error. -/
theorem afterMessages_of_log {fuel : Nat} {s t : Streaming M H} {log : List (Except Status M)}
    (h : recvUntilNone fuel s = some (log, t)) :
    (∃ e u, .error e ∈ log ∧ afterMessages fuel s = some (.error e, u)) ∨
      (∀ e, .error e ∉ log) ∧ afterMessages fuel s = some (.ok (), t) := by
  induction fuel generalizing s log with
  | zero => cases h
  | succ fuel ih =>
    rw [recvUntilNone] at h
    rw [afterMessages]
    generalize s.recvMessage = read at h ⊢
    rcases read with ⟨(e | _ | m) | _, s'⟩
    · obtain ⟨r, -, hr⟩ := Option.map_eq_some_iff.mp h
      obtain ⟨rfl, -⟩ := Prod.mk.inj hr
      exact .inl ⟨e, s', List.mem_cons_self, rfl⟩
    · cases h
      exact .inr ⟨by simp, rfl⟩
    · obtain ⟨r, hrest, hr⟩ := Option.map_eq_some_iff.mp h
      obtain ⟨rfl, rfl⟩ := Prod.mk.inj hr
      rcases ih hrest with ⟨e, u, he, hu⟩ | ⟨hnone, hu⟩
      · exact .inl ⟨e, u, List.mem_cons_of_mem _ he, hu⟩
      · exact .inr ⟨by simpa using hnone, hu⟩
    · cases h

theorem afterMessages_mono {fuel : Nat} {s : Streaming M H}
    {r : Except Status Unit × Streaming M H} (h : afterMessages fuel s = some r) (k : Nat) :
    afterMessages (fuel + k) s = some r := by
  induction fuel generalizing s with
  | zero => cases h
  | succ fuel ih =>
    rw [Nat.succ_add, afterMessages]
    rw [afterMessages] at h
    generalize s.recvMessage = read at h ⊢
    rcases read with ⟨(e | _ | m) | _, s'⟩
    case ready.ok.some => exact ih h
    all_goals exact h

theorem afterMessages_unique {fuel fuel' : Nat} {s : Streaming M H}
    {r r' : Except Status Unit × Streaming M H} (h : afterMessages fuel s = some r)
    (h' : afterMessages fuel' s = some r') : r = r' :=
  unique_of_mono (f := fun fuel => afterMessages fuel s) (fun _ _ => afterMessages_mono) h h'

/-- A body whose data are complete frames and the beginning of a further one. -/
structure Truncated (payloads : List Bytes) (tail : Bytes) (body : Body H) : Prop where
  noError : ∀ e ∈ body.events, e.isError = false
  ended : body.ending = .eof
  fits : ∀ p ∈ payloads, p.length < 2 ^ 32
  nonempty : tail ≠ []
  cut : ∃ further, further.length < 2 ^ 32 ∧ tail <+: frame further ∧ tail ≠ frame further
  data : dataBytes body.events = frames payloads ++ tail

variable (M) in
/-- The calls come to an error, and not to a clean end that leaves bytes in the buffer. -/
structure TruncationReported (body : Body H) : Prop where
  failed : ∃ fuel e s, afterMessages fuel (new (M := M) body) = some (.error e, s)
  clean : ∀ fuel s, afterMessages fuel (new (M := M) body) = some (.ok (), s) → s.buf = []

theorem Truncated.undecided {payloads : List Bytes} {tail : Bytes} {body : Body H}
    (h : Truncated payloads tail body) : attemptFrame tail = .more := by
  obtain ⟨further, hfit, hpre, hne⟩ := h.cut
  exact attemptFrame_of_cut hfit hpre hne

theorem Truncated.items {payloads : List Bytes} {tail : Bytes} {body : Body H}
    (h : Truncated payloads tail body) :
    framing.items (chunks body.events).flatten = payloads := by
  have hdata : (chunks body.events).flatten = frames payloads ++ tail := h.data
  rw [hdata, items_frames h.fits h.undecided]

/-- The reader is left with at least the part of the further frame. -/
theorem Truncated.left {payloads : List Bytes} {tail : Bytes} {body : Body H}
    (h : Truncated payloads tail body) : (framing.paced [] (chunks body.events)).2 ≠ [] := by
  intro hnil
  have hdata : (chunks body.events).flatten = frames payloads ++ tail := h.data
  have hrest := (Incremental.paced_consumes (P := framing) [] (chunks body.events)).rest
  rw [List.nil_append, hdata, rest_frames h.fits h.undecided, hnil,
    Incremental.rest_of_stop rfl] at hrest
  exact h.nonempty hrest

/-- No flag is refused, so the log holds what the delivered payloads decode to. -/
theorem Truncated.log {payloads : List Bytes} {tail : Bytes} {body : Body H}
    (h : Truncated payloads tail body) :
    (framing.paced [] (chunks body.events)).1.filterMap (result? (M := M)) =
      (framing.deliveries [] (chunks body.events)).map (ProstDecoder.ofPayload M) := by
  apply filterMap_result?
  exact paced_frames_not_halt h.fits h.undecided h.data

/-- Among the delivered payloads is one that does not decode. -/
theorem Truncated.error_mem_iff {payloads : List Bytes} {tail : Bytes} {body : Body H}
    (h : Truncated payloads tail body) :
    (∃ e, .error e ∈ (framing.paced [] (chunks body.events)).1.filterMap (result? (M := M))) ↔
      ∃ i payload, payloads[i]? = some payload ∧
        (∀ m : M, Message.decode payload ≠ .ok m) ∧
        ∀ pre post, chunks body.events = pre ++ post →
          i < framesWithin (payloads.map frame) pre.flatten.length + post.length := by
  have hpace (i : Nat) : i < (framing.deliveries [] (chunks body.events)).length ↔
      ∀ pre post, chunks body.events = pre ++ post →
        i < framesWithin (payloads.map frame) pre.flatten.length + post.length := by
    rw [← Nat.succ_le_iff, Incremental.le_length_deliveries_iff]
    refine forall₂_congr fun pre post => imp_congr_right fun hs => ?_
    have hpre : pre.flatten <+: frames payloads ++ tail :=
      ⟨post.flatten, by rw [← h.data, dataBytes, hs, List.flatten_append]⟩
    rw [length_items_of_beginning h.fits h.undecided hpre, Nat.succ_le_iff]
  have hget (i : Nat) (payload : Bytes) :
      (framing.deliveries [] (chunks body.events))[i]? = some payload ↔
        i < (framing.deliveries [] (chunks body.events)).length ∧ payloads[i]? = some payload := by
    rw [Incremental.deliveries_eq_take, h.items, List.getElem?_take]
    grind
  simp only [h.log, List.mem_map, ← hpace]
  constructor
  · rintro ⟨e, payload, hmem, hdec⟩
    obtain ⟨i, hi⟩ := List.mem_iff_getElem?.mp hmem
    obtain ⟨hlt, hp⟩ := (hget i payload).mp hi
    refine ⟨i, payload, hp, fun m hm => ?_, hlt⟩
    simp [ProstDecoder.ofPayload, hm] at hdec
  · rintro ⟨i, payload, hp, hbad, hlt⟩
    have hmem := List.mem_iff_getElem?.mpr ⟨i, (hget i payload).mpr ⟨hlt, hp⟩⟩
    cases hdec : Message.decode (M := M) payload with
    | ok m => exact absurd hdec (hbad m)
    | error e => exact ⟨_, payload, hmem, by simp [ProstDecoder.ofPayload, hdec]; rfl⟩

/-- A truncated stream is reported only through another defect: a payload that does not
decode, in a frame that the reader gets to before the last chunk. -/
theorem truncationReported_iff (payloads : List Bytes) (tail : Bytes) (body : Body H)
    (h : Truncated payloads tail body) :
    TruncationReported M body ↔
      ∃ i payload, payloads[i]? = some payload ∧ (∀ m : M, Message.decode payload ≠ .ok m) ∧
        ∀ pre post, chunks body.events = pre ++ post →
          i < framesWithin (payloads.map frame) pre.flatten.length + post.length := by
  have hlog := h.error_mem_iff (M := M)
  obtain ⟨events, ending, trailers⟩ := body
  obtain rfl : ending = .eof := h.ended
  have hread := recvUntilNone_eq (M := M) h.noError trailers [] (Nat.lt_succ_self _)
  rw [← hlog]
  rcases afterMessages_of_log hread with ⟨e, s, he, hs⟩ | ⟨hnone, hs⟩
  · refine iff_of_true ⟨⟨_, e, s, hs⟩, fun fuel t ht => ?_⟩ ⟨e, he⟩
    cases (Prod.mk.inj (afterMessages_unique ht hs)).1
  · refine iff_of_false (fun hreported => ?_) (fun ⟨e, he⟩ => hnone e he)
    exact h.left (hreported.clean _ _ hs)

/-- A payload that does not decode, then a header cut after three bytes. -/
theorem truncationReported_iff_bool :
    TruncationReported Bool (H := HeaderList)
        ⟨[.data [0, 0, 0, 0, 1, 7, 0], .data [0, 0]], .eof, fun _ => .ready (.ok none)⟩ ↔
      ∃ i payload, [([7] : Bytes)][i]? = some payload ∧
        (∀ m : Bool, Message.decode payload ≠ .ok m) ∧
        ∀ pre post, [([0, 0, 0, 0, 1, 7, 0] : Bytes), [0, 0]] = pre ++ post →
          i < framesWithin ([([7] : Bytes)].map frame) pre.flatten.length + post.length :=
  truncationReported_iff [[7]] [0, 0, 0] _
    ⟨by simp [BodyEvent.isError], rfl, by simp, by simp,
      ⟨[], by simp, ⟨[0, 0], rfl⟩, by decide⟩, rfl⟩

/-- A body that ends within the header of its first frame: a clean end is reported. -/
theorem not_truncationReported_header :
    ¬ ∀ (payloads : List Bytes) (tail : Bytes) (body : Body HeaderList),
      Truncated payloads tail body → TruncationReported Bool body := by
  intro h
  have hreported := h [] [0] ⟨[.data [0]], .eof, fun _ => .ready (.ok none)⟩
    ⟨by simp [BodyEvent.isError], rfl, by simp, by simp,
      ⟨[], by simp, ⟨[0, 0, 0, 0], rfl⟩, by decide⟩, rfl⟩
  have hclean : ∃ s : Streaming Bool HeaderList, s.buf = [0] ∧
      afterMessages 1 (new ⟨[.data [0]], .eof, fun _ => .ready (.ok none)⟩) =
        some (.ok (), s) := ⟨_, rfl, rfl⟩
  obtain ⟨s, hbuf, hs⟩ := hclean
  rw [hreported.clean 1 s hs] at hbuf
  cases hbuf

end Streaming

end LieGrpc
