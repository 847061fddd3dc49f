import LieGrpc.Grpc.Streaming

/-!
# Delivery of whole streams

Both readers make one attempt on the buffer after each chunk, so on a body without errors
they are paced readers of its chunks. `recv_message` stops at the end of the data and loses
the messages that it is behind by then. `poll_next` goes on decoding there and catches up.
-/

namespace LieGrpc

namespace Streaming

variable {M H : Type} [Message M]

/-- The result that a verdict makes a reader return, unless it waits for more. -/
def result? : Attempt Bytes Unit → Option (Except Status M)
  | .more => none
  | .halt _ => some (.error ProstDecoder.unsupportedCompression)
  | .item payload _ => some (ProstDecoder.ofPayload M payload)

@[simp] theorem result?_more : result? (M := M) .more = none := rfl
@[simp] theorem result?_halt (u : Unit) :
    result? (M := M) (.halt u) = some (.error ProstDecoder.unsupportedCompression) := rfl
@[simp] theorem result?_item (payload : Bytes) (n : Nat) :
    result? (.item payload n) = some (ProstDecoder.ofPayload M payload) := rfl

/-- Where no flag is refused, the results are those of the payloads. -/
theorem filterMap_result? {vs : List (Attempt Bytes Unit)} (h : ∀ u, .halt u ∉ vs) :
    vs.filterMap (result? (M := M)) =
      (vs.filterMap Attempt.item?).map (ProstDecoder.ofPayload M) := by
  induction vs with
  | nil => rfl
  | cons v vs ih =>
    have hrec := ih fun u hu => h u (List.mem_cons_of_mem v hu)
    cases v with
    | more => simpa [List.filterMap_cons] using hrec
    | halt u => exact absurd List.mem_cons_self (h u)
    | item payload n => simpa using hrec

/-- Frames, and what follows them undecided, are refused nowhere, whatever their chunks. -/
theorem paced_frames_not_halt {payloads : List Bytes} (h : ∀ p ∈ payloads, p.length < 2 ^ 32)
    {t : Bytes} (ht : attemptFrame t = .more) {cs : List Bytes}
    (hcs : cs.flatten = frames payloads ++ t) (u : Unit) :
    .halt u ∉ (framing.paced [] cs).1 := by
  apply Incremental.paced_not_halt
  rw [List.nil_append, hcs, rest_frames h ht]
  exact ht

theorem items_encoded {payloads : List Bytes} (h : ∀ p ∈ payloads, p.length < 2 ^ 32) :
    framing.items (frames payloads) = payloads := by
  simpa using items_frames h attemptFrame_nil

/-- A paced reader returns encoded messages as they were exactly if it delivers all of their
payloads: what it delivers begins the payloads in any case. -/
theorem results_eq_iff [LawfulMessage M] {ms : List M}
    (hlen : ∀ m ∈ ms, (Message.encodeToVec m).length < 2 ^ 32) {cs : List Bytes}
    (hcs : cs.flatten = frames (ms.map Message.encodeToVec)) :
    (framing.paced [] cs).1.filterMap (result? (M := M)) = ms.map .ok ↔
      framing.deliveries [] cs = framing.items cs.flatten := by
  have hfit : ∀ p ∈ ms.map Message.encodeToVec, p.length < 2 ^ 32 := by simpa using hlen
  have hitems : framing.items cs.flatten = ms.map Message.encodeToVec := by
    rw [hcs, items_encoded hfit]
  have hresults : (framing.paced [] cs).1.filterMap (result? (M := M)) =
      (framing.deliveries [] cs).map (ProstDecoder.ofPayload M) :=
    filterMap_result? (paced_frames_not_halt hfit attemptFrame_nil
      (hcs.trans (List.append_nil _).symm))
  rw [hresults, hitems]
  constructor
  · intro h
    have hpre := Incremental.deliveries_prefix (P := framing) [] cs
    rw [List.nil_append, hitems] at hpre
    exact hpre.eq_of_length (by simpa using congrArg List.length h)
  · intro h
    rw [h, ProstDecoder.map_ofPayload_encode]

/-! ## Reading with `recv_message` -/

/-- Call `recv_message` until it returns `Ok(None)`, at most `fuel` times. -/
def recvUntilNone : Nat → Streaming M H → Option (List (Except Status M) × Streaming M H)
  | 0, _ => none
  | fuel + 1, s =>
    match s.recvMessage with
    | (.pending, _) => none
    | (.ready (.ok none), s) => some ([], s)
    | (.ready (.ok (some m)), s) => (recvUntilNone fuel s).map fun r => (.ok m :: r.1, r.2)
    | (.ready (.error e), s) => (recvUntilNone fuel s).map fun r => (.error e :: r.1, r.2)

/-- If more fuel changes no result, the result does not depend on the fuel. -/
theorem unique_of_mono {α : Type} {f : Nat → Option α}
    (hmono : ∀ fuel r, f fuel = some r → ∀ k, f (fuel + k) = some r) {fuel fuel' : Nat} {r r' : α}
    (h : f fuel = some r) (h' : f fuel' = some r') : r = r' := by
  have hr := hmono fuel r h fuel'
  have hr' := hmono fuel' r' h' fuel
  rw [Nat.add_comm] at hr'
  exact Option.some.inj (hr.symm.trans hr')

theorem recvUntilNone_mono {fuel : Nat} {s : Streaming M H}
    {r : List (Except Status M) × Streaming M H} (h : recvUntilNone fuel s = some r) (k : Nat) :
    recvUntilNone (fuel + k) s = some r := by
  induction fuel generalizing s r with
  | zero => cases h
  | succ fuel ih =>
    rw [Nat.succ_add, recvUntilNone]
    rw [recvUntilNone] at h
    split at h
    · cases h
    · exact h
    all_goals
      obtain ⟨t, ht, rfl⟩ := Option.map_eq_some_iff.mp h
      rw [ih ht, Option.map_some]

theorem recvUntilNone_unique {fuel fuel' : Nat} {s : Streaming M H}
    {r r' : List (Except Status M) × Streaming M H} (h : recvUntilNone fuel s = some r)
    (h' : recvUntilNone fuel' s = some r') : r = r' :=
  unique_of_mono (f := fun fuel => recvUntilNone fuel s) (fun _ _ => recvUntilNone_mono) h h'

theorem recvUntilNone_congr {s s' : Streaming M H} (h : s.recvMessage = s'.recvMessage)
    (fuel : Nat) : recvUntilNone fuel s = recvUntilNone fuel s' := by
  cases fuel with
  | zero => rfl
  | succ fuel => rw [recvUntilNone, recvUntilNone, h]

/-- A chunk is one attempt: it gives a result and costs a call, or is passed over. -/
theorem recvUntilNone_data (fuel : Nat) (b : Bytes) (es : List BodyEvent) (ending : BodyEnd)
    (trailers : List BodyEvent → Poll (Except HyperError (Option H))) (buf : Bytes) :
    recvUntilNone (M := M) (fuel + 1) ⟨⟨.data b :: es, ending, trailers⟩, buf⟩ =
      match result? (attemptFrame (buf ++ b)) with
      | none => recvUntilNone (fuel + 1) ⟨⟨es, ending, trailers⟩, buf ++ b⟩
      | some result =>
        (recvUntilNone fuel ⟨⟨es, ending, trailers⟩,
          (attemptFrame (buf ++ b)).advance (buf ++ b)⟩).map fun r => (result :: r.1, r.2) := by
  cases ha : attemptFrame (buf ++ b) with
  | more =>
    apply recvUntilNone_congr
    simp only [recvMessage, recv, recvLoop_more ha]
  | halt u => rw [recvUntilNone, recvMessage, recv, recvLoop_halt ha]; rfl
  | item payload n =>
    rw [recvUntilNone, recvMessage, recv, recvLoop_item ha, result?_item]
    cases ProstDecoder.ofPayload M payload <;> rfl

/-- On a body whose data ends without an error, the calls are a paced reader of the chunks. -/
theorem recvUntilNone_eq {es : List BodyEvent} (herr : ∀ e ∈ es, e.isError = false)
    (trailers : List BodyEvent → Poll (Except HyperError (Option H))) (buf : Bytes) {fuel : Nat}
    (hfuel : (chunks es).length < fuel) :
    recvUntilNone (M := M) fuel ⟨⟨es, .eof, trailers⟩, buf⟩ =
      some ((framing.paced buf (chunks es)).1.filterMap result?,
        ⟨⟨[], .eof, trailers⟩, (framing.paced buf (chunks es)).2⟩) := by
  induction es generalizing buf fuel with
  | nil =>
    obtain ⟨fuel, rfl⟩ := Nat.exists_eq_add_one_of_ne_zero (Nat.ne_zero_of_lt hfuel)
    rfl
  | cons e es ih =>
    have hes : ∀ e ∈ es, e.isError = false := fun e he => herr e (List.mem_cons_of_mem _ he)
    cases e with
    | pending =>
      rw [chunks_pending] at hfuel ⊢
      have hsame : recvMessage (M := M) ⟨⟨.pending :: es, .eof, trailers⟩, buf⟩ =
          recvMessage ⟨⟨es, .eof, trailers⟩, buf⟩ := rfl
      rw [recvUntilNone_congr hsame, ih hes buf hfuel]
    | error err => cases herr _ List.mem_cons_self
    | data b =>
      simp only [chunks_data, List.length_cons] at hfuel ⊢
      obtain ⟨fuel, rfl⟩ := Nat.exists_eq_add_one_of_ne_zero (Nat.ne_zero_of_lt hfuel)
      rw [recvUntilNone_data, Incremental.paced, framing_attempt]
      cases attemptFrame (buf ++ b) with
      | more => simpa [List.filterMap_cons] using ih hes (buf ++ b) (by omega)
      | halt u => simp [ih hes (buf ++ b) (show (chunks es).length < fuel by omega)]
      | item payload n =>
        simp [ih hes ((buf ++ b).drop n) (show (chunks es).length < fuel by omega)]

/-- Messages are read back exactly if, wherever the chunks are cut in two, no more of them
are still incomplete than there are chunks to come. -/
theorem recvUntilNone_eq_iff [LawfulMessage M] (ms : List M)
    (hlen : ∀ m ∈ ms, (Message.encodeToVec m).length < 2 ^ 32) (fs : List Bytes)
    (hfs : ms.map ProstEncoder.encode = fs.map .ok) (body : Body H)
    (herr : ∀ e ∈ body.events, e.isError = false) (heof : body.ending = .eof)
    (hdata : dataBytes body.events = fs.flatten) :
    (∃ fuel s, recvUntilNone fuel (new body) = some (ms.map .ok, s)) ↔
      ∀ pre post, chunks body.events = pre ++ post →
        ms.length ≤ framesWithin fs pre.flatten.length + post.length := by
  obtain ⟨events, ending, trailers⟩ := body
  obtain rfl : ending = .eof := heof
  obtain rfl := ProstEncoder.eq_frames hfs
  have hfit : ∀ p ∈ ms.map Message.encodeToVec, p.length < 2 ^ 32 := by simpa using hlen
  have hwhole : (chunks events).flatten = frames (ms.map Message.encodeToVec) := hdata
  have hread := recvUntilNone_eq (M := M) herr trailers [] (Nat.lt_succ_self _)
  calc (∃ fuel s, recvUntilNone fuel (new ⟨events, .eof, trailers⟩) = some (ms.map .ok, s))
      ↔ (framing.paced [] (chunks events)).1.filterMap (result? (M := M)) = ms.map .ok := by
        constructor
        · rintro ⟨fuel, s, h⟩
          exact (congrArg Prod.fst (recvUntilNone_unique h hread)).symm
        · intro h
          exact ⟨_, _, hread.trans (by rw [h])⟩
    _ ↔ framing.deliveries [] (chunks events) = framing.items (chunks events).flatten :=
        results_eq_iff hlen hwhole
    _ ↔ ∀ pre post, chunks events = pre ++ post →
          (framing.items (chunks events).flatten).length ≤
            (framing.items pre.flatten).length + post.length :=
        Incremental.paced_complete_iff _
    _ ↔ _ := by
        rw [hwhole, items_encoded hfit, List.length_map]
        refine forall₂_congr fun pre post => imp_congr_right fun hs => ?_
        have hpre : pre.flatten <+: frames (ms.map Message.encodeToVec) ++ [] :=
          ⟨post.flatten, by rw [List.append_nil, ← hwhole, hs, List.flatten_append]⟩
        rw [length_items_of_beginning hfit rfl hpre]

/-- Chunks that complete no frame, the first frame and the second. -/
theorem recvUntilNone_eq_iff_bools :
    (∃ fuel s, recvUntilNone fuel (new (H := HeaderList)
        ⟨[.data [0, 0, 0, 0, 2, 8], .pending, .data [1, 0], .data [0, 0, 0, 0]], .eof,
          fun _ => .ready (.ok none)⟩) = some ([.ok true, .ok false], s)) ↔
      ∀ pre post : List Bytes, [[0, 0, 0, 0, 2, 8], [1, 0], [0, 0, 0, 0]] = pre ++ post →
        2 ≤ framesWithin [[0, 0, 0, 0, 2, 8, 1], [0, 0, 0, 0, 0]] pre.flatten.length +
          post.length :=
  recvUntilNone_eq_iff [true, false] (by decide) [[0, 0, 0, 0, 2, 8, 1], [0, 0, 0, 0, 0]] rfl
    ⟨[.data [0, 0, 0, 0, 2, 8], .pending, .data [1, 0], .data [0, 0, 0, 0]], .eof,
      fun _ => .ready (.ok none)⟩ (by simp [BodyEvent.isError]) rfl rfl

/-- Two empty messages in one chunk: the second is lost. -/
theorem not_lossless_twoFrames :
    ¬ ∀ (ms : List Bool) (fs : List Bytes) (body : Body HeaderList),
      (∀ m ∈ ms, (Message.encodeToVec m).length < 2 ^ 32) →
      ms.map ProstEncoder.encode = fs.map .ok → (∀ e ∈ body.events, e.isError = false) →
      body.ending = .eof → dataBytes body.events = fs.flatten →
      ∃ fuel s, recvUntilNone fuel (new body) = some (ms.map .ok, s) := by
  intro h
  obtain ⟨fuel, s, hs⟩ := h [false, false] [[0, 0, 0, 0, 0], [0, 0, 0, 0, 0]]
    ⟨[.data [0, 0, 0, 0, 0, 0, 0, 0, 0, 0]], .eof, fun _ => .ready (.ok none)⟩
    (by decide) rfl (by decide) rfl rfl
  have hlost : ∃ t, recvUntilNone 2 (new (M := Bool) (H := HeaderList)
      ⟨[.data [0, 0, 0, 0, 0, 0, 0, 0, 0, 0]], .eof, fun _ => .ready (.ok none)⟩) =
      some ([.ok false], t) := ⟨_, rfl⟩
  obtain ⟨t, ht⟩ := hlost
  cases recvUntilNone_unique hs ht

/-! ## Reading with `poll_next` -/

/-- What the polls of a stream hand over. -/
def returned (log : List (Polled M)) : List (Except Status M) :=
  log.filterMap fun entry =>
    match entry.reply with
    | .ready r => r
    | .pending => none

def feeds (log : List (Polled M)) : List Bytes := log.filterMap fun entry => feed? entry.body

/-- The polls that saw the end of the data. -/
def ends (log : List (Polled M)) : Nat := log.countP fun entry => sawEnd entry.body

omit [Message M] in
theorem feeds_cons (entry : Polled M) (log : List (Polled M)) :
    feeds (entry :: log) = (feed? entry.body).toList ++ feeds log := by
  cases h : feed? entry.body <;> simp [feeds, h]

theorem returned_cons_ofVerdict (r : Poll (Option (Except HyperError Bytes)))
    (v : Attempt Bytes Unit) (log : List (Polled M)) :
    returned (⟨r, ofVerdict v⟩ :: log) = (result? v).toList ++ returned log := by
  cases v <;> rfl

/-- On a body without errors, the polls are a paced reader of what the body feeds them. -/
theorem returned_polls (n : Nat) (s : Streaming M H)
    (herr : ∀ e ∈ s.body.events, e.isError = false) :
    returned (polls n s).1 =
      (framing.paced s.buf (feeds (polls n s).1)).1.filterMap result? := by
  induction n generalizing s with
  | zero => rfl
  | succ n ih =>
    have hrest : ∀ e ∈ s.pollNext.2.body.events, e.isError = false := by
      obtain ⟨seen, hbody, -⟩ := s.body.exists_seen
      intro e he
      rw [pollNext_body] at he
      exact herr e (by rw [hbody]; exact List.mem_append_right seen he)
    have hrec := ih s.pollNext.2 hrest
    rw [polls, feeds_cons]
    rcases s.pollNext_cases with ⟨hpoll, h⟩ | ⟨err, hpoll, h⟩ | ⟨b, hpoll, h⟩
    · rw [h] at hrec ⊢
      rw [hpoll]
      exact hrec
    · rcases s.body.pollData_cases with ⟨e, hbody, he⟩ | ⟨-, -, he⟩
      · have hnot := herr e (by rw [hbody]; exact List.mem_cons_self)
        rw [he] at hpoll
        cases e with
        | pending | data => cases hpoll
        | error => cases hnot
      · simp [hpoll] at he
    · rw [h] at hrec ⊢
      rw [hpoll, returned_cons_ofVerdict, hrec]
      cases hv : attemptFrame (s.buf ++ b) <;> simp [Incremental.paced, hv, List.filterMap_cons]

/-- The polls are fed the chunks they get from the body, and nothing more at its end. -/
theorem feeds_polls (n : Nat) (s : Streaming M H) :
    ∃ seen, s.body.events = seen ++ (polls n s).2.body.events ∧
      feeds (polls n s).1 = chunks seen ++ List.replicate (ends (polls n s).1) [] := by
  induction n generalizing s with
  | zero => exact ⟨[], rfl, rfl⟩
  | succ n ih =>
    obtain ⟨seen, hseen, hfeeds⟩ := ih s.pollNext.2
    rw [pollNext_body] at hseen
    simp only [polls, feeds_cons, hfeeds, ends, List.countP_cons]
    rcases s.body.pollData_cases with ⟨e, hbody, hpoll⟩ | ⟨hnil, hbody, hpoll⟩
    · refine ⟨e :: seen, ?_, ?_⟩
      · rw [hbody]
        exact congrArg (e :: ·) hseen
      · simp [hpoll, chunks_cons]
    · rw [hbody, hnil] at hseen
      obtain ⟨rfl, -⟩ := List.append_eq_nil_iff.mp hseen.symm
      refine ⟨[], hnil.trans hseen, ?_⟩
      rcases hpoll with hpoll | hpoll <;> simp [hpoll, feed?, sawEnd, List.replicate_succ]

/-- Polls that have read all the data were fed its chunks, and nothing more after its end. -/
theorem feeds_polls_of_read {body : Body H} {n : Nat}
    (hall : chunks (polls n (new (M := M) body)).2.body.events = []) :
    feeds (polls n (new (M := M) body)).1 =
      chunks body.events ++ List.replicate (ends (polls n (new (M := M) body)).1) [] := by
  obtain ⟨seen, hseen, hfeeds⟩ := feeds_polls n (new (M := M) body)
  have hchunks : chunks body.events = chunks seen := by
    have := congrArg chunks hseen
    rwa [chunks_append, hall, List.append_nil] at this
  rw [hchunks, hfeeds]

/-- Polled once more for each frame after the end of the data, the stream is fed enough to
deliver all of them. -/
theorem deliveries_polls {body : Body H} {n : Nat}
    (hall : chunks (polls n (new (M := M) body)).2.body.events = [])
    (hdue : (framing.items (dataBytes body.events)).length ≤
      ends (polls n (new (M := M) body)).1) :
    framing.deliveries [] (feeds (polls n (new (M := M) body)).1) =
      framing.items (dataBytes body.events) := by
  rw [feeds_polls_of_read hall]
  exact Incremental.deliveries_asked_on hdue

/-- A stream that is polled on after the end of the data hands over every message. -/
theorem polls_complete [LawfulMessage M] (ms : List M)
    (hlen : ∀ m ∈ ms, (Message.encodeToVec m).length < 2 ^ 32) (fs : List Bytes)
    (hfs : ms.map ProstEncoder.encode = fs.map .ok) (body : Body H)
    (herr : ∀ e ∈ body.events, e.isError = false) (hdata : dataBytes body.events = fs.flatten)
    (n : Nat) (hall : chunks (polls n (new (M := M) body)).2.body.events = [])
    (hends : ms.length ≤ ends (polls n (new (M := M) body)).1) :
    returned (polls n (new body)).1 = ms.map .ok := by
  obtain rfl := ProstEncoder.eq_frames hfs
  have hfit : ∀ p ∈ ms.map Message.encodeToVec, p.length < 2 ^ 32 := by simpa using hlen
  have hwhole : dataBytes body.events = frames (ms.map Message.encodeToVec) := hdata
  have hflat : (feeds (polls n (new (M := M) body)).1).flatten = dataBytes body.events := by
    rw [feeds_polls_of_read hall]
    simp [dataBytes]
  have hdue : (framing.items (dataBytes body.events)).length ≤
      ends (polls n (new (M := M) body)).1 := by
    rwa [hwhole, items_encoded hfit, List.length_map]
  rw [returned_polls n (new body) herr]
  refine (results_eq_iff hlen (hflat.trans hwhole)).mpr ?_
  rw [deliveries_polls hall hdue, hflat]

/-- Two frames in one chunk, the body not ready before and after. -/
theorem polls_complete_bools :
    returned (polls 6 (new (M := Bool) (H := HeaderList)
      ⟨[.pending, .data [0, 0, 0, 0, 2, 8, 1, 0, 0, 0, 0, 0], .pending], .eof,
        fun _ => .ready (.ok none)⟩)).1 = [.ok true, .ok false] :=
  polls_complete [true, false] (by decide) [[0, 0, 0, 0, 2, 8, 1], [0, 0, 0, 0, 0]] rfl _
    (by simp [BodyEvent.isError]) rfl 6 rfl (by decide)

end Streaming

end LieGrpc
