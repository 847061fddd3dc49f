import LieGrpc.Grpc.Recovery
import LieGrpc.Library.Backlog
import Mathlib.Tactic.Ring

/-!
# How far a reader falls behind

A reader takes at most one frame out of its buffer for each chunk, so frames that are complete
can wait there while it asks for more data. How many of them wait at worst depends on the chunks
of the body alone, not on the calls.
-/

namespace LieGrpc

namespace Streaming

variable {M H : Type} [Message M]

variable (M) in
/-- At most `k` outcomes of what some calls have taken from the body are not handed over. -/
def Behind (body : Body H) (cs : List Call) (k : Nat) : Prop :=
  ∃ seen owed, body.events = seen ++ (run cs (new (M := M) body)).2.body.events ∧
    greedyOutcomes M (dataBytes seen) = delivered (run cs (new (M := M) body)).1 ++ owed ∧
    owed.length ≤ k

/-- What is not handed over waits in the buffer. -/
theorem behind_iff (body : Body H) (cs : List Call) (k : Nat) :
    Behind M body cs k ↔
      (framing.items (run cs (new (M := M) body)).2.buf).length ≤ k := by
  obtain ⟨seen, payloads, hbody, hc, hout⟩ := run_accounted cs (new (M := M) body)
  have hevents : body.events = seen ++ (run cs (new (M := M) body)).2.body.events :=
    congrArg Body.events hbody
  have hgreedy : greedyOutcomes M (dataBytes seen) = delivered (run cs (new (M := M) body)).1 ++
      (framing.items (run cs (new (M := M) body)).2.buf).map Message.decode := by
    have hitems : framing.items (dataBytes seen) = _ := hc.items
    rw [greedyOutcomes, hitems, List.map_append, hout]
  constructor
  · rintro ⟨seen', owed, hevents', howed, hk⟩
    obtain rfl : seen = seen' := List.append_cancel_right (hevents.symm.trans hevents')
    rw [hgreedy, List.append_cancel_left_eq] at howed
    rwa [← howed, List.length_map] at hk
  · intro hk
    exact ⟨seen, _, hevents, hgreedy, by rwa [List.length_map]⟩

/-- The buffer of a run is that of a paced reader of the chunks that it has taken. -/
theorem exists_paced_buf (body : Body H) (cs : List Call) :
    ∃ seen n, body.events = seen ++ (run cs (new (M := M) body)).2.body.events ∧
      (run cs (new (M := M) body)).2.buf =
        (framing.paced [] (chunks seen ++ List.replicate n [])).2 := by
  obtain ⟨seen, hbody, -, h⟩ := run_replayed cs (new (M := M) body)
  refine ⟨seen, endPolls cs (new (M := M) body), congrArg Body.events hbody, ?_⟩
  rw [h.buf, (Incremental.relay_paced _ _).2, chunks_input]
  rfl

/-- Polls can take any beginning of the chunks, and then the buffer is that of a paced reader. -/
theorem exists_polls_buf (body : Body H) {pre post : List Bytes}
    (h : chunks body.events = pre ++ post) :
    ∃ n, (run (List.replicate n .pollNext) (new (M := M) body)).2.buf =
      (framing.paced [] pre).2 := by
  obtain ⟨seen, rest, hevents, rfl, -⟩ := List.filterMap_eq_append_iff.mp h
  refine ⟨seen.length, ?_⟩
  have hle : seen.length ≤ body.events.length := by simp [hevents]
  have htake : body.events.take seen.length = seen := by simp [hevents]
  rw [run_polls_buf, fed, htake, asked_of_le hle, List.replicate_zero, List.append_nil]
  rfl

/-- No window of consecutive chunks completes more frames than it has chunks, and `k` more. -/
def WindowsWithin (body : Body H) (k : Nat) : Prop :=
  ∀ pre window post, chunks body.events = pre ++ window ++ post →
    (framing.items (pre ++ window).flatten).length ≤
      (framing.items pre.flatten).length + window.length + k

/-- Then no more than `k` complete frames wait in the buffer, whatever the calls are. -/
theorem length_items_buf_le {body : Body H} {k : Nat} (h : WindowsWithin body k)
    (cs : List Call) : (framing.items (run cs (new (M := M) body)).2.buf).length ≤ k := by
  obtain ⟨seen, n, hevents, hbuf⟩ := exists_paced_buf (M := M) body cs
  rw [hbuf]
  have hsplit := congrArg chunks hevents
  rw [chunks_append] at hsplit
  exact (Incremental.length_items_asked_on [] (chunks seen) n).trans
    ((Incremental.backlog_le_iff _ k).mpr h _ _ hsplit)

/-- Whatever the calls are, at most `k` outcomes are ever due exactly if no window of chunks
completes more frames than it has chunks, and `k` more. -/
theorem behind_le_iff (body : Body H) (k : Nat) :
    (∀ cs, Behind M body cs k) ↔ WindowsWithin body k := by
  constructor
  · intro h
    refine (Incremental.backlog_le_iff _ k).mp fun pre post hs => ?_
    obtain ⟨n, hbuf⟩ := exists_polls_buf (M := M) body hs
    rw [← hbuf]
    exact (behind_iff body _ k).mp (h _)
  · exact fun h cs => (behind_iff body cs k).mpr (length_items_buf_le h cs)

/-! ## Memory -/

/-- A beginning of short frames is no longer than the frames complete in it and one more. -/
theorem length_lt_of_beginning {ps : List Bytes} {bound : Nat} (hbound : bound < 2 ^ 32)
    (h : ∀ p ∈ ps, p.length ≤ bound) {b : Bytes} (hb : b <+: frames ps) :
    b.length < ((framing.items b).length + 1) * (bound + 5) := by
  induction ps generalizing b with
  | nil =>
    obtain rfl : b = [] := by simpa using hb
    simp
  | cons p ps ih =>
    obtain ⟨hp, hps⟩ := List.forall_mem_cons.mp h
    have hframe : (frame p).length ≤ bound + 5 := by
      rw [length_frame]
      omega
    rw [frames_cons] at hb
    rcases Nat.lt_or_ge b.length (frame p).length with hlt | hge
    · calc b.length < bound + 5 := Nat.lt_of_lt_of_le hlt hframe
        _ ≤ ((framing.items b).length + 1) * (bound + 5) :=
          Nat.le_mul_of_pos_left _ (Nat.succ_pos _)
    · obtain ⟨b', rfl⟩ := List.prefix_of_prefix_length_le (List.prefix_append _ _) hb hge
      have hrest := ih hps ((List.prefix_append_right_inj _).mp hb)
      have hfit : ∀ q ∈ [p], q.length < 2 ^ 32 := by simpa using hp.trans_lt hbound
      have hfront : framing.Consumes (frame p ++ b') [p] b' := by
        simpa using consumes_frames hfit b'
      rw [hfront.items, List.length_append, List.length_append, List.length_singleton]
      calc (frame p).length + b'.length
          < (bound + 5) + ((framing.items b').length + 1) * (bound + 5) :=
            Nat.add_lt_add_of_le_of_lt hframe hrest
        _ = (1 + (framing.items b').length + 1) * (bound + 5) := by ring

/-- What is in the buffer of a run begins the frames that its reader has not handed over. -/
theorem buf_prefix_frames {body : Body H} {payloads : List Bytes}
    (hfit : ∀ p ∈ payloads, p.length < 2 ^ 32) (hdata : dataBytes body.events <+: frames payloads)
    (cs : List Call) :
    ∃ due, (∀ p ∈ due, p ∈ payloads) ∧ (run cs (new (M := M) body)).2.buf <+: frames due := by
  obtain ⟨seen, taken, hbody, hc, -⟩ := run_accounted cs (new (M := M) body)
  have hevents : body.events = seen ++ (run cs (new (M := M) body)).2.body.events :=
    congrArg Body.events hbody
  obtain ⟨tail, htail⟩ := hdata
  rw [hevents, dataBytes_append, List.append_assoc] at htail
  -- the parser that has read the buffer is fed the rest of the frames, and reads all of them
  have hfed := hc.feed (dataBytes (run cs (new (M := M) body)).2.body.events ++ tail)
  have hwhole : (new (M := M) body).buf ++ dataBytes seen ++
      (dataBytes (run cs (new (M := M) body)).2.body.events ++ tail) = frames payloads := htail
  rw [hwhole] at hfed
  generalize dataBytes (run cs (new (M := M) body)).2.body.events ++ tail = later at hfed
  have hitems := hfed.items
  rw [items_encoded hfit] at hitems
  have hrest := rest_frames hfit attemptFrame_nil
  rw [List.append_nil, hfed.rest] at hrest
  obtain ⟨-, hframes⟩ := consumes_iff.mp (Incremental.consumes_drain (P := framing)
    ((run cs (new (M := M) body)).2.buf ++ later))
  rw [hrest, List.append_nil] at hframes
  exact ⟨_, fun p hp => hitems ▸ List.mem_append_right _ hp, later, hframes⟩

/-- The memory of a reader: as long as no frame of a body is longer than a bound, and no window of
its chunks completes too many, the buffer never holds more than these frames and one more. -/
theorem length_buf_lt (body : Body H) {payloads : List Bytes} {bound k : Nat}
    (hbound : bound < 2 ^ 32) (hshort : ∀ p ∈ payloads, p.length ≤ bound)
    (hdata : dataBytes body.events <+: frames payloads) (hwindows : WindowsWithin body k)
    (cs : List Call) : (run cs (new (M := M) body)).2.buf.length < (k + 1) * (bound + 5) := by
  obtain ⟨due, hdue, hpre⟩ := buf_prefix_frames (M := M)
    (fun p hp => (hshort p hp).trans_lt hbound) hdata cs
  have hlt := length_lt_of_beginning hbound (fun p hp => hshort p (hdue p hp)) hpre
  have hle := length_items_buf_le (M := M) hwindows cs
  exact hlt.trans_le (Nat.mul_le_mul_right _ (Nat.succ_le_succ hle))

/-- Two empty frames in one chunk, of which a poll takes one. -/
theorem length_buf_lt_bools :
    (run [.pollNext] (new (M := Bool) (H := HeaderList)
      ⟨[.data [0, 0, 0, 0, 0, 0, 0, 0, 0, 0]], .eof, fun _ => .ready (.ok none)⟩)).2.buf.length <
        (1 + 1) * (0 + 5) := by
  have hshort : ∀ p ∈ ([[], []] : List Bytes), p.length ≤ 0 := by simp
  have hframes : framing.items ([0, 0, 0, 0, 0, 0, 0, 0, 0, 0] : Bytes) = [[], []] := by
    have hfit : ∀ p ∈ ([[], []] : List Bytes), p.length < 2 ^ 32 := by simp
    exact items_encoded hfit
  refine length_buf_lt _ (by decide) hshort List.prefix_rfl ?_ _
  intro pre window post hs
  replace hs : [[0, 0, 0, 0, 0, 0, 0, 0, 0, 0]] = pre ++ (window ++ post) := by
    rw [← List.append_assoc]
    exact hs
  rcases List.singleton_eq_append_iff.mp hs with ⟨rfl, hwindow⟩ | ⟨rfl, hwindow⟩
  · rcases List.append_eq_singleton_iff.mp hwindow with ⟨rfl, -⟩ | ⟨rfl, -⟩
    · simp
    · simp [hframes]
  · obtain ⟨rfl, -⟩ := List.append_eq_nil_iff.mp hwindow
    simp

end Streaming

end LieGrpc
