import LieGrpc.Grpc.Backlog
import Mathlib.Logic.Relation

/-!
# Tasks that wait for a stream

A task that takes one item after the other is polled again when it has got one, and after
`Pending` only once it is woken. The body wakes it if it was the body that was pending. Where
`Pending` comes from the decoder nobody does, and the task gets no more of the stream. So what it
gets depends on the chunks: each of them has to complete a frame that is still to be handed over.
-/

namespace LieGrpc

namespace Streaming

variable {M H : Type} [Message M]

/-! ## Polls from the start -/

omit [Message M] in
theorem fed_succ (body : Body H) (n : Nat) :
    fed body (n + 1) = fed body n ++
      (feed? (Body.pollData { body with events := body.events.drop n }).1).toList := by
  rcases Nat.lt_or_ge n body.events.length with hlt | hge
  · rw [fed, fed, asked_of_le hlt.le, asked_of_le hlt, List.take_succ_eq_append_getElem hlt,
      chunks_append, chunks_cons, List.drop_eq_getElem_cons hlt]
    simp [Body.pollData]
  · have hnext : n + 1 - body.events.length = n - body.events.length + 1 := by omega
    rw [fed, fed, List.take_of_length_le hge, List.take_of_length_le (by omega),
      List.drop_eq_nil_of_le hge]
    cases hend : body.ending <;>
      simp [asked, Body.pollData, hend, hnext, feed?, List.replicate_succ']

theorem run_polls_succ (n : Nat) (s : Streaming M H) :
    run (List.replicate (n + 1) .pollNext) s =
      ((run (List.replicate n .pollNext) s).1 ++
        [.next (run (List.replicate n .pollNext) s).2.pollNext.1],
        (run (List.replicate n .pollNext) s).2.pollNext.2) := by
  rw [List.replicate_succ', run_append]
  rfl

omit [Message M] in
/-- What polls deliver is a beginning of the frames of the body. -/
theorem prefix_items_of_fed (body : Body H) (n : Nat) :
    framing.deliveries [] (fed body n) <+: framing.items (dataBytes body.events) := by
  have hsplit := dataBytes_append (body.events.take n) (body.events.drop n)
  rw [List.take_append_drop] at hsplit
  have hfed : framing.deliveries [] (fed body n) <+: framing.items (fed body n).flatten :=
    Incremental.deliveries_prefix [] (fed body n)
  rw [hsplit, Incremental.items_append, ← flatten_fed body n]
  exact hfed.trans (List.prefix_append _ _)

/-- Polls have handed over all outcomes exactly if they are as many. -/
theorem deliveries_complete_iff (body : Body H) (n : Nat) :
    (framing.deliveries [] (fed body n)).map Message.decode =
        greedyOutcomes M (dataBytes body.events) ↔
      (framing.items (dataBytes body.events)).length ≤
        (framing.deliveries [] (fed body n)).length := by
  constructor
  · intro h
    have hlen := congrArg List.length h
    rw [greedyOutcomes, List.length_map, List.length_map] at hlen
    exact hlen.ge
  · intro hlen
    rw [(prefix_items_of_fed body n).eq_of_length_le hlen, greedyOutcomes]

omit [Message M] in
/-- One poll for each result of the body and one for each frame are enough for all. -/
theorem length_deliveries_fed {body : Body H} (heof : body.ending = .eof) :
    (framing.items (dataBytes body.events)).length ≤ (framing.deliveries [] (fed body
      (body.events.length + (framing.items (dataBytes body.events)).length))).length := by
  have hfed : fed body (body.events.length + (framing.items (dataBytes body.events)).length) =
      chunks body.events ++
        List.replicate (framing.items (dataBytes body.events)).length [] := by
    rw [fed, List.take_of_length_le (Nat.le_add_right _ _), asked, if_pos heof,
      Nat.add_sub_cancel_left]
  rw [hfed]
  exact (congrArg List.length (Incremental.deliveries_asked_on (Nat.le_refl _))).ge

/-! ## Tasks -/

inductive Phase where
  /-- To be polled. -/
  | running
  /-- The body has the waker. -/
  | waiting
  /-- Nobody has it. -/
  | asleep
  deriving DecidableEq, Repr

/-- A task with what it has got from its stream. -/
structure Task (M H : Type) where
  stream : Streaming M H
  log : List (Except Status M)
  phase : Phase

namespace Task

/-- A running task is polled, and the body wakes a task that waits for it unless it is stalled.
At `Ready(None)` the task is done. -/
inductive Step : Task M H → Task M H → Prop
  | item {s s' : Streaming M H} {log : List (Except Status M)} {r : Except Status M} :
    s.pollNext = (.ready (some r), s') → Step ⟨s, log, .running⟩ ⟨s', log ++ [r], .running⟩
  | wait {s s' : Streaming M H} {log : List (Except Status M)} :
    s.pollNext = (.pending, s') → s.body.pollData.1 = .pending →
    Step ⟨s, log, .running⟩ ⟨s', log, .waiting⟩
  | sleep {s s' : Streaming M H} {log : List (Except Status M)} :
    s.pollNext = (.pending, s') → s.body.pollData.1 ≠ .pending →
    Step ⟨s, log, .running⟩ ⟨s', log, .asleep⟩
  | wake {s : Streaming M H} {log : List (Except Status M)} :
    s.body.events ≠ [] ∨ s.body.ending = .eof →
    Step ⟨s, log, .waiting⟩ ⟨s, log, .running⟩

/-- The tasks that come of a fresh stream. -/
def Reached (body : Body H) : Task M H → Prop :=
  Relation.ReflTransGen Step ⟨new body, [], .running⟩

/-- The decoder outcomes that a task has got. -/
def delivered (t : Task M H) : List (Except DecodeError M) := t.log.filterMap outcome?

/-- Where a task is after `n` polls. -/
structure After (body : Body H) (n : Nat) (t : Task M H) : Prop where
  stream : t.stream = (run (List.replicate n .pollNext) (new body)).2
  log : t.log = results (run (List.replicate n .pollNext) (new body)).1
  awake : t.phase ≠ .asleep → .more ∉ (framing.paced [] (fed body n)).1
  asleep : t.phase = .asleep → ∃ cs c, fed body n = cs ++ [c] ∧
    .more ∉ (framing.paced [] cs).1 ∧ attemptFrame ((framing.paced [] cs).2 ++ c) = .more

variable {body : Body H} {n : Nat} {t t' : Task M H}

theorem After.delivered (h : After body n t) :
    t.delivered = (framing.deliveries [] (fed body n)).map Message.decode := by
  rw [Task.delivered, h.log, ← delivered_eq_results, run_polls_delivered]

theorem After.zero (body : Body H) : After body 0 (⟨new body, [], .running⟩ : Task M H) where
  stream := rfl
  log := rfl
  awake := by simp [fed, asked_of_le]
  asleep := nofun

/-- What a poll adds to the log and to what the buffer was extended by. -/
theorem After.succ {s : Streaming M H} {log : List (Except Status M)}
    (h : After body n ⟨s, log, .running⟩) :
    s.pollNext.2 = (run (List.replicate (n + 1) .pollNext) (new body)).2 ∧
      log ++ (Reply.next s.pollNext.1).result?.toList =
        results (run (List.replicate (n + 1) .pollNext) (new body)).1 ∧
      s.buf = (framing.paced [] (fed body n)).2 ∧
      fed body (n + 1) = fed body n ++ (feed? s.body.pollData.1).toList := by
  obtain ⟨hstream, hlog, -, -⟩ := h
  dsimp only at hstream hlog
  have hbody : s.body = { body with events := body.events.drop n } := by
    rw [hstream]
    exact (run_polls n (new body)).1
  refine ⟨?_, ?_, ?_, ?_⟩
  · rw [run_polls_succ, ← hstream]
  · rw [run_polls_succ, ← hstream, hlog, results, results, List.filterMap_append]
    cases hr : (Reply.next s.pollNext.1).result? <;> simp [hr]
  · rw [hstream, run_polls_buf]
  · rw [fed_succ, hbody]

/-- A poll goes by what the body gives. -/
theorem After.poll {s : Streaming M H} {log : List (Except Status M)}
    (h : After body n ⟨s, log, .running⟩) :
    ∃ t', Step ⟨s, log, .running⟩ t' ∧ After body (n + 1) t' := by
  obtain ⟨hstream, hlog, hbuf, hfed⟩ := h.succ
  have hawake := h.awake (by simp)
  rcases s.pollNext_cases with ⟨hpoll, hs⟩ | ⟨err, hpoll, hs⟩ | ⟨b, hpoll, hs⟩
  case inl =>
    rw [hs] at hstream hlog
    rw [hpoll] at hfed
    have hsame : fed body (n + 1) = fed body n := hfed.trans (List.append_nil _)
    exact ⟨_, .wait hs hpoll, hstream, (List.append_nil log).symm.trans hlog,
      fun _ => hsame ▸ hawake, nofun⟩
  case inr.inl =>
    rw [hs] at hstream hlog
    rw [hpoll] at hfed
    have hsame : fed body (n + 1) = fed body n := hfed.trans (List.append_nil _)
    exact ⟨_, .item hs, hstream, hlog, fun _ => hsame ▸ hawake, nofun⟩
  case inr.inr =>
    rw [hs] at hstream hlog
    rw [hpoll, Option.toList_some] at hfed
    have hverdicts : (framing.paced [] (fed body (n + 1))).1 =
        (framing.paced [] (fed body n)).1 ++ [attemptFrame (s.buf ++ b)] := by
      rw [hfed, Incremental.paced_append, hbuf]
      rfl
    cases hv : attemptFrame (s.buf ++ b) with
    | more =>
      rw [hv] at hs hstream hlog
      refine ⟨_, .sleep hs fun hpending => ?_, hstream, (List.append_nil log).symm.trans hlog,
        nofun, fun _ => ⟨fed body n, b, hfed, hawake, hbuf ▸ hv⟩⟩
      rw [hpending] at hpoll
      cases hpoll
    | halt u =>
      rw [hv] at hs hstream hlog hverdicts
      refine ⟨_, .item hs, hstream, hlog, fun _ => ?_, nofun⟩
      simp [hverdicts, hawake]
    | item payload k =>
      rw [hv] at hs hstream hlog hverdicts
      refine ⟨_, .item hs, hstream, hlog, fun _ => ?_, nofun⟩
      simp [hverdicts, hawake]

theorem Step.unique {t u v : Task M H} (h : Step t u) (g : Step t v) : u = v := by
  cases h <;> cases g <;> simp_all

theorem After.step (h : After body n t) (hstep : Step t t') : ∃ k, After body k t' := by
  cases hphase : t.phase with
  | running =>
    obtain ⟨s, log, phase⟩ := t
    obtain rfl : phase = .running := hphase
    obtain ⟨u, hu, hafter⟩ := h.poll
    exact ⟨n + 1, hstep.unique hu ▸ hafter⟩
  | waiting =>
    cases hstep <;> try cases hphase
    exact ⟨n, h.stream, h.log, fun _ => h.awake (by simp), nofun⟩
  | asleep => cases hstep <;> cases hphase

/-- Whatever task is reached, some polls led to it. -/
theorem Reached.after (h : Reached body t) : ∃ n, After body n t := by
  induction h with
  | refl => exact ⟨0, .zero body⟩
  | tail _ hstep ih =>
    obtain ⟨n, hn⟩ := ih
    exact hn.step hstep

/-- A task is polled on until it is asleep. -/
theorem exists_reached (heof : body.ending = .eof) (n : Nat) :
    ∃ k, ∃ t : Task M H, Reached body t ∧ After body k t ∧
      (t.phase = .running ∧ k = n ∨ t.phase = .asleep) := by
  induction n with
  | zero => exact ⟨0, _, .refl, .zero body, .inl ⟨rfl, rfl⟩⟩
  | succ n ih =>
    obtain ⟨k, ⟨s, log, phase⟩, hreached, hafter, ⟨rfl, rfl⟩ | hasleep⟩ := ih
    · obtain ⟨⟨s', log', phase⟩, hstep, hnext⟩ := hafter.poll
      cases phase with
      | running => exact ⟨_, _, hreached.tail hstep, hnext, .inl ⟨rfl, rfl⟩⟩
      | asleep => exact ⟨_, _, hreached.tail hstep, hnext, .inr rfl⟩
      | waiting =>
        have heof' : s'.body.ending = .eof := by
          have hstream : s' = _ := hnext.stream
          rw [hstream, (run_polls _ _).1]
          exact heof
        exact ⟨_, _, (hreached.tail hstep).tail (.wake (.inr heof')),
          ⟨hnext.stream, hnext.log, fun _ => hnext.awake (by simp), nofun⟩, .inl ⟨rfl, rfl⟩⟩
    · exact ⟨k, _, hreached, hafter, .inr hasleep⟩

/-- No attempt but the last one needed more input. -/
theorem After.not_more (h : After body n t) {pre rest : List Bytes}
    (hs : fed body n = pre ++ rest) (hne : rest ≠ []) : .more ∉ (framing.paced [] pre).1 := by
  have hpart {cs more : List Bytes} (hcs : cs = pre ++ more)
      (hnot : .more ∉ (framing.paced [] cs).1) : .more ∉ (framing.paced [] pre).1 := by
    rw [hcs, Incremental.paced_append] at hnot
    exact fun hmem => hnot (List.mem_append_left _ hmem)
  by_cases hphase : t.phase = .asleep
  · obtain ⟨cs, c, hfed, hcs, -⟩ := h.asleep hphase
    obtain rfl | ⟨init, last, rfl⟩ := List.eq_nil_or_concat rest
    · exact absurd rfl hne
    · rw [hfed, List.concat_eq_append, ← List.append_assoc] at hs
      exact hpart (List.append_inj_left' hs rfl) hcs
  · exact hpart hs (h.awake hphase)

/-- Every beginning of the chunks completes as many frames as it has chunks, or all frames. -/
def KeepsPace (body : Body H) : Prop :=
  ∀ pre post, chunks body.events = pre ++ post →
    min pre.length (framing.items (dataBytes body.events)).length ≤
      (framing.items pre.flatten).length

/-- What a task has got can only be all if every beginning of the chunks gave it enough. -/
theorem After.keepsPace (h : After body n t)
    (hall : (framing.items (dataBytes body.events)).length ≤
      (framing.deliveries [] (fed body n)).length) : KeepsPace body := by
  intro pre post hs
  have hsplit : chunks body.events =
      chunks (body.events.take n) ++ chunks (body.events.drop n) := by
    rw [← chunks_append, List.take_append_drop]
  rw [hs] at hsplit
  rcases List.append_eq_append_iff.mp hsplit with ⟨mid, hmid, -⟩ | ⟨mid, rfl, -⟩
  case inl =>
    have hpre : framing.deliveries [] pre <+: framing.items pre.flatten :=
      Incremental.deliveries_prefix [] pre
    by_cases hrest : mid ++ List.replicate (asked body n) [] = []
    · have hfed : fed body n = pre := by
        rw [fed, hmid, List.append_assoc, hrest, List.append_nil]
      rw [hfed] at hall
      exact (Nat.min_le_right _ _).trans (hall.trans hpre.length_le)
    · have hfed : fed body n = pre ++ (mid ++ List.replicate (asked body n) []) := by
        rw [fed, hmid, List.append_assoc]
      have hmin := Incremental.min_le_length_deliveries (h.not_more hfed hrest) post.flatten
      rw [List.nil_append, ← List.flatten_append, ← hs] at hmin
      exact hmin.trans hpre.length_le
  case inr =>
    -- what came later than the polls has given nothing more
    have hfed : framing.deliveries [] (fed body n) <+: framing.items (fed body n).flatten :=
      Incremental.deliveries_prefix [] (fed body n)
    have hlen := hfed.length_le
    rw [flatten_fed, dataBytes] at hlen
    rw [List.flatten_append, Incremental.items_append, List.length_append, List.length_append]
    omega

/-- A task that falls asleep has got all that the chunks so far complete, which is fewer frames
than chunks. -/
theorem After.all_of_asleep (h : After body n t) (hasleep : t.phase = .asleep)
    (hpace : KeepsPace body) :
    (framing.items (dataBytes body.events)).length ≤
      (framing.deliveries [] (fed body n)).length := by
  obtain ⟨cs, c, hfed, -, hmore⟩ := h.asleep hasleep
  have hgot : framing.deliveries [] cs = framing.items (dataBytes (body.events.take n)) := by
    have hitems : framing.deliveries [] cs = framing.items (cs ++ [c]).flatten :=
      Incremental.deliveries_of_more hmore
    rw [hitems, ← hfed, flatten_fed]
  have hle := Incremental.length_deliveries_le (P := framing) [] cs
  rw [hfed, Incremental.deliveries_append, List.length_append, hgot]
  rw [hgot] at hle
  rcases Nat.lt_or_ge n body.events.length with hlt | hge
  · have hpre : chunks (body.events.take n) = cs ++ [c] := by
      rw [← hfed, fed, asked_of_le hlt.le, List.replicate_zero, List.append_nil]
    have hmin := hpace (chunks (body.events.take n)) (chunks (body.events.drop n))
      (by rw [← chunks_append, List.take_append_drop])
    change _ ≤ (framing.items (dataBytes (body.events.take n))).length at hmin
    rw [hpre, List.length_append, List.length_singleton] at hmin
    omega
  · rw [List.take_of_length_le hge]
    exact Nat.le_add_right _ _

/-- This is where every task of the stream ends: asleep, with frames still to come. -/
structure FallsAsleep (body : Body H) (t : Task M H) : Prop where
  reached : Reached body t
  phase : t.phase = .asleep
  stuck : ∀ u, ¬ Step t u
  inevitable : ∀ u, Reached body u → Relation.ReflTransGen Step u t
  missing : ∃ due, due ≠ [] ∧ greedyOutcomes M (dataBytes body.events) = t.delivered ++ due

/-- A task that has got all comes of chunks that keep pace. -/
theorem Reached.keepsPace (h : Reached body t)
    (hall : t.delivered = greedyOutcomes M (dataBytes body.events)) : KeepsPace body := by
  obtain ⟨n, hafter⟩ := h.after
  rw [hafter.delivered, deliveries_complete_iff] at hall
  exact hafter.keepsPace hall

/-- What a task has got is a beginning of what there is. -/
theorem Reached.exists_due (h : Reached body t) :
    ∃ due, greedyOutcomes M (dataBytes body.events) = t.delivered ++ due := by
  obtain ⟨n, hafter⟩ := h.after
  obtain ⟨due, hdue⟩ := prefix_items_of_fed body n
  rw [hafter.delivered, greedyOutcomes, ← hdue, List.map_append]
  exact ⟨_, rfl⟩

theorem not_step_of_asleep (h : t.phase = .asleep) (u : Task M H) : ¬ Step t u := by
  intro hstep
  cases hstep <;> cases h

/-- The runs of a task do not branch, so all of them lead to where it is asleep. -/
theorem Reached.fallsAsleep (h : Reached body t) (hasleep : t.phase = .asleep)
    (hpace : ¬ KeepsPace body) : FallsAsleep body t where
  reached := h
  phase := hasleep
  stuck := not_step_of_asleep hasleep
  inevitable u hu := by
    have hunique : Relator.RightUnique (Step (M := M) (H := H)) := fun _ _ _ => Step.unique
    rcases Relation.ReflTransGen.total_of_right_unique hunique h hu with htu | hut
    · rcases htu.cases_head with rfl | ⟨v, hv, -⟩
      · exact .refl
      · exact absurd hv (not_step_of_asleep hasleep v)
    · exact hut
  missing := by
    obtain ⟨due, hdue⟩ := h.exists_due
    refine ⟨due, ?_, hdue⟩
    rintro rfl
    rw [List.append_nil] at hdue
    exact hpace (h.keepsPace hdue.symm)

/-- A task that waits for the stream alone gets all that is in a body exactly if the chunks keep
pace. Otherwise it falls asleep for good, in whatever run, with frames still to come. -/
theorem gets_all_iff (body : Body H) (heof : body.ending = .eof) :
    ((∃ t : Task M H, Reached body t ∧
        t.delivered = greedyOutcomes M (dataBytes body.events)) ↔ KeepsPace body) ∧
      (¬ KeepsPace body → ∃ t : Task M H, FallsAsleep body t) := by
  obtain ⟨k, t, hreached, hafter, hphase⟩ := exists_reached (M := M) heof
    (body.events.length + (framing.items (dataBytes body.events)).length)
  have hend : t.delivered = greedyOutcomes M (dataBytes body.events) ∨ t.phase = .asleep := by
    refine hphase.imp_left ?_
    rintro ⟨-, rfl⟩
    rw [hafter.delivered, deliveries_complete_iff]
    exact length_deliveries_fed heof
  refine ⟨⟨?_, fun hpace => ⟨t, hreached, ?_⟩⟩, fun hpace => ⟨t, ?_⟩⟩
  · rintro ⟨u, hu, hall⟩
    exact hu.keepsPace hall
  · rcases hend with hall | hasleep
    · exact hall
    · rw [hafter.delivered, deliveries_complete_iff]
      exact hafter.all_of_asleep hasleep hpace
  · have hasleep := hend.resolve_left fun hall => hpace (hreached.keepsPace hall)
    exact hreached.fallsAsleep hasleep hpace

/-- A chunk with two frames, and then one without any. -/
theorem gets_all_iff_bools :
    let body : Body HeaderList :=
      ⟨[.data [0, 0, 0, 0, 0, 0, 0, 0, 0, 0], .pending, .data []], .eof,
        fun _ => .ready (.ok none)⟩
    ((∃ t : Task Bool HeaderList, Reached body t ∧
        t.delivered = greedyOutcomes Bool (dataBytes body.events)) ↔ KeepsPace body) ∧
      (¬ KeepsPace body → ∃ t : Task Bool HeaderList, FallsAsleep body t) :=
  gets_all_iff _ rfl

end Task

end Streaming

end LieGrpc
