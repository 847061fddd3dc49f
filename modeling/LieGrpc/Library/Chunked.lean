import LieGrpc.Library.Incremental

/-!
# Readers of chunked input

`paced` gives the verdicts of a reader that appends each chunk to its buffer and then
asks the parser once. Whatever the chunks are, the items it delivers are the beginning
of the greedy parse of everything received (`paced_consumes`). They are all of it
exactly when the reader is never further behind than the chunks still to come
(`paced_complete_iff`): a chunk that completes several items is made up for only by
later chunks that complete none.

A reader that drains its buffer after each chunk reports what draining the complete
input reports, if a repeated refusal is counted once (`onceRefused_feedLog`).
-/

variable {α ω ε : Type*}

namespace Incremental

variable (P : Incremental α ω ε)

/-- The verdicts of one attempt after each chunk, and the buffer that is left. -/
def paced : List α → List (List α) → List (Attempt ω ε) × List α
  | b, [] => ([], b)
  | b, c :: cs =>
    let v := P.attempt (b ++ c)
    let r := paced (v.advance (b ++ c)) cs
    (v :: r.1, r.2)

/-- The items among the verdicts of a paced reader. -/
def deliveries (b : List α) (cs : List (List α)) : List ω :=
  (P.paced b cs).1.filterMap Attempt.item?

variable {P}

@[simp] theorem paced_nil (b : List α) : P.paced b [] = ([], b) := rfl

@[simp] theorem deliveries_nil (b : List α) : P.deliveries b [] = [] := rfl

theorem deliveries_cons (b c : List α) (cs : List (List α)) :
    P.deliveries b (c :: cs) = (P.attempt (b ++ c)).item?.toList ++
      P.deliveries ((P.attempt (b ++ c)).advance (b ++ c)) cs := by
  cases h : (P.attempt (b ++ c)).item? <;> simp [deliveries, paced, h]

theorem paced_consumes (b : List α) (cs : List (List α)) :
    P.Consumes (b ++ cs.flatten) (P.deliveries b cs) (P.paced b cs).2 := by
  induction cs generalizing b with
  | nil => simpa using Consumes.refl b
  | cons c cs ih =>
    have hc := (Consumes.advance P (b ++ c)).feed cs.flatten
    rw [deliveries_cons, List.flatten_cons, ← List.append_assoc]
    exact hc.trans (ih _)

/-- Nothing is lost between the deliveries and the buffer. -/
theorem deliveries_append_items (b : List α) (cs : List (List α)) :
    P.deliveries b cs ++ P.items (P.paced b cs).2 = P.items (b ++ cs.flatten) :=
  (paced_consumes b cs).items.symm

theorem deliveries_prefix (b : List α) (cs : List (List α)) :
    P.deliveries b cs <+: P.items (b ++ cs.flatten) := ⟨_, deliveries_append_items b cs⟩

/-- A reader is refused nothing if the complete input ends undecided. -/
theorem paced_not_halt (b : List α) (cs : List (List α))
    (h : P.attempt (P.rest (b ++ cs.flatten)) = .more) (e : ε) :
    .halt e ∉ (P.paced b cs).1 := by
  induction cs generalizing b with
  | nil => simp
  | cons c cs ih =>
    rw [List.flatten_cons, ← List.append_assoc] at h
    simp only [paced, List.mem_cons, not_or]
    refine ⟨(not_halt_of_rest h e).symm, ih _ ?_⟩
    rwa [← ((Consumes.advance P (b ++ c)).feed cs.flatten).rest]

/-- One attempt moves at most one item from the buffer to the deliveries. -/
theorem items_advance (b c x : List α) :
    P.items (b ++ (c ++ x)) = (P.attempt (b ++ c)).item?.toList ++
      P.items ((P.attempt (b ++ c)).advance (b ++ c) ++ x) := by
  rw [← List.append_assoc]
  exact ((Consumes.advance P (b ++ c)).feed x).items

/-- Every nonempty beginning of a nonempty list starts with its head. -/
private theorem forall_splits_cons {β : Type*} {c : β} {cs : List β} {Q : List β → List β → Prop} :
    (∀ pre post, c :: cs = pre ++ post → pre ≠ [] → Q pre post) ↔
      ∀ pre post, cs = pre ++ post → Q (c :: pre) post := by
  refine ⟨fun h pre post hs => h (c :: pre) post (by simp [hs]) (by simp), ?_⟩
  rintro h pre post hs hne
  obtain ⟨rfl, -⟩ | ⟨pre', rfl, hcs⟩ := List.cons_eq_append_iff.mp hs
  · exact absurd rfl hne
  · exact h pre' post hcs

/-- An attempt delivers one item, or shows that there was none to deliver. -/
theorem attempt_delivers_or_empty (b : List α) :
    (P.attempt b).item?.toList.length = 1 ∨
      (P.attempt b).item?.toList.length = 0 ∧ P.items ((P.attempt b).advance b) = [] := by
  cases h : P.attempt b with
  | item o n => exact .inl rfl
  | _ => exact .inr ⟨rfl, items_of_stop (by simp [h])⟩

/-- The induction behind `le_length_deliveries_iff`, with items already waiting in the buffer. -/
theorem le_length_deliveries_iff_from (b : List α) (cs : List (List α)) (k : Nat) :
    k ≤ (P.deliveries b cs).length ↔
      k ≤ cs.length ∧ ∀ pre post, cs = pre ++ post → pre ≠ [] →
        k ≤ (P.items (b ++ pre.flatten)).length + post.length := by
  induction cs generalizing b k with
  | nil => simp +contextual
  | cons c cs ih =>
    rw [forall_splits_cons]
    simp only [deliveries_cons, List.flatten_cons, items_advance, List.length_append,
      List.length_cons]
    have hv := attempt_delivers_or_empty (P := P) (b ++ c)
    -- what is due and what is complete drop together, by what this chunk delivered
    generalize (P.attempt (b ++ c)).item?.toList.length = d at hv ⊢
    generalize (P.attempt (b ++ c)).advance (b ++ c) = b' at hv ⊢
    have hrec := ih b' (k - d)
    constructor
    · intro hk
      obtain ⟨hdue, hpace⟩ := hrec.mp (by omega)
      refine ⟨by omega, fun pre post hs => ?_⟩
      rcases eq_or_ne pre [] with rfl | hne
      · simp only [List.nil_append] at hs
        subst hs
        omega
      · have := hpace pre post hs hne
        omega
    · rintro ⟨hdue, hpace⟩
      have hnow := hpace [] cs rfl
      have hlater : k - d ≤ (P.deliveries b' cs).length := by
        refine hrec.mpr ⟨?_, fun pre post hs _ => by have := hpace pre post hs; omega⟩
        rcases hv with rfl | ⟨rfl, hb'⟩
        · omega
        · simp only [List.flatten_nil, List.append_nil, hb', List.length_nil] at hnow
          omega
      omega

/-- A reader that starts empty delivers `k` items exactly if, after every beginning of the
chunks, the complete ones and the chunks still to come make up for `k`. -/
theorem le_length_deliveries_iff (cs : List (List α)) (k : Nat) :
    k ≤ (P.deliveries [] cs).length ↔
      ∀ pre post, cs = pre ++ post → k ≤ (P.items pre.flatten).length + post.length := by
  have h := le_length_deliveries_iff_from (P := P) [] cs k
  simp only [List.nil_append] at h
  rw [h]
  constructor
  · rintro ⟨hdue, hpace⟩ pre post hs
    rcases eq_or_ne pre [] with rfl | hne
    · obtain rfl : cs = post := hs
      simpa using hdue
    · exact hpace pre post hs hne
  · exact fun hall => ⟨by simpa using hall [] cs rfl, fun pre post hs _ => hall pre post hs⟩

/-- A reader that starts empty delivers the whole greedy parse exactly if, after every
beginning of the chunks, no more items are outstanding than chunks are still to come. -/
theorem paced_complete_iff (cs : List (List α)) :
    P.deliveries [] cs = P.items cs.flatten ↔
      ∀ pre post, cs = pre ++ post →
        (P.items cs.flatten).length ≤ (P.items pre.flatten).length + post.length := by
  have hpre : P.deliveries [] cs <+: P.items cs.flatten := deliveries_prefix [] cs
  rw [← le_length_deliveries_iff]
  exact ⟨fun h => h ▸ Nat.le_refl _, fun h => hpre.eq_of_length_le h⟩

/-- The items that are delivered are the first ones of the greedy parse. -/
theorem deliveries_eq_take (cs : List (List α)) :
    P.deliveries [] cs = (P.items cs.flatten).take (P.deliveries [] cs).length := by
  apply List.prefix_iff_eq_take.mp
  exact deliveries_prefix [] cs

/-- Asking on without new input makes up for any arrears, one item an attempt. -/
theorem deliveries_asked_on {cs : List (List α)} {k : Nat}
    (h : (P.items cs.flatten).length ≤ k) :
    P.deliveries [] (cs ++ List.replicate k []) = P.items cs.flatten := by
  have hflat : (cs ++ List.replicate k []).flatten = cs.flatten := by simp
  have hpaced := (paced_complete_iff (P := P) (cs ++ List.replicate k [])).mpr
  rw [hflat] at hpaced
  refine hpaced fun pre post hs => ?_
  rcases List.append_eq_append_iff.mp hs with ⟨a, rfl, ha⟩ | ⟨c, rfl, rfl⟩
  · have hempty : a.flatten = [] := by
      rw [List.flatten_eq_nil_iff]
      intro x hx
      exact List.eq_of_mem_replicate (ha ▸ List.mem_append_left post hx)
    rw [List.flatten_append, hempty, List.append_nil]
    omega
  · simp only [List.length_append, List.length_replicate]
    omega

/-! ## Readers that drain -/

/-- The log of draining a buffer: its items, and the refusal it ends at if there is one. -/
def drainLog (P : Incremental α ω ε) (b : List α) : List (ω ⊕ ε) :=
  (P.items b).map .inl ++
    match P.attempt (P.rest b) with
    | .halt e => [.inr e]
    | _ => []

/-- Append each chunk and drain before the next: the logs one after another. -/
def feedLog (P : Incremental α ω ε) : List α → List (List α) → List (ω ⊕ ε) × List α
  | b, [] => ([], b)
  | b, c :: cs =>
    let r := feedLog P (P.rest (b ++ c)) cs
    (P.drainLog (b ++ c) ++ r.1, r.2)

/-- Keep the first refusal of a log and forget the later ones. -/
def onceRefused : List (ω ⊕ ε) → List (ω ⊕ ε)
  | [] => []
  | .inl o :: l => .inl o :: onceRefused l
  | .inr e :: l => .inr e :: l.filter Sum.isLeft

@[simp] theorem onceRefused_items_append (os : List ω) (l : List (ω ⊕ ε)) :
    onceRefused (os.map .inl ++ l) = os.map .inl ++ onceRefused l := by
  induction os with
  | nil => rfl
  | cons o os ih => simp [onceRefused, ih]

theorem feedLog_rest (b : List α) (cs : List (List α)) (hb : (P.attempt b).item? = none) :
    (P.feedLog b cs).2 = P.rest (b ++ cs.flatten) := by
  induction cs generalizing b with
  | nil => simp [feedLog, rest_of_stop hb]
  | cons c cs ih =>
    simp only [feedLog, ih _ (attempt_rest _), List.flatten_cons]
    rw [← List.append_assoc, ← rest_append]

theorem drainLog_append (b c : List α) :
    P.drainLog (b ++ c) = (P.items b).map .inl ++ P.drainLog (P.rest b ++ c) := by
  simp only [drainLog, items_append b c, rest_append b c, List.map_append, List.append_assoc]

theorem drainLog_of_halt {b : List α} {e : ε} (h : P.attempt b = .halt e) :
    P.drainLog b = [.inr e] := by
  have hs : (P.attempt b).item? = none := by simp [h]
  simp [drainLog, items_of_stop hs, rest_of_stop hs, h]

/-- After a refusal every further chunk is answered by the same refusal. -/
theorem feedLog_of_halt {b : List α} {e : ε} (h : P.attempt b = .halt e) (cs : List (List α)) :
    (P.feedLog b cs).1 = List.replicate cs.length (.inr e) := by
  induction cs generalizing b with
  | nil => rfl
  | cons c cs ih =>
    have hc := P.stable_halt h c
    have hrest : P.rest (b ++ c) = b ++ c := rest_of_stop (by simp [hc])
    simp [feedLog, drainLog_of_halt hc, hrest, ih hc, List.replicate_succ]

/-- Draining after every chunk is draining the whole at once. -/
theorem onceRefused_feedLog (b : List α) (cs : List (List α)) (hb : P.attempt b = .more) :
    onceRefused (P.feedLog b cs).1 = P.drainLog (b ++ cs.flatten) := by
  induction cs generalizing b with
  | nil =>
    have hs : (P.attempt b).item? = none := by simp [hb]
    simp [feedLog, onceRefused, drainLog, items_of_stop hs, rest_of_stop hs, hb]
  | cons c cs ih =>
    rw [List.flatten_cons, ← List.append_assoc]
    cases hr : P.attempt (P.rest (b ++ c)) with
    | item o n => have := attempt_rest (P := P) (b ++ c); simp [hr] at this
    | more =>
      have hlog : P.drainLog (b ++ c) = (P.items (b ++ c)).map .inl := by simp [drainLog, hr]
      rw [drainLog_append, ← ih _ hr]
      simp [feedLog, hlog]
    | halt e =>
      have hlog : P.drainLog (b ++ c) = (P.items (b ++ c)).map .inl ++ [.inr e] := by
        simp [drainLog, hr]
      -- what is fed behind the refusal neither adds to the items nor changes the answer
      have hbehind : P.drainLog (P.rest (b ++ c) ++ cs.flatten) = [.inr e] :=
        drainLog_of_halt (P.stable_halt hr _)
      rw [drainLog_append, hbehind]
      simp [feedLog, hlog, feedLog_of_halt hr, onceRefused]

end Incremental
