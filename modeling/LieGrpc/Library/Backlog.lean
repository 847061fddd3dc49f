import LieGrpc.Library.Chunked

/-!
# The backlog of a reader

A paced reader delivers one item a chunk at most, so it falls behind where its chunks complete
more. How far is decided by the worst window of consecutive chunks: the items that they complete
beyond one each. Where they complete fewer, a reader that may not ask again until it has
delivered something gets stuck.
-/

variable {α ω ε : Type*}

namespace Incremental

variable {P : Incremental α ω ε}

theorem paced_append (b : List α) (cs ds : List (List α)) :
    P.paced b (cs ++ ds) =
      ((P.paced b cs).1 ++ (P.paced (P.paced b cs).2 ds).1, (P.paced (P.paced b cs).2 ds).2) := by
  induction cs generalizing b with
  | nil => rfl
  | cons c cs ih => simp [paced, ih]

/-- At most `k` items wait in the buffer exactly if, after every beginning of the chunks, the
items still to be completed outnumber the chunks still to come by at most `k`. -/
theorem length_items_paced_le_iff (cs : List (List α)) (k : Nat) :
    (P.items (P.paced [] cs).2).length ≤ k ↔
      ∀ pre post, cs = pre ++ post →
        (P.items cs.flatten).length ≤ (P.items pre.flatten).length + post.length + k := by
  have hsum := congrArg List.length (deliveries_append_items (P := P) [] cs)
  rw [List.length_append, List.nil_append] at hsum
  calc (P.items (P.paced [] cs).2).length ≤ k
      ↔ (P.items cs.flatten).length - k ≤ (P.deliveries [] cs).length := by omega
    _ ↔ ∀ pre post, cs = pre ++ post →
          (P.items cs.flatten).length - k ≤ (P.items pre.flatten).length + post.length :=
        le_length_deliveries_iff cs _
    _ ↔ _ := by simp only [Nat.sub_le_iff_le_add]

/-- Asking on adds nothing to what waits. -/
theorem length_items_asked_on (b : List α) (cs : List (List α)) (n : Nat) :
    (P.items (P.paced b (cs ++ List.replicate n [])).2).length ≤
      (P.items (P.paced b cs).2).length := by
  have hsplit := congrArg List.length
    (deliveries_append_items (P := P) (P.paced b cs).2 (List.replicate n []))
  have hflat : (List.replicate n ([] : List α)).flatten = [] := by simp
  rw [hflat, List.append_nil, List.length_append] at hsplit
  rw [paced_append]
  dsimp only
  omega

/-- The backlog never exceeds `k` exactly if no window of chunks completes more items than it
has chunks, and `k` more. -/
theorem backlog_le_iff (cs : List (List α)) (k : Nat) :
    (∀ seen unread, cs = seen ++ unread → (P.items (P.paced [] seen).2).length ≤ k) ↔
      ∀ pre window post, cs = pre ++ window ++ post →
        (P.items (pre ++ window).flatten).length ≤
          (P.items pre.flatten).length + window.length + k := by
  constructor
  · intro h pre window post hs
    exact (length_items_paced_le_iff _ k).mp (h _ _ hs) pre window rfl
  · intro h seen unread hs
    refine (length_items_paced_le_iff seen k).mpr fun pre window hseen => ?_
    rw [hseen] at hs ⊢
    exact h pre window unread hs

theorem deliveries_append (b : List α) (cs ds : List (List α)) :
    P.deliveries b (cs ++ ds) = P.deliveries b cs ++ P.deliveries (P.paced b cs).2 ds := by
  simp [deliveries, paced_append]

theorem length_deliveries_le (b : List α) (cs : List (List α)) :
    (P.deliveries b cs).length ≤ cs.length :=
  ((le_length_deliveries_iff_from b cs _).mp (Nat.le_refl _)).1

/-- Attempts of which none needs more input have delivered an item each, or all there are. -/
theorem min_le_length_deliveries {b : List α} {cs : List (List α)}
    (h : .more ∉ (P.paced b cs).1) (c : List α) :
    min cs.length (P.items (b ++ (cs.flatten ++ c))).length ≤ (P.deliveries b cs).length := by
  induction cs generalizing b with
  | nil => simp
  | cons d cs ih =>
    simp only [paced, List.mem_cons, not_or] at h
    have hrest := ih h.2
    rw [List.flatten_cons, List.append_assoc, items_advance, deliveries_cons]
    cases ha : P.attempt (b ++ d) with
    | more => exact absurd ha.symm h.1
    | halt e =>
      rw [Attempt.advance_halt, items_of_halt ha (cs.flatten ++ c)]
      simp
    | item o n =>
      rw [ha] at hrest
      simp only [Attempt.item?_item, Option.toList_some, List.length_append, List.length_cons,
        List.length_nil]
      omega

/-- An attempt that needs more input shows that all items have been delivered. -/
theorem deliveries_of_more {b c : List α} {cs : List (List α)}
    (h : P.attempt ((P.paced b cs).2 ++ c) = .more) :
    P.deliveries b cs = P.items (b ++ (cs ++ [c]).flatten) := by
  have hnone : P.items ((P.paced b cs).2 ++ c) = [] := items_of_stop (by simp [h])
  have hall := (paced_consumes (P := P) b cs).feed c
  have hitems := hall.items
  rw [hnone, List.append_nil, List.append_assoc] at hitems
  simpa using hitems.symm

end Incremental
