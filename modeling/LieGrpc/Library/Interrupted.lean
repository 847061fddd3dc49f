import LieGrpc.Library.Chunked

/-!
# Readers whose input is interrupted

A reader that makes one attempt after each chunk, and passes on whatever else its input has
between the chunks. The interruptions do not reach the buffer: without them the verdicts are
those of a paced reader of the chunks, and without the verdicts they are what they were.
-/

variable {α ω ε ζ : Type*}

namespace Incremental

variable (P : Incremental α ω ε)

/-- One answer to each part of the input, and the buffer that is left. -/
def relay : List α → List (ζ ⊕ List α) → List (ζ ⊕ Attempt ω ε) × List α
  | b, [] => ([], b)
  | b, .inl z :: is =>
    let r := relay b is
    (.inl z :: r.1, r.2)
  | b, .inr c :: is =>
    let v := P.attempt (b ++ c)
    let r := relay (v.advance (b ++ c)) is
    (.inr v :: r.1, r.2)

variable {P}

@[simp] theorem relay_nil (b : List α) : P.relay (ζ := ζ) b [] = ([], b) := rfl

@[simp] theorem relay_inl (b : List α) (z : ζ) (is : List (ζ ⊕ List α)) :
    P.relay b (.inl z :: is) = (.inl z :: (P.relay b is).1, (P.relay b is).2) := rfl

theorem relay_append (b : List α) (is js : List (ζ ⊕ List α)) :
    P.relay b (is ++ js) =
      ((P.relay b is).1 ++ (P.relay (P.relay b is).2 js).1, (P.relay (P.relay b is).2 js).2) := by
  induction is generalizing b with
  | nil => rfl
  | cons i is ih => cases i <;> simp [relay, ih]

/-- The interruptions pass, each once and in their order. -/
theorem interruptions_relay (b : List α) (is : List (ζ ⊕ List α)) :
    (P.relay b is).1.filterMap Sum.getLeft? = is.filterMap Sum.getLeft? := by
  induction is generalizing b with
  | nil => rfl
  | cons i is ih => cases i <;> simp [relay, ih, List.filterMap_cons]

/-- The chunks are read as if nothing were between them. -/
theorem relay_paced (b : List α) (is : List (ζ ⊕ List α)) :
    (P.relay b is).1.filterMap Sum.getRight? = (P.paced b (is.filterMap Sum.getRight?)).1 ∧
      (P.relay b is).2 = (P.paced b (is.filterMap Sum.getRight?)).2 := by
  induction is generalizing b with
  | nil => exact ⟨rfl, rfl⟩
  | cons i is ih => cases i <;> simp [relay, paced, ih, List.filterMap_cons]

/-- Input without interruptions. -/
theorem relay_map_inr (b : List α) (cs : List (List α)) :
    P.relay (ζ := ζ) b (cs.map .inr) = ((P.paced b cs).1.map .inr, (P.paced b cs).2) := by
  induction cs generalizing b with
  | nil => rfl
  | cons c cs ih => simp [relay, paced, ih]

end Incremental
