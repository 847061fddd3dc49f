import Mathlib.Data.Int.CardIntervalMod
import Mathlib.Algebra.BigOperators.Group.Finset.Sigma

/-!
# Residues of a range of numbers

How often the numbers below `total` have each residue modulo `n`: as often as each other, up to
one.
-/

namespace LieGrpc

/-- How many of the numbers below `total` have the residue `i` modulo `n`. -/
def share (total n i : Nat) : Nat := total / n + if i < total % n then 1 else 0

theorem share_le_succ (total n i j : Nat) : share total n i ≤ share total n j + 1 := by
  unfold share
  split <;> split <;> omega

theorem card_filter_mod_eq {total n i : Nat} (hi : i < n) :
    ((Finset.range total).filter fun d => d % n = i).card = share total n i := by
  have hcount := Nat.count_modEq_card total (Nat.zero_lt_of_lt hi) i
  rw [Nat.count_eq_card_filter_range, Nat.mod_eq_of_lt hi] at hcount
  rw [share, ← hcount]
  congr 1
  ext d
  simp [Nat.ModEq, Nat.mod_eq_of_lt hi]

/-- A property of residues is counted residue by residue. -/
theorem count_mod_eq_sum {total n : Nat} (hn : 0 < n) (p : Nat → Prop) [DecidablePred p] :
    total.count (fun d => p (d % n)) =
      ∑ i ∈ Finset.range n, if p i then share total n i else 0 := by
  rw [Nat.count_eq_card_filter_range, Finset.card_eq_sum_card_fiberwise (f := (· % n))
    (t := Finset.range n) fun d _ => by simpa using Nat.mod_lt d hn]
  refine Finset.sum_congr rfl fun i hi => ?_
  rw [Finset.filter_filter]
  split
  case isTrue hp =>
    rw [← card_filter_mod_eq (Finset.mem_range.mp hi)]
    congr 1
    ext d
    simp only [Finset.mem_filter, and_congr_right_iff, and_iff_right_iff_imp]
    rintro - rfl
    exact hp
  case isFalse hp =>
    rw [Finset.card_eq_zero, Finset.filter_eq_empty_iff]
    rintro d - ⟨hd, rfl⟩
    exact hp hd

end LieGrpc
