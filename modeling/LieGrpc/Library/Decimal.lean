import Mathlib.Data.List.Induction

/-!
# Decimal numerals

Strings of decimal digits as the numerals of numbers. A number has one numeral without
superfluous zeros, `Nat.toDigits 10`; every other string of digits with the same value is
that numeral behind some zeros.
-/

namespace Decimal

/-- The numeral of a number with some zeros before it. -/
def zeroPadded (zeros n : Nat) : List Char := List.replicate zeros '0' ++ Nat.toDigits 10 n

/-- A nonempty string of digits. -/
def IsNumeral (cs : List Char) : Prop := cs ≠ [] ∧ ∀ c ∈ cs, c.isDigit = true

/-- The number that some digits stand for. -/
def value (cs : List Char) : Nat := Nat.ofDigitChars 10 cs 0

theorem isDigit_iff {c : Char} : c.isDigit = true ↔ 48 ≤ c.toNat ∧ c.toNat ≤ 57 :=
  Char.isDigit_iff_toNat

theorem toDigits_digit {c : Char} (h : c.isDigit = true) :
    Nat.toDigits 10 (c.toNat - 48) = [c] := by
  rw [isDigit_iff] at h
  have hlt : c.toNat - 48 < 10 := by omega
  rw [Nat.toDigits_of_lt_base hlt]
  refine congrArg (fun d => [d]) (Char.toNat_inj.mp ?_)
  rw [Nat.toNat_digitChar_of_lt_ten hlt]
  omega

theorem value_concat (cs : List Char) (c : Char) :
    value (cs ++ [c]) = 10 * value cs + (c.toNat - 48) := by
  simp [value, Nat.ofDigitChars_append, Nat.ofDigitChars_cons]

theorem isNumeral_zeroPadded (zeros n : Nat) : IsNumeral (zeroPadded zeros n) := by
  refine ⟨by simp [zeroPadded], fun c hc => ?_⟩
  rcases List.mem_append.mp hc with hzero | hdigit
  · obtain rfl := List.eq_of_mem_replicate hzero
    rfl
  · exact Nat.isDigit_of_mem_toDigits (by decide) (by decide) hdigit

@[simp] theorem zeroPadded_ne_nil (zeros n : Nat) : zeroPadded zeros n ≠ [] :=
  (isNumeral_zeroPadded zeros n).1

/-- No numeral starts with a sign. -/
theorem cons_ne_zeroPadded {c : Char} (hc : c.isDigit = false) (cs : List Char) (zeros n : Nat) :
    c :: cs ≠ zeroPadded zeros n := by
  intro h
  have hdigit := (isNumeral_zeroPadded zeros n).2 c (by simp [← h])
  rw [hc] at hdigit
  cases hdigit

theorem value_zeroPadded (zeros n : Nat) : value (zeroPadded zeros n) = n := by
  simp [value, zeroPadded, Nat.ofDigitChars_append]

/-- Every numeral is the one of its value behind some zeros. -/
theorem exists_zeroPadded {cs : List Char} (h : IsNumeral cs) :
    ∃ zeros, cs = zeroPadded zeros (value cs) := by
  obtain ⟨hne, hdigits⟩ := h
  induction cs using List.reverseRecOn with
  | nil => contradiction
  | append_singleton cs c ih =>
    have hc : c.isDigit = true := hdigits c (by simp)
    rw [value_concat]
    by_cases hnil : cs = []
    · subst hnil
      exact ⟨0, by simp [zeroPadded, value, toDigits_digit hc]⟩
    obtain ⟨zeros, hcs⟩ := ih hnil fun d hd => hdigits d (by simp [hd])
    by_cases hzero : value cs = 0
    · -- all digits before are zeros, the last of them the numeral of zero
      refine ⟨zeros + 1, ?_⟩
      rw [hzero] at hcs ⊢
      rw [hcs, zeroPadded, zeroPadded, Nat.mul_zero, Nat.zero_add, toDigits_digit hc,
        Nat.toDigits_zero, List.replicate_succ']
    · refine ⟨zeros, ?_⟩
      have hlt : c.toNat - 48 < 10 := by
        rw [isDigit_iff] at hc
        omega
      have hsplit := Nat.toDigits_append_toDigits (b := 10) (by decide)
        (Nat.pos_of_ne_zero hzero) hlt
      rw [toDigits_digit hc] at hsplit
      rw [zeroPadded, ← hsplit, ← List.append_assoc]
      exact congrArg (· ++ [c]) hcs

theorem value_eq_iff {cs : List Char} {n : Nat} :
    IsNumeral cs ∧ value cs = n ↔ ∃ zeros, cs = zeroPadded zeros n := by
  constructor
  · rintro ⟨h, rfl⟩
    exact exists_zeroPadded h
  · rintro ⟨zeros, rfl⟩
    exact ⟨isNumeral_zeroPadded zeros n, value_zeroPadded zeros n⟩

end Decimal
