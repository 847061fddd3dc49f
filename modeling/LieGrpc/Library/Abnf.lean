import Mathlib.Computability.Language

/-!
# Grammar rules in the manner of ABNF

A rule is the language of the texts that it describes, and an alternative is a sum. Repeated at
least once, a class of characters describes the nonempty texts over this class.
-/

namespace Abnf

variable {α : Type*}

/-- One character of a class. -/
def single (p : α → Prop) : Language α := {s | ∃ a, s = [a] ∧ p a}

/-- The rule `1*l`. -/
def oneOrMore (l : Language α) : Language α := l * KStar.kstar l

/-- The characters from one code to another, as in `%x30-39`. -/
def range (lo hi : Nat) : Language Char := single fun c => lo ≤ c.toNat ∧ c.toNat ≤ hi

/-- A character in quotation marks. -/
def literal (c : Char) : Language Char := single fun d => d = c

theorem mem_single {p : α → Prop} {s : List α} : s ∈ single p ↔ ∃ a, s = [a] ∧ p a := Iff.rfl

/-- An alternative of classes is a class. -/
theorem single_add (p q : α → Prop) : single p + single q = single fun a => p a ∨ q a := by
  ext s
  rw [Language.mem_add, mem_single, mem_single, mem_single]
  grind

theorem mem_kstar_single {p : α → Prop} {s : List α} :
    s ∈ KStar.kstar (single p) ↔ ∀ a ∈ s, p a := by
  constructor
  · intro h a ha
    obtain ⟨words, rfl, hwords⟩ := Language.mem_kstar.mp h
    obtain ⟨word, hword, ha⟩ := List.mem_flatten.mp ha
    obtain ⟨b, rfl, hb⟩ := mem_single.mp (hwords word hword)
    obtain rfl := List.mem_singleton.mp ha
    exact hb
  · intro h
    have hflat : s = (s.map fun a => [a]).flatten := by
      rw [← List.flatMap_def, List.flatMap_singleton']
    refine Language.mem_kstar.mpr ⟨_, hflat, ?_⟩
    simpa [mem_single] using h

theorem mem_oneOrMore_single {p : α → Prop} {s : List α} :
    s ∈ oneOrMore (single p) ↔ s ≠ [] ∧ ∀ a ∈ s, p a := by
  rw [oneOrMore, Language.mem_mul]
  simp only [mem_single, mem_kstar_single]
  constructor
  · rintro ⟨_, ⟨a, rfl, ha⟩, rest, hrest, rfl⟩
    exact ⟨by simp, by simpa using ⟨ha, hrest⟩⟩
  · rintro ⟨hne, hall⟩
    obtain ⟨a, rest, rfl⟩ := List.exists_cons_of_ne_nil hne
    rw [List.forall_mem_cons] at hall
    exact ⟨[a], ⟨a, rfl, hall.1⟩, rest, hall.2, rfl⟩

end Abnf
