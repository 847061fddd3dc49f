import LieGrpc.Library.Abnf
import LieGrpc.Metadata

/-!
# The grammar of metadata

`insert` gives the grammar of names and values in its comments, and checks it character by
character. Both rules ask for one character at least; the loops are content with none.
-/

namespace LieGrpc

namespace MetadataMap

open Abnf (oneOrMore range literal)

/-- `Header-Name → 1*( %x30-39 / %x61-7A / "_" / "-" / ".")`. -/
def headerName : Language Char :=
  oneOrMore (range 0x30 0x39 + range 0x61 0x7A + literal '_' + literal '-' + literal '.')

/-- `ASCII-Value → 1*( %x20-%x7E )`. -/
def asciiValue : Language Char := oneOrMore (range 0x20 0x7E)

theorem mem_headerName_iff {name : String} :
    name.toList ∈ headerName ↔ name ≠ "" ∧ ∀ c ∈ name.toList, isNameChar c = true := by
  have hclass (c : Char) : isNameChar c = true ↔ ((((0x30 ≤ c.toNat ∧ c.toNat ≤ 0x39) ∨
      0x61 ≤ c.toNat ∧ c.toNat ≤ 0x7A) ∨ c = '_') ∨ c = '-') ∨ c = '.' := by
    simp [isNameChar, Char.le_def, UInt32.le_iff_toNat_le]
  unfold headerName range literal
  rw [Abnf.single_add, Abnf.single_add, Abnf.single_add, Abnf.single_add,
    Abnf.mem_oneOrMore_single]
  simp only [hclass, ne_eq, String.toList_eq_nil_iff]

theorem mem_asciiValue_iff {value : String} :
    value.toList ∈ asciiValue ↔ value ≠ "" ∧ ∀ c ∈ value.toList, isValueChar c = true := by
  have hclass (c : Char) : isValueChar c = true ↔ 0x20 ≤ c.toNat ∧ c.toNat ≤ 0x7E := by
    simp [isValueChar, Char.le_def, UInt32.le_iff_toNat_le]
  unfold asciiValue range
  rw [Abnf.mem_oneOrMore_single]
  simp only [hclass, ne_eq, String.toList_eq_nil_iff]

/-- What an insertion is documented to do. -/
structure InsertsDocumented (m : MetadataMap) (name value : String) : Prop where
  accepts : (m.insert name value).1 = .ok () ↔
    name.toList ∈ headerName ∧ ¬ resreverNamePrefix.toList <+: name.toList ∧
      value.toList ∈ asciiValue
  rejected : (m.insert name value).1 ≠ .ok () → (m.insert name value).2 = m
  inserted : (m.insert name value).1 = .ok () →
    (m.insert name value).2.get name = some ((m.get name).getD [] ++ [value]) ∧
      ∀ other, other ≠ name → (m.insert name value).2.get other = m.get other

theorem insert_eq_ok_iff_checks (m : MetadataMap) (name value : String) :
    (m.insert name value).1 = .ok () ↔ ¬ resreverNamePrefix.toList <+: name.toList ∧
      (∀ c ∈ name.toList, isNameChar c = true) ∧ ∀ c ∈ value.toList, isValueChar c = true := by
  rw [insert_eq_ok_iff, isValidName, isValidValue, Bool.and_eq_true, Bool.and_eq_true,
    Bool.not_eq_true', List.all_eq_true, List.all_eq_true, ← Bool.not_eq_true,
    List.isPrefixOf_iff_prefix, and_assoc]

/-- A rejected insertion changes nothing, and an accepted one appends. -/
theorem insert_effect (m : MetadataMap) (name value : String) :
    ((m.insert name value).1 ≠ .ok () → (m.insert name value).2 = m) ∧
      ((m.insert name value).1 = .ok () →
        (m.insert name value).2.get name = some ((m.get name).getD [] ++ [value]) ∧
          ∀ other, other ≠ name → (m.insert name value).2.get other = m.get other) := by
  rw [Ne, insert_eq_ok_iff]
  constructor
  · intro hrej
    exact insert_of_invalid m (by simpa using hrej)
  · intro hacc
    refine ⟨by rw [get_insert, if_pos ⟨rfl, hacc⟩]; rfl, fun other hother => ?_⟩
    rw [get_insert, if_neg fun h => hother h.1.symm]
    rfl

/-- An insertion does what is documented unless all that is wrong with it is an empty name or
an empty value. -/
theorem insertsDocumented_iff (m : MetadataMap) (name value : String) :
    InsertsDocumented m name value ↔
      (name ≠ "" ∧ value ≠ "") ∨ resreverNamePrefix.toList <+: name.toList ∨
        (∃ c ∈ name.toList, isNameChar c = false) ∨
        ∃ c ∈ value.toList, isValueChar c = false := by
  obtain ⟨hrejected, hinserted⟩ := insert_effect m name value
  have hname : (∃ c ∈ name.toList, isNameChar c = false) ↔
      ¬ ∀ c ∈ name.toList, isNameChar c = true := by simp
  have hvalue : (∃ c ∈ value.toList, isValueChar c = false) ↔
      ¬ ∀ c ∈ value.toList, isValueChar c = true := by simp
  have haccepts : InsertsDocumented m name value ↔ ((m.insert name value).1 = .ok () ↔
      name.toList ∈ headerName ∧ ¬ resreverNamePrefix.toList <+: name.toList ∧
        value.toList ∈ asciiValue) := ⟨fun h => h.accepts, fun h => ⟨h, hrejected, hinserted⟩⟩
  rw [haccepts, insert_eq_ok_iff_checks, mem_headerName_iff, mem_asciiValue_iff, hname, hvalue]
  generalize (resreverNamePrefix.toList <+: name.toList) = reserved
  generalize (∀ c ∈ name.toList, isNameChar c = true) = validName
  generalize (∀ c ∈ value.toList, isValueChar c = true) = validValue
  grind

/-- An empty name and an empty value are accepted. -/
theorem not_insertsDocumented_empty :
    ¬ ∀ (m : MetadataMap) (name value : String), InsertsDocumented m name value := by
  intro h
  have hok : (MetadataMap.new.insert "" "").1 = .ok () :=
    (insert_eq_ok_iff _ "" "").mpr (by decide)
  have hname := ((h .new "" "").accepts.mp hok).1
  rw [mem_headerName_iff] at hname
  exact hname.1 rfl

end MetadataMap

end LieGrpc
