import LieGrpc.StatusWire

/-!
# The two parsers of a code

`from_bytes` matches one or two digits by hand and accepts the numerals of the codes and
nothing else. `from_str` goes through the integer parser of the standard library, which also
takes a plus sign and any number of zeros before the numeral.
-/

namespace LieGrpc

namespace Code

theorem fromStr_eq_ok_iff {s : String} {c : Code} :
    Code.fromStr s = .ok c ↔
      ∃ plus zeros, s.toList = plusSign plus ++ Decimal.zeroPadded zeros c.value := by
  constructor
  · intro h
    cases hv : parseU8 s with
    | error e => simp [Code.fromStr, hv] at h
    | ok v =>
      rw [Code.fromStr, hv] at h
      rw [← tryFrom_eq_ok_iff.mp h]
      exact parseU8_eq_ok_iff.mp hv
  · intro h
    have hval : (UInt8.ofNat c.value).toNat = c.value := by cases c <;> rfl
    rw [← hval, ← parseU8_eq_ok_iff] at h
    rw [Code.fromStr, h]
    exact tryFrom_eq_ok_iff.mpr hval

/-- The numeral of a code with a sign or some zeros before it. -/
def spelling (plus : Bool) (zeros : Nat) (c : Code) : String :=
  String.ofList (plusSign plus ++ Decimal.zeroPadded zeros c.value)

/-- Both parsers read the canonical numerals of the codes and nothing else. -/
structure ParsersAgree (s : String) : Prop where
  same : ∀ c, Code.fromStr s = .ok c ↔ Code.fromBytes (utf8 s) = .ok c
  fromBytes : ∀ c, Code.fromBytes (utf8 s) = .ok c ↔ s = toString c.value
  fromStr : ∀ c, Code.fromStr s = .ok c ↔ s = toString c.value

theorem fromBytes_utf8_eq_ok_iff {s : String} {c : Code} :
    Code.fromBytes (utf8 s) = .ok c ↔ s = toString c.value := by
  rw [fromBytes_eq_ok_iff, utf8_inj]

theorem fromStr_eq_ok_iff_spelling {s : String} {c : Code} :
    Code.fromStr s = .ok c ↔ ∃ plus zeros, s = spelling plus zeros c := by
  simp only [fromStr_eq_ok_iff, spelling, ← String.toList_inj, String.toList_ofList]

theorem spelling_eq_toString_iff {plus : Bool} {zeros : Nat} {c : Code} :
    spelling plus zeros c = toString c.value ↔ plus = false ∧ zeros = 0 := by
  rw [← String.toList_inj, spelling, String.toList_ofList, Decimal.zeroPadded, ← List.append_assoc,
    Nat.toString_eq_repr, Nat.toList_repr, List.append_left_eq_self]
  cases plus <;> simp [plusSign]

/-- The parsers agree on every string that is not the numeral of a code behind a sign or a
zero. -/
theorem parsersAgree_iff (s : String) :
    ParsersAgree s ↔ ∀ plus zeros c, s = spelling plus zeros c → plus = false ∧ zeros = 0 := by
  constructor
  · intro h plus zeros c hs
    have hcanonical := (h.fromStr c).mp (fromStr_eq_ok_iff_spelling.mpr ⟨plus, zeros, hs⟩)
    exact spelling_eq_toString_iff.mp (hs.symm.trans hcanonical)
  · intro h
    have hfromStr (c : Code) : Code.fromStr s = .ok c ↔ s = toString c.value := by
      rw [fromStr_eq_ok_iff_spelling]
      constructor
      · rintro ⟨plus, zeros, hs⟩
        exact hs.trans (spelling_eq_toString_iff.mpr (h plus zeros c hs))
      · intro hs
        exact ⟨false, 0, hs.trans (spelling_eq_toString_iff.mpr ⟨rfl, rfl⟩).symm⟩
    refine ⟨fun c => ?_, fun c => fromBytes_utf8_eq_ok_iff, hfromStr⟩
    rw [hfromStr, fromBytes_utf8_eq_ok_iff]

/-- A plus sign: `from_str` reads a code where `from_bytes` reads none. -/
theorem not_parsersAgree_plus : ¬ ∀ s, ParsersAgree s := by
  intro h
  have hread := ((h "+1").same .cancelled).mp rfl
  cases hread

end Code

end LieGrpc
