import LieGrpc.Library.Ascii
import LieGrpc.Library.Decimal
import Mathlib.Algebra.Group.Nat.Defs
import Mathlib.Data.List.Basic

/-!
# What the code uses of Rust's standard library

Byte strings are lists. A `Poll` is what asking a future or a stream gives. The conversions
modelled here, `str::as_bytes`, `String::from_utf8_lossy` and `u8::from_str`, follow their
documented behaviour.
-/

namespace LieGrpc

abbrev Bytes := List UInt8

inductive Poll (α : Type) where
  | ready (a : α)
  | pending
  deriving DecidableEq, Repr

/-- `str::as_bytes`. -/
def utf8 (s : String) : Bytes := s.toList.flatMap String.utf8EncodeChar

/-- Bytes in the character that a lead byte announces; zero if it announces none. -/
def utf8CharWidth (b : UInt8) : Nat :=
  if b < 0x80 then 1
  else if b < 0xC2 then 0
  else if b < 0xE0 then 2
  else if b < 0xF0 then 3
  else if b < 0xF5 then 4
  else 0

def isContinuation (b : UInt8) : Bool := 0x80 ≤ b && b ≤ 0xBF

/-- The second byte is narrower after four lead bytes: overlong forms, surrogates and
values beyond the last scalar value are excluded there. -/
def isSecondByte (lead b : UInt8) : Bool :=
  if lead = 0xE0 then 0xA0 ≤ b && b ≤ 0xBF
  else if lead = 0xED then 0x80 ≤ b && b ≤ 0x9F
  else if lead = 0xF0 then 0x90 ≤ b && b ≤ 0xBF
  else if lead = 0xF4 then 0x80 ≤ b && b ≤ 0x8F
  else isContinuation b

/-- How many bytes after `lead` still belong to the character it announces. -/
def validTail (lead : UInt8) (rest : Bytes) : Nat :=
  match utf8CharWidth lead, rest with
  | n + 2, b :: bs =>
    if isSecondByte lead b then ((bs.take n).takeWhile isContinuation).length + 1 else 0
  | _, _ => 0

def scalarValue (lead : UInt8) (tail : Bytes) : Nat :=
  tail.foldl (fun acc b => acc * 64 + b.toNat % 64)
    (if tail = [] then lead.toNat else lead.toNat % 2 ^ (6 - tail.length))

/-- Each maximal beginning of a character that is not completed becomes one U+FFFD. -/
def lossyChars : Nat → Bytes → List Char
  | 0, _ => []
  | _, [] => []
  | fuel + 1, b :: bs =>
    let n := validTail b bs
    let c := if n + 1 = utf8CharWidth b then Char.ofNat (scalarValue b (bs.take n)) else '\uFFFD'
    c :: lossyChars fuel (bs.drop n)

/-- `String::from_utf8_lossy`. Every character takes at least one byte. -/
def fromUtf8Lossy (bytes : Bytes) : String := String.ofList (lossyChars bytes.length bytes)

theorem utf8_toByteArray (s : String) : (utf8 s).toByteArray = s.toByteArray := by
  rw [← String.utf8Encode_toList]
  rfl

theorem utf8_inj {s t : String} : utf8 s = utf8 t ↔ s = t := by
  constructor
  · intro h
    have hbytes := congrArg List.toByteArray h
    rwa [utf8_toByteArray, utf8_toByteArray, String.toByteArray_inj] at hbytes
  · rintro rfl
    rfl

/-! ## ASCII text -/

theorem utf8_of_ascii {s : String} (h : ∀ c ∈ s.toList, c.toNat < 128) :
    utf8 s = s.toList.map fun c => UInt8.ofNat c.toNat := by
  rw [utf8]
  generalize s.toList = cs at h ⊢
  induction cs with
  | nil => rfl
  | cons c cs ih =>
    have hrest := ih fun d hd => h d (List.mem_cons_of_mem c hd)
    rw [List.flatMap_cons, hrest, utf8EncodeChar_of_ascii (h c List.mem_cons_self)]
    rfl

theorem lossyChars_of_ascii {fuel : Nat} {bs : Bytes} (h : ∀ b ∈ bs, b < 0x80)
    (hfuel : bs.length ≤ fuel) : lossyChars fuel bs = bs.map fun b => Char.ofNat b.toNat := by
  induction fuel generalizing bs with
  | zero =>
    obtain rfl : bs = [] := List.length_eq_zero_iff.mp (Nat.le_zero.mp hfuel)
    rfl
  | succ fuel ih =>
    cases bs with
    | nil => rfl
    | cons b bs =>
      have hwidth : utf8CharWidth b = 1 := if_pos (h b List.mem_cons_self)
      have htail : validTail b bs = 0 := by simp [validTail, hwidth]
      have hrest := ih (fun d hd => h d (List.mem_cons_of_mem b hd)) (Nat.le_of_succ_le_succ hfuel)
      simp [lossyChars, htail, hwidth, hrest, scalarValue]

/-- ASCII is read as it stands. -/
theorem fromUtf8Lossy_of_ascii {bs : Bytes} (h : ∀ b ∈ bs, b < 0x80) :
    fromUtf8Lossy bs = String.ofList (bs.map fun b => Char.ofNat b.toNat) :=
  congrArg String.ofList (lossyChars_of_ascii h (Nat.le_refl _))

theorem toNat_char_of_byte {b : UInt8} (h : b < 0x80) : (Char.ofNat b.toNat).toNat = b.toNat := by
  have hchar : ∀ n, n < 128 → (Char.ofNat n).toNat = n := by decide
  exact hchar b.toNat (UInt8.lt_iff_toNat_lt.mp h)

/-- The characters of ASCII bytes are ASCII. -/
theorem ascii_fromUtf8Lossy {bs : Bytes} (h : ∀ b ∈ bs, b < 0x80) :
    ∀ c ∈ (fromUtf8Lossy bs).toList, c.toNat < 128 := by
  rw [fromUtf8Lossy_of_ascii h, String.toList_ofList, List.forall_mem_map]
  intro b hb
  rw [toNat_char_of_byte (h b hb)]
  exact UInt8.lt_iff_toNat_lt.mp (h b hb)

theorem utf8_fromUtf8Lossy_of_ascii {bs : Bytes} (h : ∀ b ∈ bs, b < 0x80) :
    utf8 (fromUtf8Lossy bs) = bs := by
  rw [utf8_of_ascii (ascii_fromUtf8Lossy h), fromUtf8Lossy_of_ascii h, String.toList_ofList,
    List.map_map]
  refine (List.map_congr_left fun b hb => ?_).trans (List.map_id bs)
  simp [toNat_char_of_byte (h b hb)]

/-- ASCII text survives as bytes. -/
theorem fromUtf8Lossy_utf8_of_ascii {s : String} (h : ∀ c ∈ s.toList, c.toNat < 128) :
    fromUtf8Lossy (utf8 s) = s := by
  rw [← utf8_inj]
  apply utf8_fromUtf8Lossy_of_ascii
  rw [utf8_of_ascii h, List.forall_mem_map]
  intro c hc
  have := h c hc
  rw [UInt8.lt_iff_toNat_lt, UInt8.toNat_ofNat', Nat.mod_eq_of_lt (by omega)]
  exact this

/-! ## Text beyond ASCII -/

/-- The value of a lead byte and what follows it only grows with each byte. -/
theorem le_foldl_continuation (bs : Bytes) (acc : Nat) :
    acc * 64 ^ bs.length ≤ bs.foldl (fun acc b => acc * 64 + b.toNat % 64) acc := by
  induction bs generalizing acc with
  | nil => simp
  | cons b bs ih =>
    rw [List.foldl_cons, List.length_cons, Nat.pow_succ', ← Nat.mul_assoc]
    exact Nat.le_trans (Nat.mul_le_mul_right _ (Nat.le_add_right _ _)) (ih _)

/-- A character of `n + 2` bytes starts with a lead byte and a second byte that leave it no
shorter encoding. -/
theorem le_secondByte {lead b : UInt8} {n : Nat} (hwidth : utf8CharWidth lead = n + 2)
    (hb : isSecondByte lead b = true) :
    128 ≤ (lead.toNat % 2 ^ (6 - (n + 1)) * 64 + b.toNat % 64) * 64 ^ n := by
  have hlead := lead.toNat_lt
  have hsecond := b.toNat_lt
  simp only [utf8CharWidth, UInt8.lt_iff_toNat_lt, UInt8.reduceToNat] at hwidth
  simp only [isSecondByte, isContinuation, ← UInt8.toNat_inj, UInt8.le_iff_toNat_le,
    UInt8.reduceToNat] at hb
  split_ifs at hwidth
  · omega
  · obtain rfl : n = 0 := by omega
    omega
  · obtain rfl : n = 1 := by omega
    grind
  · obtain rfl : n = 2 := by omega
    grind

/-- Characters of more than one byte are beyond ASCII. -/
theorem le_scalarValue {lead : UInt8} {rest : Bytes} (hlead : 0x80 ≤ lead)
    (h : validTail lead rest + 1 = utf8CharWidth lead) :
    128 ≤ scalarValue lead (rest.take (validTail lead rest)) := by
  have hwide : ∃ n, utf8CharWidth lead = n + 2 := by
    have hnot : ¬ lead < 0x80 := by simpa using hlead
    unfold utf8CharWidth at h ⊢
    rw [if_neg hnot] at h ⊢
    split_ifs at h ⊢ <;> simp at *
  obtain ⟨n, hwidth⟩ := hwide
  cases rest with
  | nil => simp [validTail, hwidth] at h
  | cons b bs =>
    simp only [validTail, hwidth] at h ⊢
    by_cases hb : isSecondByte lead b
    · rw [if_pos hb] at h ⊢
      have hlen : ((bs.take n).takeWhile isContinuation).length = n := by omega
      have htake : (bs.take n).length = n := by
        have := (List.takeWhile_sublist isContinuation (l := bs.take n)).length_le
        have := List.length_take_le n bs
        omega
      rw [hlen, List.take_succ_cons, scalarValue, if_neg (by simp), List.length_cons, htake,
        List.foldl_cons]
      have hfold := le_foldl_continuation (bs.take n)
        (lead.toNat % 2 ^ (6 - (n + 1)) * 64 + b.toNat % 64)
      rw [htake] at hfold
      exact Nat.le_trans (le_secondByte hwidth hb) hfold
    · rw [if_neg hb] at h
      omega

theorem toNat_charOfNat (n : Nat) : (Char.ofNat n).toNat = n ∨ (Char.ofNat n).toNat = 0 := by
  by_cases h : n.isValidChar
  · have hchar : Char.ofNat n = Char.ofNatAux n h := dif_pos h
    rw [hchar]
    exact .inl rfl
  · have hchar : Char.ofNat n = ⟨0, .inl (by decide)⟩ := dif_neg h
    rw [hchar]
    exact .inr rfl

/-- Only ASCII is read as ASCII. The character zero is what an invalid value would become. -/
theorem ascii_of_lossyChars {fuel : Nat} {bs : Bytes} (hfuel : bs.length ≤ fuel)
    (h : ∀ c ∈ lossyChars fuel bs, 0 < c.toNat ∧ c.toNat < 128) : ∀ b ∈ bs, b < 0x80 := by
  induction fuel generalizing bs with
  | zero =>
    obtain rfl : bs = [] := List.length_eq_zero_iff.mp (Nat.le_zero.mp hfuel)
    simp
  | succ fuel ih =>
    cases bs with
    | nil => simp
    | cons b bs =>
      rw [lossyChars, List.forall_mem_cons] at h
      obtain ⟨hc, hrest⟩ := h
      have hb : b < 0x80 := by
        by_contra hlead
        rw [UInt8.not_lt] at hlead
        split at hc
        · next hcomplete =>
          have hle := le_scalarValue hlead hcomplete
          have hval := toNat_charOfNat (scalarValue b (bs.take (validTail b bs)))
          omega
        · exact absurd hc (by decide)
      have hwidth : utf8CharWidth b = 1 := if_pos hb
      have htail : validTail b bs = 0 := by simp [validTail, hwidth]
      rw [htail, List.drop_zero] at hrest
      exact List.forall_mem_cons.mpr ⟨hb, ih (Nat.le_of_succ_le_succ hfuel) hrest⟩

theorem ascii_of_fromUtf8Lossy {bs : Bytes}
    (h : ∀ c ∈ (fromUtf8Lossy bs).toList, 0 < c.toNat ∧ c.toNat < 128) : ∀ b ∈ bs, b < 0x80 :=
  ascii_of_lossyChars (Nat.le_refl _) (by rwa [fromUtf8Lossy, String.toList_ofList] at h)

/-! ## Numbers -/

inductive ParseIntError where
  | empty | invalidDigit | posOverflow
  deriving DecidableEq, Repr

/-- The digit loop of `u8::from_str`: a bad digit is noticed before an overflow. -/
def parseDigits : Nat → List Char → Except ParseIntError UInt8
  | acc, [] => .ok (UInt8.ofNat acc)
  | acc, c :: cs =>
    if !c.isDigit then .error .invalidDigit
    else if acc * 10 + (c.toNat - '0'.toNat) > 255 then .error .posOverflow
    else parseDigits (acc * 10 + (c.toNat - '0'.toNat)) cs

/-- `u8::from_str`: an optional `+`, then one or more decimal digits. -/
def parseU8 (s : String) : Except ParseIntError UInt8 :=
  match s.toList with
  | [] => .error .empty
  | ['+'] | ['-'] => .error .invalidDigit
  | '+' :: digits => parseDigits 0 digits
  | digits => parseDigits 0 digits

/-- The loop succeeds on digits whose value a byte holds. -/
theorem parseDigits_eq_ok_iff {acc : Nat} (hacc : acc ≤ 255) {cs : List Char} {v : UInt8} :
    parseDigits acc cs = .ok v ↔
      (∀ c ∈ cs, c.isDigit = true) ∧ Nat.ofDigitChars 10 cs acc = v.toNat := by
  induction cs generalizing acc with
  | nil =>
    have hval : (UInt8.ofNat acc).toNat = acc := by
      rw [UInt8.toNat_ofNat']
      omega
    simp [parseDigits, ← UInt8.toNat_inj, hval]
  | cons c cs ih =>
    by_cases hc : c.isDigit = true
    swap
    · simp [parseDigits, hc]
    rw [parseDigits, Nat.ofDigitChars_cons, Nat.mul_comm 10 acc]
    generalize acc * 10 + (c.toNat - '0'.toNat) = next
    by_cases hover : next > 255
    · -- more digits only make the value greater
      have hle : next ≤ Nat.ofDigitChars 10 cs next := by
        rw [Nat.ofDigitChars_eq_ofDigitChars_zero]
        exact Nat.le_add_right_of_le (Nat.le_mul_of_pos_left _ (Nat.pow_pos (by decide)))
      have hv := v.toNat_lt
      have hne : Nat.ofDigitChars 10 cs next ≠ v.toNat := by omega
      simp [hc, hover, hne]
    · simp [hc, hover, ih (Nat.le_of_not_gt hover)]

/-- An optional sign. -/
def plusSign (plus : Bool) : List Char := if plus then ['+'] else []

/-- `u8::from_str` reads the numerals of a byte, with any zeros and a plus sign before them. -/
theorem parseU8_eq_ok_iff {s : String} {v : UInt8} :
    parseU8 s = .ok v ↔
      ∃ plus zeros, s.toList = plusSign plus ++ Decimal.zeroPadded zeros v.toNat := by
  have hloop {cs : List Char} (hne : cs ≠ []) : parseDigits 0 cs = .ok v ↔
      ∃ zeros, cs = Decimal.zeroPadded zeros v.toNat := by
    rw [parseDigits_eq_ok_iff (by decide), ← Decimal.value_eq_iff, Decimal.IsNumeral, and_assoc,
      and_iff_right hne]
    rfl
  have hsign {c : Char} (hc : c.isDigit = false) (cs : List Char) (zeros : Nat) :
      c :: cs ≠ Decimal.zeroPadded zeros v.toNat := Decimal.cons_ne_zeroPadded hc cs zeros v.toNat
  unfold parseU8
  generalize s.toList = cs
  split
  · simp [plusSign]
  · simp [plusSign, hsign]
  · simp [plusSign, hsign]
  · next digits hplus =>
    rw [hloop fun hnil => hplus (by rw [hnil])]
    simp [plusSign, hsign]
  · next hnil _ _ hplus =>
    rw [hloop hnil]
    simpa [plusSign] using fun zeros h => (hplus _ h).elim

end LieGrpc
