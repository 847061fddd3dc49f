import Mathlib.Data.List.Basic

/-!
# ASCII text

A character below 128 is one byte in UTF-8. What is to hold of all of them is checked value by
value (`forall_ascii`).

Two encodings that write any bytes as ASCII text: percent-encoding, which leaves the printable
characters other than the percent sign as they are, and base64, with padding or without.
Either can be undone, and neither leaves more than some inputs unchanged.
-/

theorem forall_ascii {P : Char → Prop} (h : ∀ n, n < 128 → P (Char.ofNat n)) {c : Char}
    (hc : c.toNat < 128) : P c := by
  have hn := h c.toNat hc
  rwa [Char.ofNat_toNat] at hn

theorem utf8EncodeChar_of_ascii {c : Char} (hc : c.toNat < 128) :
    String.utf8EncodeChar c = [UInt8.ofNat c.toNat] := by
  apply forall_ascii (P := fun c => String.utf8EncodeChar c = [UInt8.ofNat c.toNat]) _ hc
  decide

/-! ## Percent-encoding -/

namespace Percent

/-- A byte that stands for itself. -/
def unreserved (b : UInt8) : Bool := 0x20 ≤ b && b ≤ 0x7E && b ≠ 0x25

def hexDigit (n : Nat) : UInt8 := UInt8.ofNat (if n < 10 then 0x30 + n else 0x37 + n)

def encodeByte (b : UInt8) : List UInt8 :=
  if unreserved b then [b] else [0x25, hexDigit (b.toNat / 16), hexDigit (b.toNat % 16)]

def encode (bs : List UInt8) : List UInt8 := bs.flatMap encodeByte

def hexValue? (b : UInt8) : Option Nat :=
  if 0x30 ≤ b ∧ b ≤ 0x39 then some (b.toNat - 0x30)
  else if 0x41 ≤ b ∧ b ≤ 0x46 then some (b.toNat - 0x37)
  else none

/-- What is no escape is left as it is. -/
def decode : List UInt8 → List UInt8
  | [] => []
  | [b] => [b]
  | [b, c] => [b, c]
  | b :: h :: l :: rest =>
    match if b = 0x25 then (hexValue? h, hexValue? l) else (none, none) with
    | (some x, some y) => UInt8.ofNat (x * 16 + y) :: decode rest
    | _ => b :: decode (h :: l :: rest)

theorem decode_cons {b : UInt8} (hb : b ≠ 0x25) (rest : List UInt8) :
    decode (b :: rest) = b :: decode rest := by
  match rest with
  | [] => rfl
  | [c] => rfl
  | h :: l :: rest => simp [decode, hb]

theorem decode_escape (b : UInt8) (rest : List UInt8) :
    decode (0x25 :: hexDigit (b.toNat / 16) :: hexDigit (b.toNat % 16) :: rest) =
      b :: decode rest := by
  have hvalue : ∀ n, n < 16 → hexValue? (hexDigit n) = some n := by decide
  have hsum : b.toNat / 16 * 16 + b.toNat % 16 = b.toNat := by omega
  have hlt := b.toNat_lt
  simp [decode, hvalue (b.toNat / 16) (by omega), hvalue (b.toNat % 16) (by omega), hsum]

theorem decode_encode (bs : List UInt8) : decode (encode bs) = bs := by
  induction bs with
  | nil => rfl
  | cons b bs ih =>
    rw [encode, List.flatMap_cons, encodeByte]
    rw [encode] at ih
    split
    · next hb =>
      have hne : b ≠ 0x25 := by
        rintro rfl
        cases hb
      rw [List.singleton_append, decode_cons hne, ih]
    · exact (decode_escape b _).trans (congrArg _ ih)

example : encode [0xC3, 0xA9, 0x25] = [0x25, 0x43, 0x33, 0x25, 0x41, 0x39, 0x25, 0x32, 0x35] := by
  decide

theorem lt_of_mem_encode {b : UInt8} {bs : List UInt8} (h : b ∈ encode bs) : b < 0x80 := by
  have hdigit : ∀ n, n < 16 → hexDigit n < 0x80 := by decide
  obtain ⟨c, -, hb⟩ := List.mem_flatMap.mp h
  have hc := c.toNat_lt
  unfold encodeByte at hb
  split at hb
  · next hkept =>
    obtain rfl := List.mem_singleton.mp hb
    simp only [unreserved, Bool.and_eq_true, decide_eq_true_eq] at hkept
    exact UInt8.lt_of_le_of_lt hkept.1.2 (by decide)
  · simp only [List.mem_cons, List.not_mem_nil, or_false] at hb
    rcases hb with rfl | rfl | rfl
    · decide
    · exact hdigit _ (by omega)
    · exact hdigit _ (by omega)

/-- Text grows under the encoding, unless all of it stands for itself. -/
theorem length_encode (bs : List UInt8) :
    bs.length ≤ (encode bs).length ∧
      ((encode bs).length = bs.length → ∀ b ∈ bs, unreserved b = true) := by
  induction bs with
  | nil => simp [encode]
  | cons b bs ih =>
    rw [encode] at ih ⊢
    rw [List.flatMap_cons, List.length_append, List.length_cons, encodeByte]
    split
    · next hb =>
      rw [List.length_singleton]
      refine ⟨by omega, fun heq => ?_⟩
      have hrest := ih.2 (by omega)
      simpa [hb] using hrest
    · simp only [List.length_cons, List.length_nil]
      omega

theorem encode_of_unreserved {bs : List UInt8} (h : ∀ b ∈ bs, unreserved b = true) :
    encode bs = bs := by
  induction bs with
  | nil => rfl
  | cons b bs ih =>
    have hrest := ih fun c hc => h c (List.mem_cons_of_mem b hc)
    rw [encode] at hrest ⊢
    rw [List.flatMap_cons, hrest, encodeByte, if_pos (h b List.mem_cons_self)]
    rfl

theorem encode_eq_self_iff {bs : List UInt8} : encode bs = bs ↔ ∀ b ∈ bs, unreserved b = true :=
  ⟨fun h => (length_encode bs).2 (congrArg _ h), encode_of_unreserved⟩

end Percent

/-! ## Base64 -/

namespace Base64

def digit (n : Nat) : UInt8 :=
  UInt8.ofNat (if n < 26 then 0x41 + n else if n < 52 then 0x47 + n else if n < 62 then n - 4
    else if n = 62 then 0x2B else 0x2F)

/-- The groups of six bits of some bytes, filled up with zero bits. -/
def pack : List UInt8 → List Nat
  | [] => []
  | [a] => [a.toNat / 4, a.toNat % 4 * 16]
  | [a, b] => [a.toNat / 4, a.toNat % 4 * 16 + b.toNat / 16, b.toNat % 16 * 4]
  | a :: b :: c :: rest =>
    a.toNat / 4 :: (a.toNat % 4 * 16 + b.toNat / 16) :: (b.toNat % 16 * 4 + c.toNat / 64) ::
      c.toNat % 64 :: pack rest

def padding (n : Nat) : List UInt8 := List.replicate ((4 - n % 4) % 4) 0x3D

def encode (padded : Bool) (bs : List UInt8) : List UInt8 :=
  (pack bs).map digit ++ if padded then padding (pack bs).length else []

def value? (b : UInt8) : Option Nat :=
  if 0x41 ≤ b ∧ b ≤ 0x5A then some (b.toNat - 0x41)
  else if 0x61 ≤ b ∧ b ≤ 0x7A then some (b.toNat - 0x47)
  else if 0x30 ≤ b ∧ b ≤ 0x39 then some (b.toNat + 4)
  else if b = 0x2B then some 62
  else if b = 0x2F then some 63
  else none

def unpack : List Nat → List UInt8
  | w :: x :: y :: z :: rest =>
    UInt8.ofNat (w * 4 + x / 16) :: UInt8.ofNat (x % 16 * 16 + y / 4) ::
      UInt8.ofNat (y % 4 * 64 + z) :: unpack rest
  | [w, x, y] => [UInt8.ofNat (w * 4 + x / 16), UInt8.ofNat (x % 16 * 16 + y / 4)]
  | [w, x] => [UInt8.ofNat (w * 4 + x / 16)]
  | _ => []

def decode (bs : List UInt8) : Option (List UInt8) :=
  ((bs.takeWhile fun b => b ≠ 0x3D).mapM value?).map unpack

theorem unpack_pack (bs : List UInt8) : unpack (pack bs) = bs := by
  have hbyte (b : UInt8) {n : Nat} (h : n = b.toNat) : UInt8.ofNat n = b := by
    rw [h, UInt8.ofNat_toNat]
  induction bs using pack.induct with
  | case1 => rfl
  | case2 a =>
    have ha := a.toNat_lt
    simp only [pack, unpack]
    rw [hbyte a (by omega)]
  | case3 a b =>
    have ha := a.toNat_lt
    have hb := b.toNat_lt
    simp only [pack, unpack]
    rw [hbyte a (by omega), hbyte b (by omega)]
  | case4 a b c rest ih =>
    have ha := a.toNat_lt
    have hb := b.toNat_lt
    have hc := c.toNat_lt
    simp only [pack, unpack, ih]
    rw [hbyte a (by omega), hbyte b (by omega), hbyte c (by omega)]

theorem lt_of_mem_pack {bs : List UInt8} : ∀ n ∈ pack bs, n < 64 := by
  induction bs using pack.induct with
  | case1 => simp [pack]
  | case2 a =>
    have ha := a.toNat_lt
    simp only [pack, List.forall_mem_cons]
    exact ⟨by omega, by omega, by simp⟩
  | case3 a b =>
    have ha := a.toNat_lt
    have hb := b.toNat_lt
    simp only [pack, List.forall_mem_cons]
    exact ⟨by omega, by omega, by omega, by simp⟩
  | case4 a b c rest ih =>
    have ha := a.toNat_lt
    have hb := b.toNat_lt
    have hc := c.toNat_lt
    simp only [pack, List.forall_mem_cons]
    exact ⟨by omega, by omega, by omega, by omega, ih⟩

theorem decode_encode (padded : Bool) (bs : List UInt8) : decode (encode padded bs) = some bs := by
  have hvalue : ∀ n, n < 64 → value? (digit n) = some n := by decide
  have hdigit : ∀ n, n < 64 → digit n ≠ 0x3D := by decide
  have htake : (encode padded bs).takeWhile (fun b => b ≠ 0x3D) = (pack bs).map digit := by
    rw [encode, List.takeWhile_append_of_pos]
    · cases padded <;> cases h : (4 - (pack bs).length % 4) % 4 <;>
        simp [padding, h, List.replicate_succ]
    · simpa using fun n hn => hdigit n (lt_of_mem_pack n hn)
  have hread (l : List Nat) (hl : ∀ n ∈ l, n < 64) : (l.map digit).mapM value? = some l := by
    induction l with
    | nil => rfl
    | cons n l ih =>
      have hrest := ih fun k hk => hl k (List.mem_cons_of_mem n hk)
      rw [List.map_cons, List.mapM_cons, hrest, hvalue n (hl n List.mem_cons_self)]
      rfl
  rw [decode, htake, hread _ lt_of_mem_pack, Option.map_some, unpack_pack]

example : encode true [0x66, 0x6F, 0x6F, 0x62] =
    [0x5A, 0x6D, 0x39, 0x76, 0x59, 0x67, 0x3D, 0x3D] := by decide

/-- Anything but nothing grows under the encoding. -/
theorem length_encode {bs : List UInt8} (padded : Bool) (h : bs ≠ []) :
    bs.length < (encode padded bs).length := by
  have hpack : bs.length < (pack bs).length := by
    induction bs using pack.induct with
    | case1 => contradiction
    | case2 a => simp [pack]
    | case3 a b => simp [pack]
    | case4 a b c rest ih =>
      cases rest with
      | nil => simp [pack]
      | cons d rest =>
        have := ih (by simp)
        simp only [pack, List.length_cons] at this ⊢
        omega
  rw [encode, List.length_append, List.length_map]
  omega

theorem encode_eq_self_iff {padded : Bool} {bs : List UInt8} :
    encode padded bs = bs ↔ bs = [] := by
  constructor
  · intro h
    by_contra hne
    have := length_encode padded hne
    rw [h] at this
    omega
  · rintro rfl
    cases padded <;> rfl

end Base64
