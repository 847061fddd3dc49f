import LieGrpc.Codec

/-!
# The codec at the limits of its integers

The length field of a frame has 32 bits, and lengths in memory have as many as a pointer. The
encoder casts the one into the other without a check. The decoder adds the header to a
declared length before it compares the sum with the buffer, which is safe where a pointer has
more bits than the field.
-/

namespace LieGrpc

variable {M : Type} [Message M]

/-! ## The length that is written -/

namespace ProstEncoder

/-- The frame of a message has its length, and a message without one is refused. -/
structure EncodesLength (m : M) : Prop where
  framed : ∀ f, ProstEncoder.encode m = .ok f → f = frame (Message.encodeToVec m) ∧
    declaredLength f = (Message.encodeToVec m).length
  oversized : 2 ^ 32 ≤ (Message.encodeToVec m).length → ∃ e, ProstEncoder.encode m = .error e
  /-- A receiver takes the whole frame from the stream and nothing else. -/
  received : ∀ f rest, ProstEncoder.encode m = .ok f →
    (ProstDecoder.decode M (f ++ rest)).2 = rest

/-- The encoder is right on messages below the limit of the length field, and on those for which
there is no room behind the reserved header. -/
theorem encodesLength_iff (m : M) :
    EncodesLength m ↔ (Message.encodeToVec m).length < 2 ^ 32 ∨
      Message.remainingMut M (List.replicate 5 0) < (Message.encodeToVec m).length := by
  constructor
  · intro h
    by_contra hlimits
    rw [not_or, Nat.not_lt, Nat.not_lt] at hlimits
    obtain ⟨e, he⟩ := h.oversized hlimits.1
    rw [encode_eq_ok_iff.mpr ⟨hlimits.2, rfl⟩] at he
    cases he
  · intro hlimits
    have hshort {f : Bytes} (hf : ProstEncoder.encode m = .ok f) :
        (Message.encodeToVec m).length < 2 ^ 32 ∧ f = frame (Message.encodeToVec m) := by
      obtain ⟨hroom, rfl⟩ := encode_eq_ok_iff.mp hf
      exact ⟨hlimits.resolve_right (Nat.not_lt.mpr hroom), rfl⟩
    constructor
    · intro f hf
      obtain ⟨hlen, rfl⟩ := hshort hf
      exact ⟨rfl, by simpa using declaredLength_frame hlen []⟩
    · intro hover
      cases he : ProstEncoder.encode m with
      | error e => exact ⟨e, rfl⟩
      | ok f => exact absurd (hshort he).1 (Nat.not_lt.mpr hover)
    · intro f rest hf
      obtain ⟨hlen, rfl⟩ := hshort hf
      rw [ProstDecoder.decode_of_item (attemptFrame_frame hlen rest), List.drop_left]

/-- The bytes, and before them a tag and their length. -/
theorem length_bytesValue (b : Bytes) :
    b.length ≤ (Message.encodeToVec b).length ∧ (Message.encodeToVec b).length ≤ b.length + 11 := by
  have hlen := length_encodeVarint_le 10 b.length
  by_cases hb : b = []
  · simp [Message.encodeToVec, hb]
  · simp [Message.encodeToVec, hb]
    omega

/-- A value of four GiB: its length does not fit, and a frame is returned. -/
theorem not_encodesLength_bytesValue : ¬ ∀ m : Bytes, EncodesLength m := by
  intro h
  have hlen := length_bytesValue (List.replicate (2 ^ 32) 0)
  rw [List.length_replicate] at hlen
  obtain ⟨e, he⟩ := (h (List.replicate (2 ^ 32) 0)).oversized hlen.1
  have hroom : 2 ^ 32 + 11 ≤ Message.remainingMut Bytes (List.replicate 5 0) := by decide
  rw [encode_eq_ok_iff.mpr ⟨hlen.2.trans hroom, rfl⟩] at he
  cases he

end ProstEncoder

/-! ## The length that is read -/

/-- `a + b` in a `usize`: an overflow panics where the build checks for it, and wraps where it
does not. -/
def usizeAdd (width : Nat) (overflowChecks : Bool) (a b : Nat) : Option Nat :=
  if a + b < 2 ^ width then some (a + b)
  else if overflowChecks then none
  else some ((a + b) % 2 ^ width)

/-- `&buf[start..stop]`. -/
def slice (buf : Bytes) (start stop : Nat) : Option Bytes :=
  if start ≤ stop ∧ stop ≤ buf.length then some ((buf.drop start).take (stop - start)) else none

/-- `<[u8; 4]>::try_from(i).unwrap()`. -/
def toArray4 (i : Bytes) : Option Bytes := if i.length = 4 then some i else none

/-- `Buf::advance`. -/
def advance (buf : Bytes) (n : Nat) : Option Bytes :=
  if n ≤ buf.length then some (buf.drop n) else none

/-- `BytesMut::split_to`. -/
def splitTo (buf : Bytes) (n : Nat) : Option (Bytes × Bytes) :=
  if n ≤ buf.length then some (buf.take n, buf.drop n) else none

namespace ProstDecoder

variable (M) in
/-- `decode` with everything in it that can panic, on a target whose `usize` has `width` bits;
`none` is a panic. -/
def decodeIn (width : Nat) (overflowChecks : Bool) (buf : Bytes) :
    Option (Except Status (Option M) × Bytes) :=
  if buf.length < headerSize then some (.ok none, buf)
  else do
    let flag ← buf[0]?
    if flag ≠ 0 then some (.error unsupportedCompression, buf)
    else do
      let i ← slice buf 1 5
      let i ← toArray4 i
      let len := BigEndian.decode i % 2 ^ width
      let sum ← usizeAdd width overflowChecks headerSize len
      if buf.length < sum then some (.ok none, buf)
      else do
        let buf ← advance buf headerSize
        let (payload, buf) ← splitTo buf len
        match Message.decode payload with
        | .ok message => some (.ok (some message), buf)
        | .error e => some (.error (.fromDecodeError e), buf)

/-- The sum of the header and the declared length is computed, and does not fit. -/
def SumOverflows (width : Nat) (buf : Bytes) : Prop :=
  5 ≤ buf.length ∧ buf[0]! = 0 ∧ 2 ^ width ≤ 5 + declaredLength buf

/-- The cast of a declared length to a `usize` keeps it. -/
theorem declaredLength_lt_of_width {width : Nat} (hw : 32 ≤ width) (buf : Bytes) :
    declaredLength buf < 2 ^ width :=
  Nat.lt_of_lt_of_le (declaredLength_lt buf) (Nat.pow_le_pow_right (by decide) hw)

/-- Up to the sum all accesses are in bounds. -/
theorem decodeIn_of_header {width : Nat} (hw : 32 ≤ width) (overflowChecks : Bool) {buf : Bytes}
    (hlen : 5 ≤ buf.length) (hflag : buf[0]! = 0) :
    decodeIn M width overflowChecks buf =
      (usizeAdd width overflowChecks 5 (declaredLength buf)).bind fun sum =>
        if buf.length < sum then some (.ok none, buf)
        else (splitTo (buf.drop 5) (declaredLength buf)).bind fun r =>
          some ((ofPayload M r.1).map some, r.2) := by
  have hget : buf[0]? = some 0 := by
    cases buf with
    | nil => simp at hlen
    | cons b bs => simpa using hflag
  have hslice : slice buf 1 5 = some ((buf.drop 1).take 4) := if_pos ⟨by omega, hlen⟩
  have harray : toArray4 ((buf.drop 1).take 4) = some ((buf.drop 1).take 4) :=
    if_pos (by simp; omega)
  have hcast : BigEndian.decode ((buf.drop 1).take 4) % 2 ^ width = declaredLength buf :=
    Nat.mod_eq_of_lt (declaredLength_lt_of_width hw buf)
  have hadvance : advance buf 5 = some (buf.drop 5) := if_pos hlen
  have hheader : ¬ buf.length < headerSize := Nat.not_lt.mpr hlen
  rw [decodeIn, if_neg hheader]
  simp only [hget, hslice, harray, hcast, headerSize, hadvance, Option.bind_eq_bind,
    Option.bind_some, ne_eq, not_true_eq_false, ↓reduceIte]
  refine congrArg _ (funext fun sum => ?_)
  by_cases hsum : buf.length < sum
  · simp only [hsum, ↓reduceIte]
  · simp only [hsum, ↓reduceIte, ofPayload]
    refine congrArg _ (funext fun r => ?_)
    cases Message.decode (M := M) r.1 <;> rfl

/-- Where the sum does not fit, the check that would stop the decoder fails to: a build with
overflow checks panics at the sum, and one without them at `split_to`. -/
theorem decodeIn_of_overflows {width : Nat} (hw : 32 ≤ width) (overflowChecks : Bool) {buf : Bytes}
    (hbuf : buf.length < 2 ^ width) (h : SumOverflows width buf) :
    decodeIn M width overflowChecks buf = none := by
  obtain ⟨hlen, hflag, hover⟩ := h
  have hdeclared := declaredLength_lt_of_width hw buf
  rw [decodeIn_of_header hw overflowChecks hlen hflag, usizeAdd, if_neg (Nat.not_lt.mpr hover)]
  cases overflowChecks with
  | true => rfl
  | false =>
    have hwraps : (5 + declaredLength buf) % 2 ^ width = 5 + declaredLength buf - 2 ^ width := by
      rw [Nat.mod_eq_sub_mod hover, Nat.mod_eq_of_lt (by omega)]
    have hpassed : ¬ buf.length < 5 + declaredLength buf - 2 ^ width := by omega
    have hsplit : splitTo (buf.drop 5) (declaredLength buf) = none :=
      if_neg (by rw [List.length_drop]; omega)
    simp only [hwraps, hpassed, hsplit, Bool.false_eq_true, ↓reduceIte, Option.bind_some,
      Option.bind_none]

theorem decodeIn_of_fits {width : Nat} (hw : 32 ≤ width) (overflowChecks : Bool) {buf : Bytes}
    (h : ¬ SumOverflows width buf) :
    decodeIn M width overflowChecks buf = some (ProstDecoder.decode M buf) := by
  by_cases hlen : 5 ≤ buf.length
  swap
  · have hshort : buf.length < headerSize := Nat.lt_of_not_le hlen
    rw [decodeIn, ProstDecoder.decode, if_pos hshort, if_pos hshort]
  by_cases hflag : buf[0]! = 0
  swap
  · obtain ⟨flag, bs, rfl⟩ := List.exists_cons_of_length_pos (Nat.lt_of_lt_of_le (by decide) hlen)
    have hne : flag ≠ 0 := hflag
    have hhalt : attemptFrame (flag :: bs) = .halt () :=
      attemptFrame_eq_halt_iff.mpr ⟨hlen, hflag⟩
    have hheader : ¬ (flag :: bs).length < headerSize := Nat.not_lt.mpr hlen
    rw [decodeIn, if_neg hheader, decode_of_halt hhalt]
    simp [hne]
  have hfits : 5 + declaredLength buf < 2 ^ width := by
    by_contra hover
    exact h ⟨hlen, hflag, Nat.not_lt.mp hover⟩
  rw [decodeIn_of_header hw overflowChecks hlen hflag, usizeAdd, if_pos hfits, Option.bind_some]
  by_cases hmore : buf.length < 5 + declaredLength buf
  · rw [if_pos hmore, decode_of_more (attemptFrame_eq_more_iff.mpr (.inr ⟨hflag, hmore⟩))]
  · have hitem : attemptFrame buf =
        .item ((buf.drop 5).take (declaredLength buf)) (5 + declaredLength buf) := by
      rw [attemptFrame, if_neg (Nat.not_lt.mpr hlen), if_neg (by simpa using hflag), if_neg hmore]
    have hsplit : splitTo (buf.drop 5) (declaredLength buf) =
        some ((buf.drop 5).take (declaredLength buf), (buf.drop 5).drop (declaredLength buf)) :=
      if_pos (by rw [List.length_drop]; omega)
    rw [if_neg hmore, decode_of_item hitem, hsplit, Option.bind_some, List.drop_drop]

variable (M) in
/-- The sum fits, and no build panics. -/
structure DecodesSafely (width : Nat) (buf : Bytes) : Prop where
  sum : headerSize ≤ buf.length → buf[0]! = 0 → headerSize + declaredLength buf < 2 ^ width
  returns : ∀ overflowChecks,
    decodeIn M width overflowChecks buf = some (ProstDecoder.decode M buf)

/-- A pointer of 64 bits has room for every sum. One of 32 bits has not for the largest
lengths that a frame can declare, and then the decoder panics in every build. -/
theorem decodesSafely_iff (width : Nat) (hw : width = 32 ∨ width = 64) (buf : Bytes)
    (hbuf : buf.length < 2 ^ width) :
    (DecodesSafely M width buf ↔
      width = 64 ∨ buf.length < 5 ∨ buf[0]! ≠ 0 ∨ declaredLength buf < 2 ^ 32 - 5) ∧
    (¬ DecodesSafely M width buf →
      ∀ overflowChecks, decodeIn M width overflowChecks buf = none) := by
  have hdeclared := declaredLength_lt buf
  have hwide : 32 ≤ width := by omega
  have hsafe : DecodesSafely M width buf ↔ ¬ SumOverflows width buf := by
    constructor
    · rintro h ⟨hlen, hflag, hover⟩
      exact Nat.not_lt.mpr hover (h.sum hlen hflag)
    · intro h
      refine ⟨fun hlen hflag => ?_, fun overflowChecks => decodeIn_of_fits hwide overflowChecks h⟩
      by_contra hover
      exact h ⟨hlen, hflag, Nat.not_lt.mp hover⟩
  rw [hsafe, not_not]
  refine ⟨?_, fun h overflowChecks => decodeIn_of_overflows hwide overflowChecks hbuf h⟩
  unfold SumOverflows
  rcases hw with rfl | rfl <;> grind

/-- A small frame, with a `usize` of 32 bits. -/
theorem decodesSafely_iff_bool :
    (DecodesSafely Bool 32 [0, 0, 0, 0, 2, 8, 1] ↔
      32 = 64 ∨ ([0, 0, 0, 0, 2, 8, 1] : Bytes).length < 5 ∨
        ([0, 0, 0, 0, 2, 8, 1] : Bytes)[0]! ≠ 0 ∨
        declaredLength [0, 0, 0, 0, 2, 8, 1] < 2 ^ 32 - 5) ∧
    (¬ DecodesSafely Bool 32 [0, 0, 0, 0, 2, 8, 1] →
      ∀ overflowChecks, decodeIn Bool 32 overflowChecks [0, 0, 0, 0, 2, 8, 1] = none) :=
  decodesSafely_iff 32 (.inl rfl) _ (by decide)

/-- A header that declares the greatest length makes a decoder with 32 bits panic. -/
theorem not_decodesSafely_header :
    ¬ ∀ (width : Nat) (buf : Bytes), width = 32 ∨ width = 64 → buf.length < 2 ^ width →
      DecodesSafely Bool width buf := by
  intro h
  have hsum := (h 32 [0, 0xFF, 0xFF, 0xFF, 0xFF] (.inl rfl) (by decide)).sum (by decide) rfl
  revert hsum
  decide

end ProstDecoder

end LieGrpc
