import LieGrpc.Runtime.Std

/-!
# What the code uses of `prost`

A message type is known by the bytes its messages encode to, by what decoding a byte string
gives, and by the room that its encoder finds in a buffer. `LawfulMessage` is what is assumed of
them.
-/

namespace LieGrpc

/-- The buffer was too short for the message. -/
structure EncodeError where
  required : Nat
  remaining : Nat
  deriving DecidableEq, Repr

structure DecodeError where
  description : String
  deriving DecidableEq, Repr

class Message (M : Type) where
  encodeToVec : M → Bytes
  decode : Bytes → Except DecodeError M
  /-- `BytesMut::remaining_mut`, which `encode` asks of its buffer: how many more bytes the
  buffer takes. -/
  remainingMut : Bytes → Nat

class LawfulMessage (M : Type) [Message M] : Prop where
  decode_encodeToVec : ∀ m : M, Message.decode (Message.encodeToVec m) = .ok m
  /-- Behind a header there is room for all that a length field of 32 bits can count. -/
  le_remainingMut : ∀ buf : Bytes, buf.length ≤ 5 → 2 ^ 32 ≤ Message.remainingMut M buf

/-- `Message::encode` into a `BytesMut`: the message is appended unless the buffer has no
room for it. Where it has, there is taken to be memory for it. -/
def Message.encode {M : Type} [Message M] (message : M) (buf : Bytes) : Except EncodeError Bytes :=
  let required := (Message.encodeToVec message).length
  let remaining := Message.remainingMut M buf
  if required > remaining then .error ⟨required, remaining⟩
  else .ok (buf ++ Message.encodeToVec message)

/-- The largest `isize` of 64 bits, which is what a `Vec<u8>` holds at most. -/
def isizeMax : Nat := 2 ^ 63 - 1

/-- The messages of `google.protobuf.BoolValue`, which `prost` implements for `bool`: field 1
as a varint, left out when it is `false`. Of what `prost` decodes this is the part that it also
writes, and the other numbers of one byte: a field that is unknown or repeated and a varint of
several bytes are rejected here. -/
instance : Message Bool where
  encodeToVec b := if b then [0x08, 0x01] else []
  decode
    | [] => .ok false
    | [0x08, b] => if b < 0x80 then .ok (b != 0) else .error ⟨"invalid varint"⟩
    | _ => .error ⟨"invalid wire type value"⟩
  remainingMut buf := isizeMax - buf.length

theorem le_isizeMax_sub {n : Nat} (h : n ≤ 5) : 2 ^ 32 ≤ isizeMax - n := by
  unfold isizeMax
  omega

instance : LawfulMessage Bool where
  decode_encodeToVec m := by cases m <;> rfl
  le_remainingMut _ := le_isizeMax_sub

/-- A varint of at most `fuel` bytes: seven bits a byte, the lowest first, the top bit set on
all but the last. -/
def encodeVarint : Nat → Nat → Bytes
  | 0, _ => []
  | fuel + 1, n =>
    if n < 0x80 then [UInt8.ofNat n]
    else UInt8.ofNat (n % 0x80 + 0x80) :: encodeVarint fuel (n / 0x80)

theorem length_encodeVarint_le (fuel n : Nat) : (encodeVarint fuel n).length ≤ fuel := by
  induction fuel generalizing n with
  | zero => simp [encodeVarint]
  | succ fuel ih =>
    have := ih (n / 0x80)
    grind [encodeVarint]

def decodeVarint : Nat → Bytes → Option (Nat × Bytes)
  | 0, _ | _, [] => none
  | fuel + 1, b :: bs =>
    if b < 0x80 then some (b.toNat, bs)
    else (decodeVarint fuel bs).map fun r => (b.toNat % 0x80 + 0x80 * r.1, r.2)

/-- The messages of `google.protobuf.BytesValue`, which `prost` implements for `Vec<u8>`:
field 1 with its length before it, left out when it is empty. A field that is unknown or repeated
is rejected here, which `prost` skips or lets replace the one before. -/
instance : Message Bytes where
  encodeToVec b := if b = [] then [] else 0x0A :: encodeVarint 10 b.length ++ b
  decode
    | [] => .ok []
    | 0x0A :: rest =>
      match decodeVarint 10 rest with
      | some (n, value) => if value.length = n then .ok value else .error ⟨"buffer underflow"⟩
      | none => .error ⟨"invalid varint"⟩
    | _ => .error ⟨"invalid wire type value"⟩
  remainingMut buf := isizeMax - buf.length

end LieGrpc
