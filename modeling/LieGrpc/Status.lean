import LieGrpc.Runtime.Hyper
import LieGrpc.Runtime.Prost
import LieGrpc.Runtime.Uri

/-!
# Status codes and statuses

`Code` and `Status` with their parsers and conversions, as in `status.rs`. A status
that wraps another error keeps it as its `cause`, which is how a caller tells the
errors of the transport from those of decoding.
-/

namespace LieGrpc

def grpcStatus : String := "grpc-status"
def grpcMessage : String := "grpc-message"
def grpcStatusDetailBin : String := "grpc-status-details-bin"

inductive Code where
  | ok | cancelled | unknown | invalidArgument | deadlineExceeded | notFound | alreadyExist
  | permissionDenied | resourceExhausted | failedPrecondition | aborted | outOfRange
  | unimplemented | internal | unavailable | dataLoss | unauthenticated
  deriving DecidableEq, Repr

/-- The discriminant of `Code`, which is `repr(u8)`. -/
def Code.value : Code → Nat
  | .ok => 0
  | .cancelled => 1
  | .unknown => 2
  | .invalidArgument => 3
  | .deadlineExceeded => 4
  | .notFound => 5
  | .alreadyExist => 6
  | .permissionDenied => 7
  | .resourceExhausted => 8
  | .failedPrecondition => 9
  | .aborted => 10
  | .outOfRange => 11
  | .unimplemented => 12
  | .internal => 13
  | .unavailable => 14
  | .dataLoss => 15
  | .unauthenticated => 16

inductive Cause where
  | hyper (e : HyperError)
  | encode (e : EncodeError)
  | decode (e : DecodeError)
  | parseInt (e : ParseIntError)
  | uri (e : InvalidUri)
  | http (e : HttpError)
  deriving DecidableEq, Repr

structure Status where
  code : Code
  message : String
  detail : Bytes
  cause : Option Cause
  deriving DecidableEq, Repr

def Status.new (code : Code) (message : String) : Status := ⟨code, message, [], none⟩
def Status.withDetail (s : Status) (detail : Bytes) : Status := { s with detail }
def Status.withCause (s : Status) (cause : Cause) : Status := { s with cause := some cause }
def Status.isOk (s : Status) : Bool := s.code = .ok
def Status.internal (message : String) : Status := .new .internal message

/-- `From<hyper::Error>`. -/
def Status.fromHyperError (e : HyperError) : Status :=
  (Status.internal "http2 failed").withCause (.hyper e)

/-- `From<prost::EncodeError>`. -/
def Status.fromEncodeError (e : EncodeError) : Status :=
  (Status.internal "prost encode failed").withCause (.encode e)

/-- `From<prost::DecodeError>`. -/
def Status.fromDecodeError (e : DecodeError) : Status :=
  (Status.internal "prost decode failed").withCause (.decode e)

/-! ## Parsing a code -/

/-- `TryFrom<u8>`. -/
def Code.tryFrom (value : UInt8) : Except Status Code :=
  match value.toNat with
  | 0 => .ok .ok
  | 1 => .ok .cancelled
  | 2 => .ok .unknown
  | 3 => .ok .invalidArgument
  | 4 => .ok .deadlineExceeded
  | 5 => .ok .notFound
  | 6 => .ok .alreadyExist
  | 7 => .ok .permissionDenied
  | 8 => .ok .resourceExhausted
  | 9 => .ok .failedPrecondition
  | 10 => .ok .aborted
  | 11 => .ok .outOfRange
  | 12 => .ok .unimplemented
  | 13 => .ok .internal
  | 14 => .ok .unavailable
  | 15 => .ok .dataLoss
  | 16 => .ok .unauthenticated
  | n => .error (.new .internal ("invalid grpc-status(" ++ toString n ++ ")"))

/-- `{:?}` of a byte slice. -/
def debugBytes (b : Bytes) : String :=
  "[" ++ ", ".intercalate (b.map fun x => toString x.toNat) ++ "]"

def isAsciiDigit (b : UInt8) : Bool := 0x30 ≤ b && b ≤ 0x39

def Code.fromBytes (b : Bytes) : Except Status Code :=
  let invalid := .error (.new .internal ("invalid grpc-status(" ++ debugBytes b ++ ")"))
  match b with
  | [d] => if isAsciiDigit d then Code.tryFrom (d - 0x30) else invalid
  | [d, e] =>
    if d = 0x31 && isAsciiDigit e then
      let code := (d - 0x30) * 10
      let code := code + e - 0x30
      Code.tryFrom code
    else invalid
  | _ => invalid

/-- `FromStr`. -/
def Code.fromStr (s : String) : Except Status Code :=
  match parseU8 s with
  | .error e => .error ((Status.internal "parse grpc-status failed").withCause (.parseInt e))
  | .ok code => Code.tryFrom code

theorem Code.tryFrom_eq_ok_iff {v : UInt8} {c : Code} :
    Code.tryFrom v = .ok c ↔ v.toNat = c.value := by
  constructor
  · intro h
    unfold Code.tryFrom at h
    split at h
    case h_18 => cases h
    all_goals
      obtain rfl := Except.ok.inj h
      assumption
  · intro h
    obtain rfl : v = UInt8.ofNat c.value := by rw [← h, UInt8.ofNat_toNat]
    cases c <;> rfl

theorem isAsciiDigit_iff {b : UInt8} :
    isAsciiDigit b = true ↔ 48 ≤ b.toNat ∧ b.toNat ≤ 57 := by
  simp [isAsciiDigit, UInt8.le_iff_toNat_le]

/-- A digit is the character of its value. -/
theorem exists_ofNat_of_isAsciiDigit {b : UInt8} (h : isAsciiDigit b = true) :
    ∃ n < 10, b.toNat = 48 + n ∧ b = UInt8.ofNat (48 + n) := by
  rw [isAsciiDigit_iff] at h
  have hn : b.toNat = 48 + (b.toNat - 48) := by omega
  exact ⟨b.toNat - 48, by omega, hn, by rw [← hn, UInt8.ofNat_toNat]⟩

theorem toNat_oneDigit (d : UInt8) (hd : isAsciiDigit d = true) :
    (d - 0x30).toNat = d.toNat - 48 := by
  rw [isAsciiDigit_iff] at hd
  exact UInt8.toNat_sub_of_le _ _ (UInt8.le_iff_toNat_le.mpr hd.1)

/-- The two-digit branch computes a value from 10 on: the `u8` arithmetic does not wrap. -/
theorem toNat_twoDigits (e : UInt8) (he : isAsciiDigit e = true) :
    ((0x31 - 0x30) * 10 + e - 0x30).toNat = e.toNat - 38 := by
  rw [isAsciiDigit_iff] at he
  simp [UInt8.toNat_sub, UInt8.toNat_add] at *
  omega

/-- Every code is read back from its numeral. -/
theorem Code.fromBytes_value (c : Code) : Code.fromBytes (utf8 (toString c.value)) = .ok c := by
  cases c <;> rfl

/-- The numeral of a code is its only spelling. -/
theorem Code.fromBytes_eq_ok_iff {b : Bytes} {c : Code} :
    Code.fromBytes b = .ok c ↔ b = utf8 (toString c.value) := by
  constructor
  swap
  · rintro rfl
    exact Code.fromBytes_value c
  have hone : ∀ n < 10, utf8 (toString n) = [UInt8.ofNat (48 + n)] := by decide
  have htwo : ∀ n < 10, utf8 (toString (10 + n)) = [0x31, UInt8.ofNat (48 + n)] := by decide
  intro h
  match b with
  | [] => cases h
  | [d] =>
    by_cases hd : isAsciiDigit d
    · obtain ⟨n, hn, hval, rfl⟩ := exists_ofNat_of_isAsciiDigit hd
      rw [Code.fromBytes, if_pos hd, Code.tryFrom_eq_ok_iff, toNat_oneDigit _ hd, hval] at h
      rw [show c.value = n by omega, hone n hn]
    · simp [Code.fromBytes, hd] at h
  | [d, e] =>
    by_cases hde : d = 0x31 && isAsciiDigit e
    · obtain ⟨rfl, he⟩ : d = 0x31 ∧ isAsciiDigit e = true := by simpa using hde
      obtain ⟨n, hn, hval, rfl⟩ := exists_ofNat_of_isAsciiDigit he
      rw [Code.fromBytes, if_pos hde, Code.tryFrom_eq_ok_iff, toNat_twoDigits _ he, hval] at h
      rw [show c.value = 10 + n by omega, htwo n hn]
    · simp [Code.fromBytes, hde] at h
  | _ :: _ :: _ :: _ => cases h

/-! ## Statuses of a response -/

def Status.fromHttpStatus (statusCode : StatusCode) : Status :=
  let code :=
    match statusCode.asU16 with
    | 400 => Code.internal
    | 401 => .unauthenticated
    | 403 => .permissionDenied
    | 404 => .unimplemented
    | 429 | 502 | 503 | 504 => .unavailable
    | 200 => .ok
    | _ => .unknown
  .new code ("grpc-status header missing, mapped from HTTP status code " ++
    toString statusCode.asU16)

/-- Only the HTTP status 200 maps to success. -/
theorem Status.isOk_fromHttpStatus (c : StatusCode) :
    (Status.fromHttpStatus c).isOk = true ↔ c = .ok := by
  obtain ⟨n, hn⟩ := c
  simp only [Status.isOk, Status.fromHttpStatus, Status.new, StatusCode.ok, StatusCode.mk.injEq]
  split <;> simp_all

section HeaderMap

variable {H : Type} [HeaderMap H]

def Status.fromHeaderMap (headers : H) : Except Status Status :=
  match HeaderMap.get headers grpcStatus with
  | none => .error (.internal "grpc-status not found")
  | some code =>
    match Code.fromBytes code with
    | .error status => .error status
    | .ok code =>
      let message := ((HeaderMap.get headers grpcMessage).map fromUtf8Lossy).getD ""
      let detail := (HeaderMap.get headers grpcStatusDetailBin).getD []
      .ok ((Status.new code message).withDetail detail)

/-- A code that parses is reported with the message beside it. -/
theorem Status.fromHeaderMap_of_code {headers : H} {v : Bytes} {c : Code}
    (hv : HeaderMap.get headers grpcStatus = some v) (hc : Code.fromBytes v = .ok c) :
    ∃ status, Status.fromHeaderMap headers = .ok status ∧ status.code = c ∧
      status.message = ((HeaderMap.get headers grpcMessage).map fromUtf8Lossy).getD "" := by
  rw [Status.fromHeaderMap, hv]
  dsimp only
  rw [hc]
  exact ⟨_, rfl, rfl, rfl⟩

theorem Status.fromHeaderMap_isOk_iff {headers : H} :
    (∃ status, Status.fromHeaderMap headers = .ok status ∧ status.isOk = true) ↔
      HeaderMap.get headers grpcStatus = some [0x30] := by
  cases hv : HeaderMap.get headers grpcStatus with
  | none => simp [Status.fromHeaderMap, hv]
  | some v =>
    rw [Option.some.injEq, show [0x30] = utf8 (toString Code.ok.value) from rfl,
      ← Code.fromBytes_eq_ok_iff]
    cases hc : Code.fromBytes v with
    | error status => simp [Status.fromHeaderMap, hv, hc]
    | ok c =>
      obtain ⟨status, hstatus, hcode, -⟩ := Status.fromHeaderMap_of_code hv hc
      simp [hstatus, Status.isOk, hcode]

end HeaderMap

end LieGrpc
