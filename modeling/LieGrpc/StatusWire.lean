import LieGrpc.Status

/-!
# A status on the wire

A peer writes the code of a status as a decimal numeral, its message percent-encoded and its
details in base64. `from_header_map` reads the numeral. The other two it takes as they stand:
nothing is lost, but only a message of plain characters and empty details come out as they
went in.
-/

namespace LieGrpc

variable {H : Type} [HeaderMap H]

/-- The headers hold a status as it is written to the wire. -/
structure WireStatus (headers : H) (c : Code) (message : String) (detail : Bytes) : Prop where
  code : HeaderMap.get headers grpcStatus = some (utf8 (toString c.value))
  message : HeaderMap.get headers grpcMessage = some (Percent.encode (utf8 message))
  detail : ∃ padded,
    HeaderMap.get headers grpcStatusDetailBin = some (Base64.encode padded detail)

/-- A character that percent-encoding leaves as it is. -/
def isPlain (c : Char) : Prop := 0x20 ≤ c.toNat ∧ c.toNat ≤ 0x7E ∧ c ≠ '%'

/-- What is made of the three fields: the code is read, the texts stay as they are in the headers,
encoded. -/
structure ReadOffWire (headers : H) (status : Status) (c : Code) (message : String)
    (detail : Bytes) : Prop where
  code_eq : status.code = c
  message_text : utf8 status.message = Percent.encode (utf8 message)
  detail_text : HeaderMap.get headers grpcStatusDetailBin = some status.detail
  /-- The message and the details can be decoded from what was read. -/
  recoverable : Percent.decode (utf8 status.message) = utf8 message ∧
    Base64.decode status.detail = some detail
  message_iff : status.message = message ↔ ∀ ch ∈ message.toList, isPlain ch
  detail_iff : status.detail = detail ↔ detail = []

theorem isPlain_iff {c : Char} (hc : c.toNat < 128) :
    isPlain c ↔ Percent.unreserved (UInt8.ofNat c.toNat) = true := by
  unfold isPlain
  apply forall_ascii (P := fun c => 0x20 ≤ c.toNat ∧ c.toNat ≤ 0x7E ∧ c ≠ '%' ↔
    Percent.unreserved (UInt8.ofNat c.toNat) = true) _ hc
  decide

theorem unreserved_utf8_iff {message : String} (h : ∀ c ∈ message.toList, c.toNat < 128) :
    (∀ b ∈ utf8 message, Percent.unreserved b = true) ↔ ∀ c ∈ message.toList, isPlain c := by
  rw [utf8_of_ascii h, List.forall_mem_map]
  exact forall₂_congr fun c hc => (isPlain_iff (h c hc)).symm

/-- Percent-encoded text read as it stands is the message only if there was nothing to encode. -/
theorem fromUtf8Lossy_encode_eq_iff (message : String) :
    fromUtf8Lossy (Percent.encode (utf8 message)) = message ↔
      ∀ c ∈ message.toList, isPlain c := by
  have hbytes : ∀ b ∈ Percent.encode (utf8 message), b < 0x80 := fun b => Percent.lt_of_mem_encode
  constructor
  · intro h
    have hascii : ∀ c ∈ message.toList, c.toNat < 128 := by
      rw [← h]
      exact ascii_fromUtf8Lossy hbytes
    have hsame : Percent.encode (utf8 message) = utf8 message := by
      rw [← utf8_fromUtf8Lossy_of_ascii hbytes, h]
    exact (unreserved_utf8_iff hascii).mp (Percent.encode_eq_self_iff.mp hsame)
  · intro h
    have hascii : ∀ c ∈ message.toList, c.toNat < 128 := fun c hc => by have := (h c hc).2.1; omega
    have hsame := Percent.encode_of_unreserved ((unreserved_utf8_iff hascii).mpr h)
    rw [hsame]
    exact fromUtf8Lossy_utf8_of_ascii hascii

theorem fromHeaderMap_wire (headers : H) (c : Code) (message : String) (detail : Bytes)
    (h : WireStatus headers c message detail) :
    ∃ status, Status.fromHeaderMap headers = .ok status ∧
      ReadOffWire headers status c message detail := by
  obtain ⟨padded, hdetail⟩ := h.detail
  have hbytes : ∀ b ∈ Percent.encode (utf8 message), b < 0x80 := fun b => Percent.lt_of_mem_encode
  have htext := utf8_fromUtf8Lossy_of_ascii hbytes
  refine ⟨⟨c, fromUtf8Lossy (Percent.encode (utf8 message)), Base64.encode padded detail, none⟩,
    ?_, ?_⟩
  · rw [Status.fromHeaderMap, h.code]
    dsimp only
    rw [Code.fromBytes_value, h.message, hdetail]
    rfl
  · constructor
    case code_eq => rfl
    case message_text => exact htext
    case detail_text => exact hdetail
    case recoverable => exact ⟨by rw [htext, Percent.decode_encode], Base64.decode_encode _ _⟩
    case message_iff => exact fromUtf8Lossy_encode_eq_iff message
    case detail_iff => exact Base64.encode_eq_self_iff

/-- Code 16, a message with a space and a percent sign, and one byte of details. -/
theorem fromHeaderMap_wire_headers :
    let headers : HeaderList :=
      ⟨[("grpc-status", [0x31, 0x36]), ("grpc-message", [0x35, 0x20, 0x25, 0x32, 0x35]),
        ("grpc-status-details-bin", [0x2F, 0x77])]⟩
    ∃ status, Status.fromHeaderMap headers = .ok status ∧
      ReadOffWire headers status .unauthenticated "5 %" [0xFF] :=
  fromHeaderMap_wire _ .unauthenticated "5 %" [0xFF] ⟨rfl, rfl, false, rfl⟩

/-- A percent sign comes out as its escape. -/
theorem not_fromHeaderMap_decodes :
    ¬ ∀ (headers : HeaderList) (c : Code) (message : String) (detail : Bytes),
      WireStatus headers c message detail →
      ∃ status, Status.fromHeaderMap headers = .ok status ∧ status.code = c ∧
        status.message = message ∧ status.detail = detail := by
  intro h
  obtain ⟨status, hread, -, hmessage, -⟩ := h
    ⟨[("grpc-status", [0x30]), ("grpc-message", [0x25, 0x32, 0x35]),
      ("grpc-status-details-bin", [])]⟩ .ok "%" [] ⟨rfl, rfl, true, rfl⟩
  have hescape : Status.fromHeaderMap (H := HeaderList)
      ⟨[("grpc-status", [0x30]), ("grpc-message", [0x25, 0x32, 0x35]),
        ("grpc-status-details-bin", [])]⟩ = .ok ⟨.ok, "%25", [], none⟩ := rfl
  obtain rfl := Except.ok.inj (hescape.symm.trans hread)
  revert hmessage
  decide

end LieGrpc
