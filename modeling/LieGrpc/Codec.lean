import LieGrpc.Framing
import LieGrpc.Status

/-!
# The message codec

`ProstEncoder` and `ProstDecoder` as in `codec.rs`, over an arbitrary message type.
The decoder is connected to the wire format once, in `decode_eq`: a call is one
attempt of `framing` at the front of the buffer, and the payload it takes is handed
to the message type. The results of calling it repeatedly follow from the laws of
incremental parsers.
-/

namespace LieGrpc

def headerSize : Nat := 5

variable {M : Type} [Message M]

def ProstEncoder.encode (message : M) : Except Status Bytes :=
  let buf := List.replicate 5 0
  match Message.encode message buf with
  | .error e => .error (.fromEncodeError e)
  | .ok buf =>
    let len := buf.length - 5
    -- the reserved header is overwritten: no compression, then `len as u32`
    .ok ((0x00 :: BigEndian.encode 4 (len % 2 ^ 32)) ++ buf.drop headerSize)

/-- What the encoder returns is the frame of the message, its length cut to the field. -/
theorem ProstEncoder.encode_eq_ok_iff {m : M} {f : Bytes} :
    ProstEncoder.encode m = .ok f ↔
      (Message.encodeToVec m).length ≤ Message.remainingMut M (List.replicate 5 0) ∧
        f = frame (Message.encodeToVec m) := by
  rw [ProstEncoder.encode, Message.encode]
  by_cases hroom : (Message.encodeToVec m).length > Message.remainingMut M (List.replicate 5 0)
  · rw [if_pos hroom]
    exact iff_of_false (by simp) fun h => absurd h.1 (Nat.not_le_of_gt hroom)
  · rw [if_neg hroom]
    have hlen : BigEndian.encode 4 ((Message.encodeToVec m).length % 2 ^ 32) =
        BigEndian.encode 4 (Message.encodeToVec m).length := BigEndian.encode_mod 4 _
    have hdrop : (List.replicate 5 0 ++ Message.encodeToVec m).drop headerSize =
        Message.encodeToVec m := rfl
    simp only [List.length_append, List.length_replicate, Nat.add_sub_cancel_left, hlen, hdrop,
      Except.ok.injEq]
    rw [and_iff_right (Nat.le_of_not_gt hroom), frame, eq_comm]

/-- Up to the limit of the length field the encoder writes the frame of the message. -/
theorem ProstEncoder.encode_eq [LawfulMessage M] {m : M}
    (h : (Message.encodeToVec m).length < 2 ^ 32) :
    ProstEncoder.encode m = .ok (frame (Message.encodeToVec m)) := by
  have hroom : 2 ^ 32 ≤ Message.remainingMut M (List.replicate 5 0) :=
    LawfulMessage.le_remainingMut _ (by simp)
  exact ProstEncoder.encode_eq_ok_iff.mpr ⟨h.le.trans hroom, rfl⟩

theorem ProstEncoder.map_encode [LawfulMessage M] {ms : List M}
    (h : ∀ m ∈ ms, (Message.encodeToVec m).length < 2 ^ 32) :
    ms.map ProstEncoder.encode = ((ms.map Message.encodeToVec).map frame).map .ok := by
  rw [List.map_map, List.map_map]
  exact List.map_congr_left fun m hm => ProstEncoder.encode_eq (h m hm)

/-- Whatever the encoder returns for some messages are their frames. -/
theorem ProstEncoder.eq_frames {ms : List M} {fs : List Bytes}
    (hfs : ms.map ProstEncoder.encode = fs.map .ok) :
    fs = (ms.map Message.encodeToVec).map frame := by
  induction ms generalizing fs with
  | nil => simpa using hfs.symm
  | cons m ms ih =>
    cases fs with
    | nil => cases hfs
    | cons f fs =>
      obtain ⟨hm, hms⟩ := List.cons_eq_cons.mp hfs
      obtain ⟨-, rfl⟩ := ProstEncoder.encode_eq_ok_iff.mp hm
      rw [ih hms]
      rfl

namespace ProstDecoder

def unsupportedCompression : Status := .new .unimplemented "do not support compression"

variable (M)

/-- The result of the call and the buffer after it. -/
def decode (buf : Bytes) : Except Status (Option M) × Bytes :=
  if buf.length < headerSize then (.ok none, buf)
  else if buf[0]! ≠ 0 then (.error unsupportedCompression, buf)
  else
    let i := (buf.drop 1).take 4
    let len := BigEndian.decode i
    if buf.length < headerSize + len then (.ok none, buf)
    else
      let buf := buf.drop headerSize
      let (payload, buf) := (buf.take len, buf.drop len)
      match Message.decode payload with
      | .ok message => (.ok (some message), buf)
      | .error e => (.error (.fromDecodeError e), buf)

/-- What a caller makes of a payload. -/
def ofPayload (payload : Bytes) : Except Status M :=
  match Message.decode payload with
  | .ok message => .ok message
  | .error e => .error (.fromDecodeError e)

/-- A call of the decoder is one attempt at the front of the buffer. -/
theorem decode_eq (buf : Bytes) :
    decode M buf =
      (match attemptFrame buf with
        | .more => .ok none
        | .halt _ => .error unsupportedCompression
        | .item payload _ => (ofPayload M payload).map some,
      (attemptFrame buf).advance buf) := by
  have hd : BigEndian.decode ((buf.drop 1).take 4) = declaredLength buf := rfl
  by_cases h5 : buf.length < 5
  · simp only [decode, attemptFrame, headerSize, h5, ↓reduceIte, Attempt.advance_more]
  by_cases hflag : buf[0]! = 0
  swap
  · simp only [decode, attemptFrame, headerSize, h5, ne_eq, hflag, not_false_eq_true, ↓reduceIte,
      Attempt.advance_halt]
  by_cases hlen : buf.length < 5 + declaredLength buf
  · simp only [decode, attemptFrame, headerSize, hd, h5, ne_eq, hflag, not_true_eq_false, hlen,
      ↓reduceIte, Attempt.advance_more]
  · simp only [decode, attemptFrame, headerSize, hd, h5, ne_eq, hflag, not_true_eq_false, hlen,
      ↓reduceIte, Attempt.advance_item, ofPayload, List.drop_drop]
    cases Message.decode (M := M) ((buf.drop 5).take (declaredLength buf)) <;> rfl

variable {M}

theorem decode_of_more {buf : Bytes} (h : attemptFrame buf = .more) :
    decode M buf = (.ok none, buf) := by simp [decode_eq, h]

theorem decode_of_halt {buf : Bytes} {e : Unit} (h : attemptFrame buf = .halt e) :
    decode M buf = (.error unsupportedCompression, buf) := by simp [decode_eq, h]

theorem decode_of_item {buf payload : Bytes} {n : Nat} (h : attemptFrame buf = .item payload n) :
    decode M buf = ((ofPayload M payload).map some, buf.drop n) := by simp [decode_eq, h]

theorem ofPayload_encode [LawfulMessage M] (m : M) :
    ofPayload M (Message.encodeToVec m) = .ok m := by
  simp [ofPayload, LawfulMessage.decode_encodeToVec]

theorem map_ofPayload_encode [LawfulMessage M] (ms : List M) :
    (ms.map Message.encodeToVec).map (ofPayload M) = ms.map .ok := by
  rw [List.map_map]
  exact List.map_congr_left fun m _ => ofPayload_encode m

/-- Whether a result is the refusal of a flag byte. -/
def isCompression : Except Status M → Bool
  | .error e => e.code = .unimplemented
  | .ok _ => false

@[simp] theorem isCompression_ofPayload (payload : Bytes) :
    isCompression (ofPayload M payload) = false := by
  unfold ofPayload
  split <;> rfl

/-- `Ok(None)` is the answer to an undecided buffer only. -/
theorem decode_eq_none_iff {buf : Bytes} :
    (decode M buf).1 = .ok none ↔ attemptFrame buf = .more := by
  cases h : attemptFrame buf with
  | more => simp [decode_of_more h]
  | halt e => simp [decode_of_halt h]
  | item payload n =>
    rw [decode_of_item h]
    cases ofPayload M payload <;> simp [Except.map]

/-! ## Calling the decoder until it delivers nothing -/

variable (M)

/-- Call `decode` until it returns `Ok(None)` or the unsupported-compression error, at
most `fuel` times. -/
def drain : Nat → Bytes → Option (List (Except Status M) × Bytes)
  | 0, _ => none
  | fuel + 1, buf =>
    match decode M buf with
    | (.ok none, buf) => some ([], buf)
    | (.ok (some message), buf) => (drain fuel buf).map fun r => (.ok message :: r.1, r.2)
    | (.error e, buf) =>
      if e.code = .unimplemented then some ([.error e], buf)
      else (drain fuel buf).map fun r => (.error e :: r.1, r.2)

/-- Every item takes a byte, so this many calls are enough for any buffer. -/
def drainAll (buf : Bytes) : Option (List (Except Status M) × Bytes) :=
  drain M (buf.length + 1) buf

/-- Append the chunks one at a time and drain the buffer after each. -/
def feed : Bytes → List Bytes → Option (List (Except Status M) × Bytes)
  | buf, [] => some ([], buf)
  | buf, c :: cs =>
    (drainAll M (buf ++ c)).bind fun r => (feed r.2 cs).map fun t => (r.1 ++ t.1, t.2)

variable {M}

/-- A log with the repeats of the compression error left out. -/
def countedOnce : List (Except Status M) → List (Except Status M)
  | [] => []
  | r :: rs =>
    if isCompression r then r :: rs.filter fun r => !isCompression r else r :: countedOnce rs

/-- The result that stands for an entry of a parser's log. -/
def ofEntry : Bytes ⊕ Unit → Except Status M
  | .inl payload => ofPayload M payload
  | .inr _ => .error unsupportedCompression

@[simp] theorem isCompression_ofEntry (x : Bytes ⊕ Unit) :
    isCompression (ofEntry (M := M) x) = x.isRight := by
  cases x with
  | inl payload => exact isCompression_ofPayload payload
  | inr _ => rfl

theorem countedOnce_map_ofEntry (log : List (Bytes ⊕ Unit)) :
    countedOnce (log.map (ofEntry (M := M))) = (Incremental.onceRefused log).map ofEntry := by
  induction log with
  | nil => rfl
  | cons x log ih =>
    cases x with
    | inl payload => simp [countedOnce, Incremental.onceRefused, ih]
    | inr e =>
      have hkeep : (fun r => !isCompression (M := M) r) ∘ ofEntry = Sum.isLeft := by
        funext x
        cases x <;> simp
      simp [countedOnce, Incremental.onceRefused, List.filter_map, hkeep]

/-- Draining is the greedy parse: `fuel` only has to exceed the number of items. -/
theorem drain_eq {fuel : Nat} {buf : Bytes} (h : (framing.items buf).length < fuel) :
    drain M fuel buf = some ((framing.drainLog buf).map ofEntry, framing.rest buf) := by
  induction fuel generalizing buf with
  | zero => omega
  | succ fuel ih =>
    cases ha : attemptFrame buf with
    | more =>
      have hs : (framing.attempt buf).item? = none := by simp [ha]
      simp [drain, decode_of_more ha, Incremental.drainLog, Incremental.items_of_stop hs,
        Incremental.rest_of_stop hs, ha]
    | halt e =>
      have hs : (framing.attempt buf).item? = none := by simp [ha]
      have hlog : framing.drainLog buf = [.inr e] := Incremental.drainLog_of_halt ha
      simp [drain, decode_of_halt ha, hlog, Incremental.rest_of_stop hs, ofEntry,
        unsupportedCompression, Status.new]
    | item payload n =>
      have hc := Incremental.Consumes.single (P := framing) ha
      have hlog : framing.drainLog buf = .inl payload :: framing.drainLog (buf.drop n) := by
        simp [Incremental.drainLog, hc.items, hc.rest]
      rw [hc.items] at h
      have hrec := @ih (buf.drop n) (by simpa using h)
      rw [hlog, hc.rest, drain, decode_of_item ha]
      cases hp : ofPayload M payload with
      | ok m => simp [Except.map, hrec, ofEntry, hp]
      | error e =>
        have he : e.code ≠ .unimplemented := by
          have := isCompression_ofPayload (M := M) payload
          simpa [hp, isCompression] using this
        simp [Except.map, hrec, ofEntry, hp, he]

theorem drainAll_eq (buf : Bytes) :
    drainAll M buf = some ((framing.drainLog buf).map ofEntry, framing.rest buf) := by
  have hle := (Incremental.consumes_drain (P := framing) buf).length_le
  exact drain_eq (by omega)

theorem feed_eq (buf : Bytes) (cs : List Bytes) :
    feed M buf cs = some ((framing.feedLog buf cs).1.map ofEntry, (framing.feedLog buf cs).2) := by
  induction cs generalizing buf with
  | nil => rfl
  | cons c cs ih => simp [feed, drainAll_eq, ih, Incremental.feedLog]

/-- Frames of encoded messages before a buffer that holds no frame decode to the messages,
and that buffer is what is left. -/
theorem drain_frames [LawfulMessage M] {ms : List M}
    (hlen : ∀ m ∈ ms, (Message.encodeToVec m).length < 2 ^ 32) {s : Bytes}
    (hs : attemptFrame s = .more) {fuel : Nat} (hfuel : ms.length < fuel) :
    drain M fuel (frames (ms.map Message.encodeToVec) ++ s) = some (ms.map .ok, s) := by
  have hfit : ∀ p ∈ ms.map Message.encodeToVec, p.length < 2 ^ 32 := by simpa using hlen
  have hitems := items_frames hfit hs
  have hrest := rest_frames hfit hs
  have hlog : framing.drainLog (frames (ms.map Message.encodeToVec) ++ s) =
      (ms.map Message.encodeToVec).map .inl := by
    simp only [Incremental.drainLog, hitems, hrest, framing_attempt, hs, List.append_nil]
  rw [drain_eq (by simpa [hitems] using hfuel), hlog, hrest, List.map_map]
  exact congrArg (fun l => some (l, s)) (map_ofPayload_encode ms)

variable (M) in
/-- What an answer that is no message does to the buffer: a payload that does not decode
takes exactly its frame, and the other two take nothing. -/
structure FailureConsumption (b r : Bytes) : Prop where
  incomplete : decode M b = (.ok none, r) → r = b
  refused : ∀ e, decode M b = (.error e, r) → e.code = .unimplemented → r = b
  payload : ∀ e, decode M b = (.error e, r) → e.code ≠ .unimplemented →
    ∃ payload d, payload.length < 2 ^ 32 ∧ b = frame payload ++ r ∧
      Message.decode (M := M) payload = .error d ∧ e = .fromDecodeError d

theorem failureConsumption (b r : Bytes) : FailureConsumption M b r := by
  cases h : attemptFrame b with
  | more => constructor <;> simp [decode_of_more h, eq_comm]
  | halt u =>
    have hdec := decode_of_halt (M := M) h
    constructor
    · simp [hdec]
    · rintro e he -
      exact (congrArg Prod.snd (hdec.symm.trans he)).symm
    · intro e he hcode
      obtain rfl : unsupportedCompression = e := by simpa [hdec] using congrArg Prod.fst he
      exact absurd rfl hcode
  | item payload n =>
    obtain ⟨hlen, rfl, c, rfl⟩ := attemptFrame_eq_item_iff.mp h
    have hdec := decode_of_item (M := M) h
    rw [List.drop_left] at hdec
    cases hp : Message.decode (M := M) payload with
    | ok m => constructor <;> simp [hdec, ofPayload, hp, Except.map]
    | error d =>
      have hfail : ∀ e, decode M (frame payload ++ c) = (.error e, r) →
          e = .fromDecodeError d ∧ r = c := by
        simp [hdec, ofPayload, hp, Except.map, eq_comm]
      constructor
      · simp [hdec, ofPayload, hp, Except.map]
      · intro e he hcode
        rw [(hfail e he).1] at hcode
        cases hcode
      · intro e he _
        obtain ⟨rfl, rfl⟩ := hfail e he
        exact ⟨payload, d, hlen, rfl, hp, rfl⟩

/-- Draining after every chunk gives what draining the whole at once gives, whatever the
bytes and wherever they are cut. That is the greedy parse of the bytes. -/
theorem feed_eq_drainAll (chunks : List Bytes) :
    (∃ log whole r, feed M [] chunks = some (log, r) ∧
      drainAll M chunks.flatten = some (whole, r) ∧ countedOnce log = whole) ∧
    (∀ buf, drainAll M buf = some ((framing.drainLog buf).map ofEntry, framing.rest buf)) ∧
    ∀ b r, FailureConsumption M b r := by
  have hfeed := feed_eq (M := M) [] chunks
  rw [Incremental.feedLog_rest [] chunks rfl] at hfeed
  refine ⟨⟨_, _, _, hfeed, drainAll_eq _, ?_⟩, drainAll_eq, failureConsumption⟩
  rw [countedOnce_map_ofEntry, Incremental.onceRefused_feedLog [] chunks rfl, List.nil_append]

end ProstDecoder

end LieGrpc
