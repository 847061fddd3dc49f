import LieGrpc.Library.Chunked
import LieGrpc.Library.BigEndian
import LieGrpc.Runtime.Std

/-!
# The length-prefixed wire format

A frame is a zero flag byte, the payload length as four big-endian bytes, and the
payload. `framing` is the incremental parser of a stream of frames: it delivers
payloads and refuses a nonzero flag. That its attempts say exactly where a frame
stands (`attemptFrame_eq_item_iff`) is what later results use; none of them looks at the
header again.
-/

namespace LieGrpc

def frame (payload : Bytes) : Bytes :=
  0 :: BigEndian.encode 4 payload.length ++ payload

/-- The payload length that the four bytes after the flag declare. -/
def declaredLength (b : Bytes) : Nat := BigEndian.decode ((b.drop 1).take 4)

@[simp] theorem length_frame (payload : Bytes) : (frame payload).length = 5 + payload.length := by
  simp [frame]
  omega

theorem declaredLength_lt (b : Bytes) : declaredLength b < 2 ^ 32 := by
  have h := BigEndian.decode_lt ((b.drop 1).take 4)
  have hle : 256 ^ ((b.drop 1).take 4).length ≤ 256 ^ 4 :=
    Nat.pow_le_pow_right (by omega) (List.length_take_le _ _)
  exact Nat.lt_of_lt_of_le h hle

theorem declaredLength_frame {payload : Bytes} (h : payload.length < 2 ^ 32) (c : Bytes) :
    declaredLength (frame payload ++ c) = payload.length := by
  have h4 : ((frame payload ++ c).drop 1).take 4 = BigEndian.encode 4 payload.length := by
    simp [frame]
  rw [declaredLength, h4, BigEndian.decode_encode_of_lt h]

/-- Where the flag is zero and enough bytes follow, a frame stands at the front. -/
theorem eq_frame_append {b : Bytes} (h0 : b[0]! = 0) (h : 5 + declaredLength b ≤ b.length) :
    b = frame ((b.drop 5).take (declaredLength b)) ++ b.drop (5 + declaredLength b) := by
  have hlen : ((b.drop 5).take (declaredLength b)).length = declaredLength b := by simp; omega
  have hhead : BigEndian.encode 4 (declaredLength b) = (b.drop 1).take 4 := by
    have := BigEndian.encode_decode ((b.drop 1).take 4)
    rwa [show ((b.drop 1).take 4).length = 4 by simp; omega] at this
  rw [frame, hlen, hhead]
  generalize declaredLength b = n
  cases b with
  | nil => simp at h
  | cons f body =>
    obtain rfl : f = 0 := by simpa using h0
    calc 0 :: body
        = 0 :: (body.take 4 ++ ((body.drop 4).take n ++ body.drop (4 + n))) := by
          rw [← List.drop_drop, List.take_append_drop, List.take_append_drop]
      _ = _ := by simp [show 5 + n = 4 + n + 1 by omega]

/-- What stands at the front of a stream of frames. -/
def attemptFrame (b : Bytes) : Attempt Bytes Unit :=
  if b.length < 5 then .more
  else if b[0]! ≠ 0 then .halt ()
  else if b.length < 5 + declaredLength b then .more
  else .item ((b.drop 5).take (declaredLength b)) (5 + declaredLength b)

@[simp] theorem attemptFrame_nil : attemptFrame [] = .more := rfl

theorem attemptFrame_frame {payload : Bytes} (h : payload.length < 2 ^ 32) (c : Bytes) :
    attemptFrame (frame payload ++ c) = .item payload (frame payload).length := by
  have hd : (frame payload ++ c).drop 5 = payload ++ c := by simp [frame]
  have h0 : (frame payload ++ c)[0]! = 0 := rfl
  simp only [attemptFrame, declaredLength_frame h, hd, h0, List.take_left, length_frame,
    List.length_append]
  rw [if_neg (by omega), if_neg (by simp), if_neg (by omega)]

/-- A payload is delivered exactly when its frame stands at the front. -/
theorem attemptFrame_eq_item_iff {b payload : Bytes} {n : Nat} :
    attemptFrame b = .item payload n ↔
      payload.length < 2 ^ 32 ∧ n = (frame payload).length ∧ frame payload <+: b := by
  constructor
  · intro h
    unfold attemptFrame at h
    split at h
    · cases h
    split at h
    · cases h
    next hflag =>
    split at h
    · cases h
    next hlen =>
    obtain ⟨rfl, rfl⟩ := Attempt.item.inj h
    have hb := eq_frame_append (not_not.mp hflag) (not_lt.mp hlen)
    have hpay : ((b.drop 5).take (declaredLength b)).length = declaredLength b := by simp; omega
    exact ⟨by rw [hpay]; exact declaredLength_lt b, by rw [length_frame, hpay], ⟨_, hb.symm⟩⟩
  · rintro ⟨hlen, rfl, c, rfl⟩
    exact attemptFrame_frame hlen c

theorem attemptFrame_eq_halt_iff {b : Bytes} {e : Unit} :
    attemptFrame b = .halt e ↔ 5 ≤ b.length ∧ b[0]! ≠ 0 := by
  unfold attemptFrame
  split
  · next h => simp; omega
  split
  · next h hflag => exact iff_of_true rfl ⟨not_lt.mp h, hflag⟩
  split <;> simp_all

/-- A buffer whose next byte could still decide what stands at its front. -/
def Undecided (b : Bytes) : Prop :=
  b.length < 5 ∨ b[0]! = 0 ∧ b.length < 5 + declaredLength b

theorem attemptFrame_eq_more_iff {b : Bytes} : attemptFrame b = .more ↔ Undecided b := by
  unfold attemptFrame Undecided
  split
  · next h => exact iff_of_true rfl (.inl h)
  split
  · next h hflag => exact iff_of_false (by simp) (by simp_all)
  split <;> simp_all

theorem getElem!_zero_append {b : Bytes} (h : 0 < b.length) (c : Bytes) :
    (b ++ c)[0]! = b[0]! := by
  cases b with
  | nil => simp at h
  | cons f body => rfl

/-- The incremental parser of a stream of frames. -/
def framing : Incremental UInt8 Bytes Unit where
  attempt := attemptFrame
  stable b c h := by
    cases hb : attemptFrame b with
    | more => exact absurd hb h
    | halt e =>
      obtain ⟨hlen, hflag⟩ := attemptFrame_eq_halt_iff.mp hb
      refine attemptFrame_eq_halt_iff.mpr ⟨by simp; omega, ?_⟩
      rwa [getElem!_zero_append (by omega)]
    | item payload n =>
      obtain ⟨hlen, hn, hpre⟩ := attemptFrame_eq_item_iff.mp hb
      exact attemptFrame_eq_item_iff.mpr ⟨hlen, hn, hpre.trans (List.prefix_append b c)⟩
  bounded b payload n h := by
    obtain ⟨-, rfl, hpre⟩ := attemptFrame_eq_item_iff.mp h
    exact ⟨by rw [length_frame]; omega, hpre.length_le⟩

@[simp] theorem framing_attempt (b : Bytes) : framing.attempt b = attemptFrame b := rfl

/-- A frame is no beginning of another one. -/
theorem frame_eq_append {payload payload' c : Bytes} (h : payload.length < 2 ^ 32)
    (h' : payload'.length < 2 ^ 32) (heq : frame payload' = frame payload ++ c) : c = [] := by
  have hitem := attemptFrame_frame h c
  rw [← heq, ← List.append_nil (frame payload'), attemptFrame_frame h'] at hitem
  obtain ⟨rfl, -⟩ := Attempt.item.inj hitem
  exact List.self_eq_append_right.mp heq

/-! ## Streams of frames -/

/-- The frames of some payloads, one after another. -/
def frames (payloads : List Bytes) : Bytes := (payloads.map frame).flatten

@[simp] theorem frames_nil : frames [] = [] := rfl
@[simp] theorem frames_cons (p : Bytes) (ps : List Bytes) :
    frames (p :: ps) = frame p ++ frames ps := rfl

theorem consumes_frames {ps : List Bytes} (h : ∀ p ∈ ps, p.length < 2 ^ 32) (c : Bytes) :
    framing.Consumes (frames ps ++ c) ps c := by
  induction ps with
  | nil => exact .refl c
  | cons p ps ih =>
    have hp : framing.attempt (frames (p :: ps) ++ c) = .item p (frame p).length := by
      rw [framing_attempt, frames_cons, List.append_assoc]
      exact attemptFrame_frame (h p (by simp)) _
    refine .item hp ?_
    rw [frames_cons, List.append_assoc, List.drop_left]
    exact ih fun q hq => h q (by simp [hq])

/-- Consuming payloads is taking their frames off the front. -/
theorem consumes_iff {b r : Bytes} {ps : List Bytes} :
    framing.Consumes b ps r ↔ (∀ p ∈ ps, p.length < 2 ^ 32) ∧ b = frames ps ++ r := by
  constructor
  · intro h
    induction h with
    | refl b => simp
    | item ha _ ih =>
      obtain ⟨hlen, rfl, c, rfl⟩ := attemptFrame_eq_item_iff.mp ha
      rw [List.drop_left] at ih
      obtain ⟨hps, rfl⟩ := ih
      exact ⟨by simpa using ⟨hlen, hps⟩, by simp⟩
  · rintro ⟨h, rfl⟩
    exact consumes_frames h r

/-- How many frames are complete within the first `n` bytes of their concatenation. -/
def framesWithin : List Bytes → Nat → Nat
  | [], _ => 0
  | f :: fs, n => if f.length ≤ n then framesWithin fs (n - f.length) + 1 else 0

/-- The parser finds in a beginning of a stream of frames just the frames complete in it; what
follows them undecided makes no difference. -/
theorem length_items_of_beginning {ps : List Bytes} (h : ∀ p ∈ ps, p.length < 2 ^ 32)
    {t : Bytes} (ht : attemptFrame t = .more) {b : Bytes} (hb : b <+: frames ps ++ t) :
    (framing.items b).length = framesWithin (ps.map frame) b.length := by
  induction ps generalizing b with
  | nil =>
    obtain ⟨c, rfl⟩ : b <+: t := hb
    have hmore : framing.attempt b = .more := framing.more_of_append ht
    have hs : (framing.attempt b).item? = none := by rw [hmore]; rfl
    rw [Incremental.items_of_stop hs]
    rfl
  | cons p ps ih =>
    have hp := h p (by simp)
    obtain ⟨c, hc⟩ := hb
    rw [frames_cons, List.append_assoc] at hc
    have hwhole : framing.attempt (b ++ c) = .item p (frame p).length := by
      rw [framing_attempt, hc]
      exact attemptFrame_frame hp _
    by_cases hle : (frame p).length ≤ b.length
    · obtain ⟨b', rfl⟩ : frame p <+: b :=
        List.prefix_of_prefix_length_le (List.prefix_append _ _) ⟨c, hc⟩ hle
      have hrec := ih (fun q hq => h q (by simp [hq])) (b := b')
        ⟨c, by simpa [List.append_assoc] using hc⟩
      have hfront : framing.attempt (frame p ++ b') = .item p (frame p).length := by
        rw [framing_attempt]
        exact attemptFrame_frame hp b'
      have hitems := (Incremental.Consumes.single hfront).items
      rw [List.drop_left] at hitems
      simp [hitems, framesWithin, hrec]
    · have hmore : framing.attempt b = .more :=
        framing.more_of_append_item hwhole (Nat.lt_of_not_le hle)
      have hs : (framing.attempt b).item? = none := by rw [hmore]; rfl
      rw [Incremental.items_of_stop hs]
      simp [framesWithin, -length_frame, hle]

/-- A proper beginning of a frame is undecided. -/
theorem attemptFrame_of_cut {p t : Bytes} (hp : p.length < 2 ^ 32) (ht : t <+: frame p)
    (hne : t ≠ frame p) : attemptFrame t = .more := by
  obtain ⟨c, hc⟩ := ht
  have hwhole : framing.attempt (t ++ c) = .item p (frame p).length := by
    rw [hc, framing_attempt]
    simpa using attemptFrame_frame hp []
  have hlt : t.length < (frame p).length := by
    by_contra hle
    exact hne (List.IsPrefix.eq_of_length_le ⟨c, hc⟩ (Nat.le_of_not_lt hle))
  exact framing.more_of_append_item hwhole hlt

theorem items_frames {ps : List Bytes} (h : ∀ p ∈ ps, p.length < 2 ^ 32) {t : Bytes}
    (ht : attemptFrame t = .more) : framing.items (frames ps ++ t) = ps := by
  have hstop : (framing.attempt t).item? = none := by rw [framing_attempt, ht]; rfl
  rw [(consumes_frames h t).items, Incremental.items_of_stop hstop, List.append_nil]

theorem rest_frames {ps : List Bytes} (h : ∀ p ∈ ps, p.length < 2 ^ 32) {t : Bytes}
    (ht : attemptFrame t = .more) : framing.rest (frames ps ++ t) = t := by
  have hstop : (framing.attempt t).item? = none := by rw [framing_attempt, ht]; rfl
  rw [(consumes_frames h t).rest, Incremental.rest_of_stop hstop]

end LieGrpc
