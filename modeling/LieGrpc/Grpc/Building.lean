import LieGrpc.Grpc.Request
import LieGrpc.Library.Ascii
import LieGrpc.MetadataHistory

/-!
# When a request can be built

Building a request panics if the builder does not accept a name or a value of the metadata.
`insert` keeps out most of what the builder refuses, but not the empty name and not a name
that is too long; and the list that `get_mut` hands out can be given any value.
-/

namespace LieGrpc

variable {M H : Type} [Message M] [RequestHeaders H]

/-! ## What the builder accepts -/

theorem isSome_foldl_header [LawfulRequestHeaders H] (name : String) (values : List String)
    (builder : Builder H) :
    (values.foldl (fun builder v => builder.header name (utf8 v)) builder).isSome = true ↔
      builder.isSome = true ∧
        ∀ v ∈ values, acceptsName name = true ∧ acceptsValue (utf8 v) = true := by
  induction values generalizing builder with
  | nil => simp
  | cons v values ih => simp [ih, Builder.isSome_header, and_assoc]

theorem isSome_foldl_entries [LawfulRequestHeaders H] (entries : List (String × List String))
    (builder : Builder H) :
    (entries.foldl (fun builder entry =>
      entry.2.foldl (fun builder v => builder.header entry.1 (utf8 v)) builder)
        builder).isSome = true ↔
      builder.isSome = true ∧ ∀ name values, (name, values) ∈ entries →
        ∀ v ∈ values, acceptsName name = true ∧ acceptsValue (utf8 v) = true := by
  induction entries generalizing builder with
  | nil => simp
  | cons entry entries ih =>
    rw [List.foldl_cons, ih, isSome_foldl_header]
    grind

/-- The loop over the metadata succeeds if all of their names and values are accepted. -/
theorem isSome_requestBuilder [LawfulRequestHeaders H] (metadata : MetadataMap) :
    (requestBuilder (H := H) metadata).isSome = true ↔
      ∀ name values, metadata.get name = some values →
        ∀ v ∈ values, acceptsName name = true ∧ acceptsValue (utf8 v) = true := by
  have hnew : (((Builder.new : Builder H).version .http2).method .post).isSome = true := rfl
  have hcontent : ((((Builder.new : Builder H).version .http2).method .post).header "content-type"
      (utf8 applicationGrpcProto)).isSome = true := by
    rw [Builder.isSome_header, hnew, Bool.true_and]
    decide
  rw [requestBuilder, isSome_foldl_entries]
  simp only [hcontent, true_and, MetadataMap.mem_iter]

variable (M H) in
/-- Both kinds of request can be built with these metadata. -/
structure Builds (metadata : MetadataMap) : Prop where
  unary : ∀ (message : M) b, ProstEncoder.encode message = .ok b →
    ∃ request, Request.intoUnary (H := H) ⟨message, metadata⟩ = .ok (some request)
  stream : ∀ messages : List M,
    ∃ request, Request.intoStream (H := H) ⟨messages, metadata⟩ = some request

theorem builds_iff (metadata : MetadataMap) :
    Builds M H metadata ↔ (requestBuilder (H := H) metadata).isSome = true := by
  have hinto (body : Payload) : (∃ request, intoHttpRequest (H := H) metadata body = some request) ↔
      (requestBuilder (H := H) metadata).isSome = true := by
    rw [← Option.isSome_iff_exists, intoHttpRequest, Builder.body, Option.isSome_map]
  constructor
  · intro h
    exact (hinto _).mp (h.stream [])
  · intro h
    refine ⟨fun message b hb => ?_, fun messages => (hinto _).mpr h⟩
    obtain ⟨request, hrequest⟩ := (hinto (.full b)).mpr h
    exact ⟨request, by simp [Request.intoUnary, hb, hrequest]⟩

/-! ## What the metadata let through -/

/-- The part of the grammar of names that `insert` leaves out. -/
def FitsName (name : String) : Prop := name ≠ "" ∧ (utf8 name).length ≤ 65535

theorem ascii_of_isNameChar {c : Char} (h : MetadataMap.isNameChar c = true) : c.toNat < 128 := by
  simp only [MetadataMap.isNameChar, Bool.or_eq_true, Bool.and_eq_true, decide_eq_true_eq] at h
  rcases h with (((h | h) | rfl) | rfl) | rfl
  · exact Nat.lt_of_le_of_lt h.2 (by decide)
  · exact Nat.lt_of_le_of_lt h.2 (by decide)
  all_goals decide

theorem ascii_of_isValueChar {c : Char} (h : MetadataMap.isValueChar c = true) :
    c.toNat < 128 := by
  simp only [MetadataMap.isValueChar, Bool.and_eq_true, decide_eq_true_eq] at h
  exact Nat.lt_of_le_of_lt h.2 (by decide)

theorem isTokenChar_of_isNameChar {c : Char} (h : MetadataMap.isNameChar c = true) :
    isTokenChar c = true := by
  have hascii := ascii_of_isNameChar h
  revert h
  apply forall_ascii (P := fun c => MetadataMap.isNameChar c = true → isTokenChar c = true) _ hascii
  decide

theorem acceptsName_iff {name : String} (h : MetadataMap.isValidName name = true) :
    acceptsName name = true ↔ FitsName name := by
  have htoken : name.toList.all isTokenChar = true := by
    simp only [MetadataMap.isValidName, Bool.and_eq_true, List.all_eq_true] at h ⊢
    exact fun c hc => isTokenChar_of_isNameChar (h.2 c hc)
  simp [acceptsName, htoken, FitsName]

theorem acceptsValue_of_isValidValue {value : String}
    (h : MetadataMap.isValidValue value = true) : acceptsValue (utf8 value) = true := by
  have hchar (c : Char) (hc : MetadataMap.isValueChar c = true) :
      acceptsValue (String.utf8EncodeChar c) = true := by
    have hascii := ascii_of_isValueChar hc
    revert hc
    apply forall_ascii (P := fun c => MetadataMap.isValueChar c = true →
      acceptsValue (String.utf8EncodeChar c) = true) _ hascii
    decide
  rw [MetadataMap.isValidValue, List.all_eq_true] at h
  rw [acceptsValue, utf8, List.all_flatMap, List.all_eq_true]
  exact fun c hc => hchar c (h c hc)

/-! ## Metadata after public operations -/

/-- The public operations on metadata: the keyed ones, and an edit of the list that `get_mut`
hands out. -/
inductive PublicOp (H : Type) where
  | keyed (op : MetadataMap.Op H)
  | getMut (name : String) (edit : List String → List String)

def PublicOp.apply (m : MetadataMap) : PublicOp H → MetadataMap
  | .keyed op => m.apply op
  | .getMut name edit => m.getMut name edit

/-- The metadata before, between and after some operations. -/
def metadataStates (m : MetadataMap) : List (PublicOp H) → List MetadataMap
  | [] => [m]
  | op :: ops => m :: metadataStates (op.apply m) ops

/-- The operation inserts no name that is empty or too long, and leaves no value with a
control byte. -/
def PublicOp.Fits (m : MetadataMap) : PublicOp H → Prop
  | .keyed op => ∀ name value, .add name value ∈ op.attempts →
      MetadataMap.accepted (.add name value) = true → FitsName name
  | .getMut name edit => ∀ values, m.get name = some values →
      ∀ v ∈ edit values, acceptsValue (utf8 v) = true

/-- Each operation fits where it is carried out. -/
def AllFit (m : MetadataMap) : List (PublicOp H) → Prop
  | [] => True
  | op :: ops => op.Fits m ∧ AllFit (op.apply m) ops

/-- A name that may be given to the builder with each of its values. -/
structure SoundEntry (name : String) (values : List String) : Prop where
  valid : MetadataMap.isValidName name = true
  fits : FitsName name
  accepted : ∀ v ∈ values, acceptsValue (utf8 v) = true

def Sound (m : MetadataMap) : Prop :=
  ∀ name values, m.get name = some values → SoundEntry name values

theorem Sound.new : Sound .new := by
  intro name values h
  simp at h

theorem Sound.insert {m : MetadataMap} (h : Sound m) {name value : String}
    (hfit : MetadataMap.accepted (.add name value) = true → FitsName name) :
    Sound (m.insert name value).2 := by
  intro other values hget
  rw [MetadataMap.get_insert] at hget
  by_cases hadded : name = other ∧
      (MetadataMap.isValidName name && MetadataMap.isValidValue value) = true
  · rw [if_pos hadded] at hget
    obtain ⟨rfl, hacc⟩ := hadded
    obtain ⟨hname, hvalue⟩ := Bool.and_eq_true_iff.mp hacc
    obtain rfl : (m.get name).getD [] ++ [value] = values := Option.some.inj hget
    refine ⟨hname, hfit hacc, fun v hv => ?_⟩
    rcases List.mem_append.mp hv with hold | hnew
    · cases hm : m.get name with
      | none => simp [hm] at hold
      | some vs => exact (h name vs hm).accepted v (by simpa [hm] using hold)
    · obtain rfl := List.mem_singleton.mp hnew
      exact acceptsValue_of_isValidValue hvalue
  · rw [if_neg hadded] at hget
    exact h other values hget

theorem Sound.mergeHttpHeader {m : MetadataMap} (h : Sound m) (headers : H)
    (hfit : ∀ name value, .add name value ∈ (MetadataMap.Op.mergeHttpHeader headers).attempts →
      MetadataMap.accepted (.add name value) = true → FitsName name) :
    Sound (m.mergeHttpHeader headers) := by
  unfold MetadataMap.mergeHttpHeader
  unfold MetadataMap.Op.attempts at hfit
  dsimp only at hfit
  generalize HeaderMap.iter headers = kvs at hfit ⊢
  induction kvs generalizing m with
  | nil => exact h
  | cons kv kvs ih =>
    refine ih (h.insert (hfit _ _ (by simp))) fun name value hmem => ?_
    exact hfit name value (by simpa using .inr (by simpa using hmem))

/-- Operations that fit keep the metadata sound. -/
theorem Sound.apply {m : MetadataMap} (h : Sound m) {op : PublicOp H} (hop : op.Fits m) :
    Sound (op.apply m) := by
  cases op with
  | keyed op =>
    cases op with
    | insert name value => exact h.insert (hop name value (by simp [MetadataMap.Op.attempts]))
    | mergeHttpHeader headers => exact h.mergeHttpHeader headers hop
    | remove name =>
      intro other values hget
      simp only [PublicOp.apply, MetadataMap.apply, MetadataMap.get_remove] at hget
      split at hget
      · cases hget
      · exact h other values hget
  | getMut name edit =>
    intro other values hget
    simp only [PublicOp.apply, MetadataMap.get_getMut] at hget
    split at hget
    · next hname =>
      subst hname
      obtain ⟨vs, hvs, rfl⟩ := Option.map_eq_some_iff.mp hget
      exact ⟨(h name vs hvs).valid, (h name vs hvs).fits, hop vs hvs⟩
    · exact h other values hget

theorem Sound.builds [LawfulRequestHeaders H] {m : MetadataMap} (h : Sound m) :
    Builds M H m := by
  rw [builds_iff, isSome_requestBuilder]
  intro name values hget v hv
  have hentry := h name values hget
  exact ⟨(acceptsName_iff hentry.valid).mpr hentry.fits, hentry.accepted v hv⟩

/-- An accepted insertion, also one of a merge, is in the map afterwards. -/
theorem mem_get_apply {m : MetadataMap} {op : MetadataMap.Op H} {name value : String}
    (h : .add name value ∈ op.attempts)
    (hacc : MetadataMap.accepted (.add name value) = true) :
    ∃ values, (m.apply op).get name = some values ∧ value ∈ values := by
  have happended (present : Option (List String)) {values : List String} (hv : value ∈ values) :
      ∃ all, MetadataMap.appended present values = some all ∧ value ∈ all := by
    cases values with
    | nil => cases hv
    | cons v vs => exact ⟨_, rfl, List.mem_append_right _ hv⟩
  cases op with
  | insert name' value' =>
    obtain ⟨rfl, rfl⟩ : name = name' ∧ value = value' := by
      simpa [MetadataMap.Op.attempts] using h
    rw [MetadataMap.apply, MetadataMap.get_insert, if_pos ⟨rfl, hacc⟩]
    exact happended _ (by simp)
  | mergeHttpHeader headers =>
    obtain ⟨kv, hkv, hadd⟩ := List.mem_map.mp h
    obtain ⟨rfl, rfl⟩ : kv.1 = name ∧ fromUtf8Lossy kv.2 = value := by simpa using hadd
    obtain ⟨hname, hvalue⟩ := Bool.and_eq_true_iff.mp hacc
    rw [MetadataMap.apply, MetadataMap.get_mergeHttpHeader]
    apply happended
    rw [MetadataMap.acceptedValues, if_pos hname, List.mem_filter]
    have hall : kv.2 ∈ HeaderMap.getAll headers kv.1 :=
      List.mem_map_of_mem (List.mem_filter.mpr ⟨hkv, by simp⟩)
    exact ⟨List.mem_map_of_mem hall, hvalue⟩
  | remove name' => simp [MetadataMap.Op.attempts] at h

/-- An operation after which a request can be built fits. -/
theorem fits_of_builds [LawfulRequestHeaders H] {m : MetadataMap} {op : PublicOp H}
    (h : Builds M H (op.apply m)) : op.Fits m := by
  rw [builds_iff, isSome_requestBuilder] at h
  cases op with
  | keyed op =>
    intro name value hmem hacc
    obtain ⟨values, hget, hv⟩ := mem_get_apply (m := m) hmem hacc
    have hvalid := (Bool.and_eq_true_iff.mp hacc).1
    exact (acceptsName_iff hvalid).mp (h name values hget value hv).1
  | getMut name edit =>
    intro values hget v hv
    have hedited : (m.getMut name edit).get name = some (edit values) := by
      rw [MetadataMap.get_getMut, if_pos rfl, hget]
      rfl
    exact (h name _ hedited v hv).2

theorem builds_states_iff_from [LawfulRequestHeaders H] {m : MetadataMap} (h : Sound m)
    (ops : List (PublicOp H)) :
    (∀ m' ∈ metadataStates m ops, Builds M H m') ↔ AllFit m ops := by
  induction ops generalizing m with
  | nil => simpa [metadataStates, AllFit] using h.builds
  | cons op ops ih =>
    simp only [metadataStates, List.forall_mem_cons, AllFit]
    constructor
    · rintro ⟨-, hrest⟩
      have hfit : op.Fits m := by
        apply fits_of_builds (M := M)
        apply hrest
        cases ops <;> simp [metadataStates]
      exact ⟨hfit, (ih (h.apply hfit)).mp hrest⟩
    · rintro ⟨hfit, hrest⟩
      exact ⟨h.builds, (ih (h.apply hfit)).mpr hrest⟩

/-- After every operation of a run a request can be built exactly if each of them fits. -/
theorem builds_states_iff [LawfulRequestHeaders H] (ops : List (PublicOp H)) :
    (∀ m ∈ metadataStates .new ops, Builds M H m) ↔ AllFit .new ops :=
  builds_states_iff_from Sound.new ops

/-- Insertions, one of them rejected, an edit and a removal. -/
theorem builds_states_iff_bool :
    let ops : List (PublicOp HeaderList) := [.keyed (.insert "x" "1"), .keyed (.insert "X" "2"),
      .getMut "x" fun values => values ++ ["3"], .keyed (.remove "x")]
    (∀ m ∈ metadataStates .new ops, Builds Bool HeaderList m) ↔ AllFit .new ops :=
  builds_states_iff _

/-- The empty name is inserted, and no request can be built. -/
theorem not_builds_emptyName :
    ¬ ∀ (ops : List (PublicOp HeaderList)), ∀ m ∈ metadataStates .new ops,
      Builds Bool HeaderList m := by
  intro h
  have hb := h [.keyed (.insert "" "v")] _ (List.mem_cons_of_mem _ List.mem_cons_self)
  have hfit : (PublicOp.keyed (.insert "" "v") : PublicOp HeaderList).Fits .new :=
    fits_of_builds hb
  exact (hfit "" "v" (by simp [MetadataMap.Op.attempts]) (by decide)).1 rfl

end LieGrpc
