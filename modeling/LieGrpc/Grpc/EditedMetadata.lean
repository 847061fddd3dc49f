import LieGrpc.Grpc.RequestHeaders

/-!
# Metadata that were edited in place

The list that `get_mut` hands out can be given any values, and so can be empty. What of it reaches
the other side is what a merge accepts. Nothing checks the name again, so it is still one that
`insert` has accepted. A name without values is lost on the way, and the fixed content type is
one more value of its name wherever the metadata of a request are put into the next one.
-/

namespace LieGrpc

variable {H : Type} [RequestHeaders H]

/-- Fresh metadata after some public operations. -/
def edited (ops : List (PublicOp H)) : MetadataMap := ops.foldl PublicOp.apply .new

/-- All names are valid. -/
def Named (m : MetadataMap) : Prop :=
  ∀ name values, m.get name = some values → MetadataMap.isValidName name = true

/-! ## Names -/

theorem Named.new : Named .new := by
  intro name values h
  simp at h

/-- Values are appended to a name that is there, or to a valid one. -/
theorem Named.appended {m m' : MetadataMap} (h : Named m) {values : String → List String}
    (hvalid : ∀ name, values name ≠ [] → MetadataMap.isValidName name = true)
    (hget : ∀ name, m'.get name = MetadataMap.appended (m.get name) (values name)) : Named m' := by
  intro name all hall
  rw [hget] at hall
  cases hvalues : values name with
  | nil =>
    rw [hvalues] at hall
    exact h name all hall
  | cons v vs => exact hvalid name (by simp [hvalues])

/-- No operation adds a name that is not valid. -/
theorem Named.apply {m : MetadataMap} (h : Named m) (op : PublicOp H) : Named (op.apply m) := by
  cases op with
  | keyed op =>
    cases op with
    | insert name value =>
      refine h.appended (fun other hother => ?_) (m.get_insert name value)
      have hadded : name = other ∧
          (MetadataMap.isValidName name && MetadataMap.isValidValue value) = true := by
        by_contra hnot
        exact hother (if_neg hnot)
      obtain ⟨rfl, hacc⟩ := hadded
      exact (Bool.and_eq_true_iff.mp hacc).1
    | mergeHttpHeader headers =>
      refine h.appended (fun name hname => ?_) (m.get_mergeHttpHeader headers)
      by_contra hnot
      exact hname (if_neg hnot)
    | remove name =>
      intro other values hget
      simp only [PublicOp.apply, MetadataMap.apply, MetadataMap.get_remove] at hget
      split at hget
      · cases hget
      · exact h other values hget
  | getMut name edit =>
    intro other values hget
    simp only [PublicOp.apply, MetadataMap.get_getMut] at hget
    split at hget
    · obtain ⟨vs, hvs, -⟩ := Option.map_eq_some_iff.mp hget
      exact h other vs hvs
    · exact h other values hget

theorem named_edited (ops : List (PublicOp H)) : Named (edited ops) := by
  have hfold (m : MetadataMap) (h : Named m) : Named (ops.foldl PublicOp.apply m) := by
    induction ops generalizing m with
    | nil => exact h
    | cons op ops ih => exact ih _ (h.apply op)
  exact hfold _ Named.new

/-! ## One request -/

/-- Text that is read back printable was ASCII, and is read back as it was. -/
theorem fromUtf8Lossy_utf8_of_printable {v : String}
    (h : MetadataMap.isValidValue (fromUtf8Lossy (utf8 v)) = true) :
    fromUtf8Lossy (utf8 v) = v := by
  rw [← utf8_inj]
  apply utf8_fromUtf8Lossy_of_ascii
  apply ascii_of_fromUtf8Lossy
  intro c hc
  have hprintable : MetadataMap.isValueChar c = true := List.all_eq_true.mp h c hc
  refine ⟨?_, ascii_of_isValueChar hprintable⟩
  simp only [MetadataMap.isValueChar, Bool.and_eq_true, decide_eq_true_eq] at hprintable
  exact Nat.lt_of_lt_of_le (by decide) hprintable.1

/-- The other side accepts the printable values. -/
theorem acceptedValues_map_utf8 {name : String} (hname : MetadataMap.isValidName name = true)
    (values : List String) :
    MetadataMap.acceptedValues name (values.map utf8) =
      values.filter MetadataMap.isValidValue := by
  rw [MetadataMap.acceptedValues, if_pos hname, List.map_map]
  induction values with
  | nil => rfl
  | cons v values ih =>
    by_cases hv : MetadataMap.isValidValue v = true
    · have hread : fromUtf8Lossy (utf8 v) = v := by
        apply fromUtf8Lossy_utf8_of_ascii
        exact fun c hc => ascii_of_isValueChar (List.all_eq_true.mp hv c hc)
      simp [hread, hv, ih]
    · have hread : MetadataMap.isValidValue (fromUtf8Lossy (utf8 v)) ≠ true := by
        intro h
        rw [fromUtf8Lossy_utf8_of_printable h] at h
        exact hv h
      simp [hread, hv, ih]

/-- What a request carries of its metadata, as a merge into fresh metadata reads it. -/
theorem get_merged [LawfulRequestHeaders H] {metadata : MetadataMap} (hnames : Named metadata)
    {body : Payload} {request : HttpRequest H Payload}
    (h : intoHttpRequest metadata body = some request) (name : String) :
    (MetadataMap.new.mergeHttpHeader request.headers).get name = MetadataMap.appended none
      ((if contentType = name then [applicationGrpcProto] else []) ++
        ((metadata.get name).getD []).filter MetadataMap.isValidValue) := by
  rw [MetadataMap.get_mergeHttpHeader, MetadataMap.get_new, (request_of_validNames hnames h).2]
  refine congrArg _ ?_
  by_cases hname : MetadataMap.isValidName name = true
  · have hall : (if contentType = name then [utf8 applicationGrpcProto] else []) ++
        ((metadata.get name).getD []).map utf8 =
      ((if contentType = name then [applicationGrpcProto] else []) ++
        (metadata.get name).getD []).map utf8 := by
      rw [List.map_append]
      split <;> rfl
    rw [hall, acceptedValues_map_utf8 hname, List.filter_append]
    split
    · rfl
    · rfl
  · have hother : contentType ≠ name := by
      rintro rfl
      exact hname (by decide)
    have hnone : metadata.get name = none := by
      rw [Option.eq_none_iff_forall_ne_some]
      exact fun values hget => hname (hnames name values hget)
    simp [MetadataMap.acceptedValues, hname, hother, hnone]

/-! ## Many requests -/

variable (H) in
/-- The metadata that the other side reads from a request. -/
def Hop (metadata received : MetadataMap) : Prop :=
  ∃ body, ∃ request : HttpRequest H Payload, intoHttpRequest metadata body = some request ∧
    received = MetadataMap.new.mergeHttpHeader request.headers

variable (H) in
/-- Metadata that are received and sent on `n` times. -/
inductive Relayed (metadata : MetadataMap) : Nat → MetadataMap → Prop
  | start : Relayed metadata 0 metadata
  | hop {n : Nat} {sent received : MetadataMap} : Relayed metadata n sent →
    Hop H sent received → Relayed metadata (n + 1) received

theorem named_merged (headers : H) : Named (MetadataMap.new.mergeHttpHeader headers) :=
  Named.new.apply (.keyed (.mergeHttpHeader headers))

theorem getD_appended_none (values : List String) :
    (MetadataMap.appended none values).getD [] = values := by
  cases values <;> simp [MetadataMap.appended]

/-- Whatever is sent on keeps its printable values and gets one more content type. -/
theorem Relayed.get [LawfulRequestHeaders H] {metadata received : MetadataMap} {n : Nat}
    (hnames : Named metadata) (h : Relayed H metadata (n + 1) received) (name : String) :
    received.get name = MetadataMap.appended none
      ((if contentType = name then List.replicate (n + 1) applicationGrpcProto else []) ++
        ((metadata.get name).getD []).filter MetadataMap.isValidValue) := by
  induction n generalizing received with
  | zero =>
    obtain _ | ⟨hstart, body, request, hrequest, rfl⟩ := h
    cases hstart
    exact get_merged hnames hrequest name
  | succ n ih =>
    obtain _ | @⟨_, sent, _, hbefore, body, request, hrequest, rfl⟩ := h
    have hsent := ih hbefore
    obtain _ | ⟨-, _, before, -, rfl⟩ := hbefore
    rw [get_merged (named_merged before.headers) hrequest, hsent, getD_appended_none,
      List.filter_append, List.filter_filter]
    simp only [Bool.and_self, ← List.append_assoc]
    refine congrArg _ (congrArg (· ++ _) ?_)
    split
    · have hvalid : MetadataMap.isValidValue applicationGrpcProto = true := by decide
      rw [List.filter_replicate, if_pos hvalid, List.replicate_succ (n := n + 1)]
      rfl
    · rfl

theorem exists_hop {metadata : MetadataMap}
    (h : (requestBuilder (H := H) metadata).isSome = true) :
    ∃ received, Hop H metadata received := by
  obtain ⟨head, hhead⟩ := Option.isSome_iff_exists.mp h
  exact ⟨_, .stream [], ⟨head.version, head.method, head.headers, .stream []⟩,
    by rw [intoHttpRequest, hhead]; rfl, rfl⟩

theorem Hop.isSome {metadata received : MetadataMap} (h : Hop H metadata received) :
    (requestBuilder (H := H) metadata).isSome = true := by
  obtain ⟨body, request, hrequest, -⟩ := h
  obtain ⟨headers, hheaders, -⟩ := Option.map_eq_some_iff.mp hrequest
  rw [hheaders, Option.isSome_some]

/-- What has arrived can be sent on. -/
theorem Hop.isSome_received [LawfulRequestHeaders H] {metadata received : MetadataMap}
    (hnames : Named metadata) (h : Hop H metadata received) :
    (requestBuilder (H := H) received).isSome = true := by
  have hbuilder := (isSome_requestBuilder metadata).mp h.isSome
  obtain ⟨body, request, hrequest, rfl⟩ := h
  rw [isSome_requestBuilder]
  intro name values hget v hv
  rw [get_merged hnames hrequest] at hget
  have hmem := hv
  rw [← Option.getD_some (a := values) (b := []), ← hget, getD_appended_none, List.mem_append,
    List.mem_filter] at hmem
  rcases hmem with hcontent | ⟨hold, hvalid⟩
  · by_cases hname : contentType = name
    · subst hname
      obtain rfl : v = applicationGrpcProto := by simpa using hcontent
      exact ⟨by decide, by decide⟩
    · simp [hname] at hcontent
  · cases hsent : metadata.get name with
    | none => simp [hsent] at hold
    | some sent =>
      have haccepted := hbuilder name sent hsent v (by simpa [hsent] using hold)
      exact ⟨haccepted.1, acceptsValue_of_isValidValue hvalid⟩

theorem Relayed.isSome {metadata received : MetadataMap} {n : Nat}
    (h : Relayed H metadata (n + 1) received) :
    (requestBuilder (H := H) metadata).isSome = true := by
  induction n generalizing received with
  | zero =>
    obtain _ | ⟨hstart, hhop⟩ := h
    cases hstart
    exact hhop.isSome
  | succ n ih =>
    obtain _ | ⟨hbefore, -⟩ := h
    exact ih hbefore

theorem exists_relayed [LawfulRequestHeaders H] {metadata : MetadataMap} (hnames : Named metadata)
    (h : (requestBuilder (H := H) metadata).isSome = true) (n : Nat) :
    ∃ received, Relayed H metadata n received ∧ Named received ∧
      (requestBuilder (H := H) received).isSome = true := by
  induction n with
  | zero => exact ⟨metadata, .start, hnames, h⟩
  | succ n ih =>
    obtain ⟨sent, hsent, hnamed, hsome⟩ := ih
    obtain ⟨received, hhop⟩ := exists_hop hsome
    obtain ⟨_, request, -, rfl⟩ := id hhop
    exact ⟨_, .hop hsent hhop, named_merged request.headers, hhop.isSome_received hnamed⟩

/-- Metadata from which a request can be built can be sent on any number of times. Their
printable values arrive, and one more content type for each time. -/
theorem relayed_iff [LawfulRequestHeaders H] (ops : List (PublicOp H)) (n : Nat)
    (received : MetadataMap) :
    Relayed H (edited ops) (n + 1) received ↔
      (requestBuilder (H := H) (edited ops)).isSome = true ∧
        ∀ name, received.get name = MetadataMap.appended none
          ((if contentType = name then List.replicate (n + 1) applicationGrpcProto else []) ++
            (((edited ops).get name).getD []).filter MetadataMap.isValidValue) := by
  constructor
  · exact fun h => ⟨h.isSome, h.get (named_edited ops)⟩
  · rintro ⟨hsome, hget⟩
    obtain ⟨arrived, harrived, -, -⟩ := exists_relayed (named_edited ops) hsome (n + 1)
    have hsame : arrived = received := by
      apply MetadataMap.ext_get
      intro name
      rw [harrived.get (named_edited ops), hget]
    rwa [hsame] at harrived

/-- A list that was edited to a tab and a printable value, sent on once more. -/
theorem relayed_iff_tab :
    let ops : List (PublicOp HeaderList) :=
      [.keyed (.insert "x" "1"), .getMut "x" fun _ => ["\t", "2"]]
    let received : MetadataMap := MetadataMap.new.applyAll
      [.insert (H := HeaderList) contentType applicationGrpcProto,
        .insert contentType applicationGrpcProto, .insert "x" "2"]
    Relayed HeaderList (edited ops) 2 received ↔
      (requestBuilder (H := HeaderList) (edited ops)).isSome = true ∧
        ∀ name, received.get name = MetadataMap.appended none
          ((if contentType = name then List.replicate 2 applicationGrpcProto else []) ++
            (((edited ops).get name).getD []).filter MetadataMap.isValidValue) :=
  relayed_iff _ 1 _

end LieGrpc
