import LieGrpc.Grpc.Building

/-!
# The headers of a request

A request that can be built carries the fixed content type and then the metadata, each value
under its name and in its place. So the metadata can be read back from its headers. Nothing
keeps a second content type out of them.
-/

namespace LieGrpc

variable {H : Type} [RequestHeaders H]

/-! ## What the builder was given -/

theorem getAll_foldl_header [LawfulRequestHeaders H] {name : String} {values : List String}
    {builder : Builder H} {head : RequestParts H}
    (h : values.foldl (fun builder v => builder.header name (utf8 v)) builder = some head) :
    ∃ before, builder = some before ∧ head = { before with headers := head.headers } ∧
      ∀ other, HeaderMap.getAll head.headers other = HeaderMap.getAll before.headers other ++
        if name.map Char.toLower = other then values.map utf8 else [] := by
  induction values generalizing builder with
  | nil => exact ⟨head, h, rfl, fun other => by simp⟩
  | cons v values ih =>
    obtain ⟨between, hbetween, hsame, hvalues⟩ := ih h
    obtain ⟨before, hbefore, hkept, hv⟩ := Builder.header_eq_some hbetween
    refine ⟨before, hbefore, by rw [hsame, hkept], fun other => ?_⟩
    rw [hvalues, hv, List.append_assoc]
    split <;> rfl

/-- The loop over the metadata appends the values of each name. -/
theorem getAll_foldl_entries [LawfulRequestHeaders H] {entries : List (String × List String)}
    (hlower : ∀ entry ∈ entries, entry.1.map Char.toLower = entry.1) {builder : Builder H}
    {head : RequestParts H}
    (h : entries.foldl (fun builder entry =>
      entry.2.foldl (fun builder v => builder.header entry.1 (utf8 v)) builder) builder =
        some head) :
    ∃ before, builder = some before ∧ head = { before with headers := head.headers } ∧
      ∀ name, HeaderMap.getAll head.headers name =
        HeaderMap.getAll before.headers name ++ (Multimap.valuesAt name entries).map utf8 := by
  induction entries generalizing builder with
  | nil => exact ⟨head, h, rfl, fun name => by simp⟩
  | cons entry entries ih =>
    rw [List.forall_mem_cons] at hlower
    obtain ⟨between, hbetween, hsame, hentries⟩ := ih hlower.2 h
    obtain ⟨before, hbefore, hkept, hentry⟩ := getAll_foldl_header hbetween
    refine ⟨before, hbefore, by rw [hsame, hkept], fun name => ?_⟩
    rw [hentries, hentry, hlower.1, Multimap.valuesAt_cons, List.map_append, List.append_assoc]
    split <;> rfl

/-- The builder keeps a valid name as it is. -/
theorem toLower_of_isValidName {name : String} (h : MetadataMap.isValidName name = true) :
    name.map Char.toLower = name := by
  have hchar (c : Char) (hc : MetadataMap.isNameChar c = true) : c.toLower = c := by
    have hascii := ascii_of_isNameChar hc
    revert hc
    apply forall_ascii (P := fun c => MetadataMap.isNameChar c = true → c.toLower = c) _ hascii
    decide
  rw [MetadataMap.isValidName, Bool.and_eq_true, List.all_eq_true] at h
  rw [← String.toList_inj, String.toList_map]
  exact (List.map_congr_left fun c hc => hchar c (h.2 c hc)).trans (List.map_id _)

def contentType : String := "content-type"

/-- The request that is built of metadata with valid names: the values that it has for each name,
and what goes with them. -/
theorem request_of_validNames [LawfulRequestHeaders H] {metadata : MetadataMap}
    (hnames : ∀ name values, metadata.get name = some values →
      MetadataMap.isValidName name = true) {body : Payload} {request : HttpRequest H Payload}
    (h : intoHttpRequest metadata body = some request) :
    request = ⟨.http2, .post, request.headers, body⟩ ∧
      ∀ name, HeaderMap.getAll request.headers name =
        (if contentType = name then [utf8 applicationGrpcProto] else []) ++
          ((metadata.get name).getD []).map utf8 := by
  obtain ⟨head, hbuilder, rfl⟩ := Option.map_eq_some_iff.mp h
  have hlower : ∀ entry ∈ metadata.iter, entry.1.map Char.toLower = entry.1 := fun entry hentry =>
    toLower_of_isValidName (hnames _ _ (MetadataMap.mem_iter.mp hentry))
  obtain ⟨before, hbefore, hsame, hentries⟩ := getAll_foldl_entries hlower hbuilder
  obtain ⟨first, hfirst, hkept, hcontent⟩ := Builder.header_eq_some hbefore
  obtain rfl : ⟨.http2, .post, RequestHeaders.empty⟩ = first := Option.some.inj hfirst
  have hname : "content-type".map Char.toLower = contentType :=
    toLower_of_isValidName (by decide)
  refine ⟨by rw [hsame, hkept], fun name => ?_⟩
  rw [hentries, hcontent, LawfulRequestHeaders.getAll_empty, MetadataMap.valuesAt_iter, hname,
    List.nil_append]

theorem getAll_of_request [LawfulRequestHeaders H] {metadata : MetadataMap}
    (hwf : metadata.WellFormed) {body : Payload} {request : HttpRequest H Payload}
    (h : intoHttpRequest metadata body = some request) (name : String) :
    HeaderMap.getAll request.headers name =
      (if contentType = name then [utf8 applicationGrpcProto] else []) ++
        ((metadata.get name).getD []).map utf8 :=
  (request_of_validNames (fun _ _ hget => (hwf _ _ hget).name) h).2 name

/-! ## The headers of the protocol -/

/-- There is one content type, and no header with a reserved name. -/
structure ProtocolHeaders (headers : H) : Prop where
  content : HeaderMap.getAll headers contentType = [utf8 applicationGrpcProto]
  reserved : ∀ kv ∈ HeaderMap.iter headers, ¬ resreverNamePrefix.toList <+: kv.1.toList

theorem not_reserved_of_isValidName {name : String} (h : MetadataMap.isValidName name = true) :
    ¬ resreverNamePrefix.toList <+: name.toList := by
  intro hpre
  rw [MetadataMap.isValidName, List.isPrefixOf_iff_prefix.mpr hpre] at h
  cases h

/-- A name of the request that is not in the metadata is the content type. -/
theorem not_reserved_of_request [LawfulRequestHeaders H] {metadata : MetadataMap}
    (hwf : metadata.WellFormed) {body : Payload} {request : HttpRequest H Payload}
    (h : intoHttpRequest metadata body = some request) :
    ∀ kv ∈ HeaderMap.iter request.headers, ¬ resreverNamePrefix.toList <+: kv.1.toList := by
  intro kv hkv
  apply not_reserved_of_isValidName
  have hpresent : HeaderMap.getAll request.headers kv.1 ≠ [] := by
    rw [HeaderMap.getAll, Ne, valuesOf_eq_nil_iff, not_not]
    exact List.mem_map_of_mem hkv
  rw [getAll_of_request hwf h] at hpresent
  by_cases hcontent : contentType = kv.1
  · rw [← hcontent]
    decide
  · cases hget : metadata.get kv.1 with
    | none => simp [hcontent, hget] at hpresent
    | some values => exact (hwf _ _ hget).name

/-- A request has the headers of the protocol, and no others of their names, exactly if the
metadata have no content type of their own. -/
theorem protocolHeaders_iff [LawfulRequestHeaders H] (ops : List (MetadataMap.Op H))
    (body : Payload) (request : HttpRequest H Payload)
    (h : intoHttpRequest (MetadataMap.new.applyAll ops) body = some request) :
    ProtocolHeaders request.headers ↔ (MetadataMap.new.applyAll ops).get contentType = none := by
  have hwf := MetadataMap.wellFormed_applyAll ops
  have hcontent := getAll_of_request hwf h contentType
  rw [if_pos rfl] at hcontent
  constructor
  · intro hprotocol
    rw [hprotocol.content, List.singleton_append, List.cons.injEq] at hcontent
    cases hget : (MetadataMap.new.applyAll ops).get contentType with
    | none => rfl
    | some values =>
      have hempty := hcontent.2.symm
      rw [hget, Option.getD_some, List.map_eq_nil_iff] at hempty
      exact absurd hempty (hwf _ _ hget).nonempty
  · intro hnone
    refine ⟨?_, not_reserved_of_request hwf h⟩
    rw [hcontent, hnone]
    rfl

/-- A name that fits can be inserted with any value, and a request built. -/
theorem exists_request_insert [LawfulRequestHeaders H] (name value : String)
    (hname : FitsName name) : ∃ request : HttpRequest H Payload,
      intoHttpRequest (MetadataMap.new.applyAll [.insert (H := H) name value]) (.stream []) =
        some request := by
  have hsound : Sound (MetadataMap.new.insert name value).2 := Sound.new.insert fun _ => hname
  exact (hsound.builds (M := Bool)).stream []

/-- A request with one header of the user's. -/
theorem protocolHeaders_iff_insert : ∃ request : HttpRequest HeaderList Payload,
    intoHttpRequest (MetadataMap.new.applyAll [.insert (H := HeaderList) "x" "1"]) (.stream []) =
      some request ∧
    (ProtocolHeaders request.headers ↔
      (MetadataMap.new.applyAll [.insert (H := HeaderList) "x" "1"]).get contentType = none) := by
  obtain ⟨request, h⟩ := exists_request_insert (H := HeaderList) "x" "1" ⟨by decide, by decide⟩
  exact ⟨request, h, protocolHeaders_iff _ _ request h⟩

/-- A content type of the user's is the second one of the request. -/
theorem not_protocolHeaders_contentType :
    ¬ ∀ (ops : List (MetadataMap.Op HeaderList)) (body : Payload)
      (request : HttpRequest HeaderList Payload),
      intoHttpRequest (MetadataMap.new.applyAll ops) body = some request →
      ProtocolHeaders request.headers := by
  intro hprotocol
  obtain ⟨request, h⟩ :=
    exists_request_insert (H := HeaderList) contentType "a" ⟨by decide, by decide⟩
  have hone := (hprotocol _ _ request h).content
  have hget : (MetadataMap.new.insert contentType "a").2.get contentType = some ["a"] := by
    rw [MetadataMap.get_insert, if_pos ⟨rfl, by decide⟩]
    rfl
  rw [getAll_of_request (MetadataMap.wellFormed_applyAll _) h, if_pos rfl] at hone
  change [utf8 applicationGrpcProto] ++
    (((MetadataMap.new.insert contentType "a").2.get contentType).getD []).map utf8 = _ at hone
  rw [hget] at hone
  cases hone

/-! ## The way back -/

/-- The metadata read from the headers of a request are those that it was built from, behind
the fixed content type. -/
structure SurvivesTrip (metadata : MetadataMap) (headers : H) : Prop where
  kept : ∀ name, name ≠ contentType →
    (MetadataMap.new.mergeHttpHeader headers).get name = metadata.get name
  content : (MetadataMap.new.mergeHttpHeader headers).get contentType =
    some (applicationGrpcProto :: (metadata.get contentType).getD [])

/-- What was accepted once is accepted again. -/
theorem acceptedValues_utf8 {name : String} {values : List String}
    (hname : MetadataMap.isValidName name = true)
    (hvalues : ∀ v ∈ values, MetadataMap.isValidValue v = true) :
    MetadataMap.acceptedValues name (values.map utf8) = values := by
  have hsame : (values.map utf8).map fromUtf8Lossy = values := by
    rw [List.map_map]
    refine (List.map_congr_left fun v hv => ?_).trans (List.map_id _)
    refine fromUtf8Lossy_utf8_of_ascii fun c hc => ascii_of_isValueChar ?_
    exact List.all_eq_true.mp (hvalues v hv) c hc
  rw [MetadataMap.acceptedValues, if_pos hname, hsame, List.filter_eq_self]
  exact hvalues

theorem survivesTrip_of_request [LawfulRequestHeaders H] (ops : List (MetadataMap.Op H))
    (body : Payload) (request : HttpRequest H Payload)
    (h : intoHttpRequest (MetadataMap.new.applyAll ops) body = some request) :
    SurvivesTrip (MetadataMap.new.applyAll ops) request.headers := by
  have hwf := MetadataMap.wellFormed_applyAll ops
  generalize MetadataMap.new.applyAll ops = metadata at h hwf
  constructor
  · intro name hname
    rw [MetadataMap.get_mergeHttpHeader, MetadataMap.get_new, getAll_of_request hwf h,
      if_neg (Ne.symm hname), List.nil_append]
    cases hget : metadata.get name with
    | none => simp [MetadataMap.acceptedValues, MetadataMap.appended]
    | some values =>
      obtain ⟨hne, hvalid, hvalues⟩ := hwf _ _ hget
      rw [Option.getD_some, acceptedValues_utf8 hvalid hvalues]
      obtain ⟨v, vs, rfl⟩ := List.exists_cons_of_ne_nil hne
      rfl
  · have hall : ∀ v ∈ applicationGrpcProto :: (metadata.get contentType).getD [],
        MetadataMap.isValidValue v = true := by
      rw [List.forall_mem_cons]
      refine ⟨by decide, ?_⟩
      cases hget : metadata.get contentType with
      | none => simp
      | some values => exact (hwf _ _ hget).values
    rw [MetadataMap.get_mergeHttpHeader, MetadataMap.get_new, getAll_of_request hwf h,
      if_pos rfl, List.singleton_append, ← List.map_cons, acceptedValues_utf8 (by decide) hall]
    rfl

theorem survivesTrip_of_request_insert : ∃ request : HttpRequest HeaderList Payload,
    intoHttpRequest (MetadataMap.new.applyAll [.insert (H := HeaderList) contentType "a"])
      (.stream []) = some request ∧
    SurvivesTrip (MetadataMap.new.applyAll [.insert (H := HeaderList) contentType "a"])
      request.headers := by
  obtain ⟨request, h⟩ :=
    exists_request_insert (H := HeaderList) contentType "a" ⟨by decide, by decide⟩
  exact ⟨request, h, survivesTrip_of_request _ _ request h⟩

end LieGrpc
