import LieGrpc.Grpc.Request
import Mathlib.Data.List.Forall2

/-!
# Channels

A channel is made from targets, all of which have to be URIs with a scheme and an authority.
A call draws one of them and sends the request to it. That it never panics rests on what the
constructor has checked: there is a target, and each has the parts that are unwrapped.
-/

namespace LieGrpc

variable {C U H : Type} [HttpUri U]

/-- `C` is the type of the client that carries requests out. -/
structure Channel (C U : Type) where
  client : C
  uris : List U

/-- A request with the URI that it is sent to. -/
structure Outgoing (U H : Type) where
  uri : U
  request : HttpRequest H Payload

/-- What a call has handed to the client, and what it returns. -/
structure CallOutcome (U H : Type) where
  sent : Option (Outgoing U H)
  result : Poll (Except Status (HttpResponse H))

namespace Channel

/-- The loop over the targets. -/
def collectUris (uris : List U) : List String → Except Status (List U)
  | [] => .ok uris
  | item :: target =>
    match HttpUri.tryFrom item with
    | .error err => .error ((Status.new .invalidArgument "invalid uri").withCause (.uri err))
    | .ok uri =>
      if (HttpUri.authority uri).isNone || (HttpUri.scheme uri).isNone then
        .error (.new .invalidArgument "invalid uri")
      else collectUris (uris ++ [uri]) target

/-- `client` is what the connector and the client builder make at the end, which is taken to
succeed: without root certificates on the machine the connector panics. -/
def new (client : C) (target : List String) : Except Status (Channel C U) :=
  match collectUris [] target with
  | .error status => .error status
  | .ok uris =>
    if uris.isEmpty then .error (.new .invalidArgument "invalid target")
    else .ok ⟨client, uris⟩

/-- The derived `Clone`. -/
def clone (self : Channel C U) : Channel C U := ⟨self.client, self.uris⟩

/-- `draw % n`, which panics for `n = 0`. -/
def remainder (draw n : Nat) : Option Nat := if n = 0 then none else some (draw % n)

/-- The URI of a request; `none` where an `expect` panics. -/
def requestUri (uri : U) (method : String) : Option (Except HttpError U) :=
  match HttpUri.scheme uri, HttpUri.authority uri with
  | some scheme, some authority =>
    match HttpUri.parsePathAndQuery (U := U) method with
    | .error e => some (.error e)
    | .ok path => some (HttpUri.build scheme authority path)
  | _, _ => none

/-- What is made of the answer of the client. -/
def answered : Poll (Except HyperError (HttpResponse H)) → Poll (Except Status (HttpResponse H))
  | .pending => .pending
  | .ready (.ok resp) => .ready (.ok resp)
  | .ready (.error e) => .ready (.error (.fromHyperError e))

/-- `draw` is the random number, and `send` what the client answers; `none` is a panic. The
channel stays as it is. -/
def call (self : Channel C U) (draw : Nat) (method : String) (request : HttpRequest H Payload)
    (send : C → Outgoing U H → Poll (Except HyperError (HttpResponse H))) :
    Option (CallOutcome U H) :=
  match remainder draw self.uris.length with
  | none => none
  | some i =>
    match self.uris[i]? with
    | none => some ⟨none, .ready (.error (.internal "no avaliable target"))⟩
    | some uri =>
      match requestUri uri method with
      | none => none
      | some (.error err) =>
        some ⟨none, .ready (.error
          ((Status.new .invalidArgument "uri error").withCause (.http err)))⟩
      | some (.ok uri) => some ⟨some ⟨uri, request⟩, answered (send self.client ⟨uri, request⟩)⟩

/-! ## Construction -/

/-- The target is a URI with the parts that a call needs. -/
def Names (target : String) (uri : U) : Prop :=
  HttpUri.tryFrom target = .ok uri ∧ (HttpUri.scheme uri).isSome = true ∧
    (HttpUri.authority uri).isSome = true

theorem names_of_tryFrom {target : String} {uri other : U}
    (htarget : HttpUri.tryFrom target = .ok uri) (hother : Names target other) : uri = other :=
  Except.ok.inj (htarget.symm.trans hother.1)

/-- The loop takes the URI that a target names, and stops at a target that names none. -/
theorem collectUris_cons (uris : List U) (item : String) (target : List String) :
    (∃ uri, Names item uri ∧
        collectUris uris (item :: target) = collectUris (uris ++ [uri]) target) ∨
      (∀ uri : U, ¬ Names item uri) ∧
        ∃ status, collectUris uris (item :: target) = .error status := by
  rw [collectUris]
  cases hitem : HttpUri.tryFrom (U := U) item with
  | error err => exact .inr ⟨by simp [Names, hitem], _, rfl⟩
  | ok uri =>
    by_cases hparts : (HttpUri.authority uri).isNone || (HttpUri.scheme uri).isNone
    · refine .inr ⟨fun other hother => ?_, _, if_pos hparts⟩
      obtain rfl := names_of_tryFrom hitem hother
      obtain ⟨-, hscheme, hauthority⟩ := hother
      grind [Option.isNone_iff_eq_none, Option.isSome_iff_ne_none]
    · refine .inl ⟨uri, ⟨hitem, ?_⟩, if_neg hparts⟩
      grind [Option.isNone_iff_eq_none, Option.isSome_iff_ne_none]

/-- The loop succeeds with the URIs that the targets name, in their order. -/
theorem collectUris_eq_ok_iff {targets : List String} {uris all : List U} :
    collectUris uris targets = .ok all ↔
      ∃ named, List.Forall₂ Names targets named ∧ all = uris ++ named := by
  induction targets generalizing uris with
  | nil => simp [collectUris, eq_comm]
  | cons item targets ih =>
    rcases collectUris_cons uris item targets with ⟨uri, hnames, hrest⟩ | ⟨hnone, status, hstop⟩
    · rw [hrest, ih]
      constructor
      · rintro ⟨named, hnamed, rfl⟩
        exact ⟨uri :: named, .cons hnames hnamed, by simp⟩
      · rintro ⟨_, hall, rfl⟩
        obtain ⟨other, named, hother, hnamed, rfl⟩ := List.forall₂_cons_left_iff.mp hall
        obtain rfl := names_of_tryFrom hnames.1 hother
        exact ⟨named, hnamed, by simp⟩
    · rw [hstop]
      refine iff_of_false (by simp) ?_
      rintro ⟨_, hall, -⟩
      obtain ⟨other, -, hother, -, -⟩ := List.forall₂_cons_left_iff.mp hall
      exact hnone other hother

theorem new_eq_ok_iff {client : C} {targets : List String} {channel : Channel C U} :
    new client targets = .ok channel ↔
      List.Forall₂ Names targets channel.uris ∧ channel.uris ≠ [] ∧ channel.client = client := by
  have hcollect (all : List U) : collectUris [] targets = .ok all ↔
      List.Forall₂ Names targets all := by
    simp [collectUris_eq_ok_iff]
  rw [← hcollect, new]
  cases hloop : collectUris ([] : List U) targets with
  | error status => simp
  | ok uris =>
    by_cases hempty : uris = []
    · subst hempty
      exact iff_of_false (by simp) fun h => h.2.1 (Except.ok.inj h.1).symm
    · simp only [List.isEmpty_iff, hempty, if_false, Except.ok.injEq]
      constructor
      · rintro rfl
        exact ⟨rfl, hempty, rfl⟩
      · rintro ⟨rfl, -, rfl⟩
        rfl

/-- Targets that all name a URI are those for which the loop ends. -/
theorem exists_forall₂_names {targets : List String} :
    (∃ uris : List U, List.Forall₂ Names targets uris) ↔
      ∀ target ∈ targets, ∃ uri : U, Names target uri := by
  induction targets with
  | nil => simp
  | cons target targets ih =>
    simp only [List.forall₂_cons_left_iff, List.forall_mem_cons, ← ih]
    constructor
    · rintro ⟨_, uri, uris, huri, huris, -⟩
      exact ⟨⟨uri, huri⟩, uris, huris⟩
    · rintro ⟨⟨uri, huri⟩, uris, huris⟩
      exact ⟨_, uri, uris, huri, huris, rfl⟩

/-- A channel is made of targets that name a URI each, if there are any. -/
theorem exists_new_eq_ok_iff {client : C} {targets : List String} :
    (∃ channel : Channel C U, new client targets = .ok channel) ↔
      targets ≠ [] ∧ ∀ target ∈ targets, ∃ uri : U, Names target uri := by
  simp only [new_eq_ok_iff, ← exists_forall₂_names]
  constructor
  · rintro ⟨channel, hnames, huris, -⟩
    refine ⟨?_, channel.uris, hnames⟩
    rintro rfl
    exact huris (List.forall₂_nil_left_iff.mp hnames)
  · rintro ⟨htargets, uris, hnames⟩
    refine ⟨⟨client, uris⟩, hnames, ?_, rfl⟩
    rintro rfl
    exact htargets (List.forall₂_nil_right_iff.mp hnames)

/-- The channels that are made from some targets, or cloned from one. -/
inductive Built (client : C) (targets : List String) : Channel C U → Prop
  | new {channel : Channel C U} : new client targets = .ok channel → Built client targets channel
  | clone {channel : Channel C U} : Built client targets channel →
    Built client targets channel.clone

/-- A clone is a channel that could have been made from the targets as well. -/
theorem Built.new_eq_ok {client : C} {targets : List String} {channel : Channel C U}
    (h : Built client targets channel) : Channel.new client targets = .ok channel := by
  induction h with
  | new hnew => exact hnew
  | clone _ ih => exact ih

/-! ## Calls -/

/-- A draw selects a URI of the channel, with the scheme and the authority of a target. -/
structure Selects (targets : List String) (channel : Channel C U) (draw : Nat) (uri : U)
    (scheme : HttpUri.Scheme U) (authority : HttpUri.Authority U) : Prop where
  remainder : remainder draw channel.uris.length = some (draw % channel.uris.length)
  lookup : channel.uris[draw % channel.uris.length]? = some uri
  target : ∃ target ∈ targets, Names target uri
  scheme : HttpUri.scheme uri = some scheme
  authority : HttpUri.authority uri = some authority

/-- There is a target, and what is selected has been checked. -/
theorem Built.exists_selects {client : C} {targets : List String} {channel : Channel C U}
    (h : Built client targets channel) (draw : Nat) :
    ∃ uri scheme authority, Selects targets channel draw uri scheme authority := by
  obtain ⟨hall, huris, -⟩ := new_eq_ok_iff.mp h.new_eq_ok
  have hpos : 0 < channel.uris.length := List.length_pos_iff.mpr huris
  have hlt : draw % channel.uris.length < channel.uris.length := Nat.mod_lt _ hpos
  have hnames := hall.get (hall.length_eq ▸ hlt) hlt
  obtain ⟨scheme, hscheme⟩ := Option.isSome_iff_exists.mp hnames.2.1
  obtain ⟨authority, hauthority⟩ := Option.isSome_iff_exists.mp hnames.2.2
  exact ⟨_, scheme, authority, {
    remainder := if_neg hpos.ne'
    lookup := List.getElem?_eq_getElem hlt
    target := ⟨_, List.get_mem _ _, hnames⟩
    scheme := hscheme
    authority := hauthority }⟩

/-- What the request URI has in it. -/
structure Addresses (scheme : HttpUri.Scheme U) (authority : HttpUri.Authority U)
    (path : HttpUri.PathAndQuery U) (uri : U) : Prop where
  scheme : HttpUri.scheme uri = some scheme
  authority : HttpUri.authority uri = some authority
  pathAndQuery : HttpUri.pathAndQuery uri = some path

theorem addresses_of_build [LawfulHttpUri U] {scheme : HttpUri.Scheme U}
    {authority : HttpUri.Authority U} {path : HttpUri.PathAndQuery U} {uri : U}
    (h : HttpUri.build scheme authority path = .ok uri) : Addresses scheme authority path uri where
  scheme := LawfulHttpUri.scheme_build _ _ _ _ h
  authority := LawfulHttpUri.authority_build _ _ _ _ h
  pathAndQuery := LawfulHttpUri.pathAndQuery_build _ _ _ _ h

/-- What a call does once a URI with this scheme and authority has been selected. -/
inductive Calls (client : C) (scheme : HttpUri.Scheme U) (authority : HttpUri.Authority U)
    (method : String) (request : HttpRequest H Payload)
    (send : C → Outgoing U H → Poll (Except HyperError (HttpResponse H))) :
    Option (CallOutcome U H) → Prop
  | sent {path : HttpUri.PathAndQuery U} {uri : U} :
    HttpUri.parsePathAndQuery (U := U) method = .ok path →
    HttpUri.build scheme authority path = .ok uri → Addresses scheme authority path uri →
    Calls client scheme authority method request send
      (some ⟨some ⟨uri, request⟩, answered (send client ⟨uri, request⟩)⟩)
  | refused {status : Status} :
    (∀ path (uri : U), HttpUri.parsePathAndQuery (U := U) method = .ok path →
      HttpUri.build scheme authority path ≠ .ok uri) →
    status.code = .invalidArgument →
    Calls client scheme authority method request send (some ⟨none, .ready (.error status)⟩)

section Call

variable {targets : List String} {channel : Channel C U} {draw : Nat} {uri : U}
  {scheme : HttpUri.Scheme U} {authority : HttpUri.Authority U} {method : String}
  {request : HttpRequest H Payload}
  {send : C → Outgoing U H → Poll (Except HyperError (HttpResponse H))}

theorem Selects.requestUri_eq (h : Selects targets channel draw uri scheme authority) :
    requestUri uri method =
      some (HttpUri.parsePathAndQuery (U := U) method >>= HttpUri.build scheme authority) := by
  rw [requestUri, h.scheme, h.authority]
  cases HttpUri.parsePathAndQuery (U := U) method <;> rfl

/-- A call sends the request if its URI builds. -/
theorem Selects.call_ok (h : Selects targets channel draw uri scheme authority) {built : U}
    (hbuilt : requestUri uri method = some (.ok built)) :
    channel.call draw method request send =
      some ⟨some ⟨built, request⟩, answered (send channel.client ⟨built, request⟩)⟩ := by
  simp [call, h.remainder, h.lookup, hbuilt]

/-- A call sends nothing otherwise. -/
theorem Selects.call_error (h : Selects targets channel draw uri scheme authority)
    {err : HttpError} (herr : requestUri uri method = some (.error err)) :
    channel.call draw method request send = some ⟨none, .ready (.error
      ((Status.new .invalidArgument "uri error").withCause (.http err)))⟩ := by
  simp [call, h.remainder, h.lookup, herr]

theorem Selects.calls [LawfulHttpUri U] (h : Selects targets channel draw uri scheme authority) :
    Calls channel.client scheme authority method request send
      (channel.call draw method request send) := by
  have huri : requestUri uri method = _ := h.requestUri_eq
  cases hpath : HttpUri.parsePathAndQuery (U := U) method with
  | error err =>
    rw [hpath] at huri
    rw [h.call_error huri]
    exact .refused (by simp [hpath]) rfl
  | ok path =>
    rw [hpath] at huri
    cases hbuild : HttpUri.build scheme authority path with
    | error err =>
      rw [h.call_error (huri.trans (congrArg some hbuild))]
      refine .refused (fun other _ hother => ?_) rfl
      obtain rfl : path = other := Except.ok.inj (hpath.symm.trans hother)
      simp [hbuild]
    | ok built =>
      rw [h.call_ok (huri.trans (congrArg some hbuild))]
      exact .sent hpath hbuild (addresses_of_build hbuild)

end Call

/-- `Channel::new` accepts the targets that it should, and its channels call one of these. -/
structure TargetsSelected (client : C) (targets : List String) : Prop where
  new_ok_iff : (∃ channel : Channel C U, new client targets = .ok channel) ↔
    targets ≠ [] ∧ ∀ target ∈ targets, ∃ uri : U, Names target uri
  calls : ∀ channel : Channel C U, Built client targets channel →
    ∀ (draw : Nat) (method : String) (request : HttpRequest H Payload)
      (send : C → Outgoing U H → Poll (Except HyperError (HttpResponse H))),
      ∃ uri scheme authority, Selects targets channel draw uri scheme authority ∧
        Calls client scheme authority method request send
          (channel.call draw method request send)

/-- Target selection never panics and stays within the targets. -/
theorem targetsSelected [LawfulHttpUri U] (client : C) (targets : List String) :
    TargetsSelected (U := U) (H := H) client targets where
  new_ok_iff := exists_new_eq_ok_iff
  calls channel hbuilt draw method request send := by
    obtain ⟨uri, scheme, authority, hselects⟩ := hbuilt.exists_selects draw
    obtain ⟨-, -, rfl⟩ := new_eq_ok_iff.mp hbuilt.new_eq_ok
    exact ⟨uri, scheme, authority, hselects, hselects.calls⟩

theorem targetsSelected_uriParts :
    TargetsSelected (U := UriParts) (H := HeaderList) () ["http://localhost:2379"] :=
  targetsSelected () ["http://localhost:2379"]

end Channel

end LieGrpc
