import LieGrpc.Client
import LieGrpc.Library.Residues

/-!
# Targets

Which targets a client cannot be made of, and with which error; and how the targets of a channel
share its calls. A call goes as if the target that it draws were the only one, and when the draws
are all the values of an integer type, every target has its share of them, up to one.
-/

namespace LieGrpc

variable {C U H : Type} [HttpUri U]

namespace Channel

/-! ## Refusals -/

variable (U) in
/-- The error of a target that names no URI. -/
inductive Rejected (item : String) : Status → Prop
  | invalid {err : InvalidUri} : HttpUri.tryFrom (U := U) item = .error err →
    Rejected item ((Status.new .invalidArgument "invalid uri").withCause (.uri err))
  | incomplete {uri : U} : HttpUri.tryFrom item = .ok uri →
    HttpUri.authority uri = none ∨ HttpUri.scheme uri = none →
    Rejected item (.new .invalidArgument "invalid uri")

variable (U) in
/-- The error of targets: that of the first which names no URI, if there are targets at all. -/
inductive Refused : List String → Status → Prop
  | empty : Refused [] (.new .invalidArgument "invalid target")
  | target {good rest : List String} {item : String} {status : Status} :
    (∀ target ∈ good, ∃ uri : U, Names target uri) → Rejected U item status →
    Refused (good ++ item :: rest) status

theorem names_or_rejected (item : String) :
    (∃ uri : U, Names item uri) ∨ ∃ status, Rejected U item status := by
  cases hitem : HttpUri.tryFrom (U := U) item with
  | error err => exact .inr ⟨_, .invalid hitem⟩
  | ok uri =>
    cases hauthority : HttpUri.authority uri with
    | none => exact .inr ⟨_, .incomplete hitem (.inl hauthority)⟩
    | some authority =>
      cases hscheme : HttpUri.scheme uri with
      | none => exact .inr ⟨_, .incomplete hitem (.inr hscheme)⟩
      | some scheme => exact .inl ⟨uri, hitem, by simp [hscheme], by simp [hauthority]⟩

theorem collectUris_of_names {item : String} {uri : U} (h : Names item uri) (uris : List U)
    (rest : List String) :
    collectUris uris (item :: rest) = collectUris (uris ++ [uri]) rest := by
  rcases collectUris_cons uris item rest with ⟨other, hother, hrest⟩ | ⟨hnone, -⟩
  · rwa [names_of_tryFrom h.1 hother]
  · exact absurd h (hnone uri)

theorem collectUris_of_rejected {item : String} {status : Status} (h : Rejected U item status)
    (uris : List U) (rest : List String) :
    collectUris uris (item :: rest) = .error status := by
  rw [collectUris]
  cases h with
  | invalid herr => rw [herr]
  | incomplete hitem hparts =>
    rw [hitem]
    exact if_pos (by simpa using hparts)

/-- The loop passes the targets that name a URI. -/
theorem collectUris_append {good : List String} (h : ∀ target ∈ good, ∃ uri : U, Names target uri)
    (uris : List U) (rest : List String) :
    ∃ named, collectUris uris (good ++ rest) = collectUris named rest := by
  induction good generalizing uris with
  | nil => exact ⟨uris, rfl⟩
  | cons item good ih =>
    obtain ⟨⟨uri, huri⟩, hgood⟩ := List.forall_mem_cons.mp h
    rw [List.cons_append, collectUris_of_names huri]
    exact ih hgood _

/-- The loop ends with an error at the first target that names no URI. -/
theorem refused_of_collectUris {targets : List String} {uris : List U} {status : Status}
    (h : collectUris uris targets = .error status) : Refused U targets status := by
  suffices ∃ good item rest, targets = good ++ item :: rest ∧
      (∀ target ∈ good, ∃ uri : U, Names target uri) ∧ Rejected U item status by
    obtain ⟨good, item, rest, rfl, hgood, hrejected⟩ := this
    exact .target hgood hrejected
  induction targets generalizing uris with
  | nil => simp [collectUris] at h
  | cons item targets ih =>
    rcases names_or_rejected (U := U) item with ⟨uri, huri⟩ | ⟨other, hother⟩
    · rw [collectUris_of_names huri] at h
      obtain ⟨good, bad, rest, rfl, hgood, hbad⟩ := ih h
      exact ⟨item :: good, bad, rest, rfl, List.forall_mem_cons.mpr ⟨⟨uri, huri⟩, hgood⟩, hbad⟩
    · rw [collectUris_of_rejected hother] at h
      obtain rfl := Except.error.inj h
      exact ⟨[], item, targets, rfl, by simp, hother⟩

theorem new_eq_error_iff (client : C) {targets : List String} {status : Status} :
    new (U := U) client targets = .error status ↔ Refused U targets status := by
  constructor
  · intro h
    unfold new at h
    split at h
    case h_1 hloop =>
      obtain rfl := Except.error.inj h
      exact refused_of_collectUris hloop
    case h_2 uris hloop =>
      split at h
      case isTrue hempty =>
        obtain rfl := Except.error.inj h
        obtain rfl := List.isEmpty_iff.mp hempty
        obtain ⟨named, hnamed, hnil⟩ := collectUris_eq_ok_iff.mp hloop
        obtain rfl : named = [] := by simpa using hnil.symm
        rw [List.forall₂_nil_right_iff.mp hnamed]
        exact .empty
      case isFalse => simp at h
  · rintro (_ | ⟨hgood, hrejected⟩)
    · rfl
    · obtain ⟨named, hnamed⟩ := collectUris_append hgood [] _
      rw [new, hnamed, collectUris_of_rejected hrejected]

end Channel

/-- A client cannot be made of no targets, nor of targets of which one names no URI. -/
theorem Client.refused_iff {client : C} {targets : List String} {status : Status} :
    Client.new (U := U) client targets = .error status ↔ Channel.Refused U targets status := by
  rw [← Channel.new_eq_error_iff client, Client.new]
  cases Channel.new (U := U) client targets <;> simp

namespace Channel

/-! ## Shares -/

/-- The channel of the `i`-th target alone. -/
def alone (self : Channel C U) (i : Nat) : Channel C U := ⟨self.client, self.uris[i]?.toList⟩

/-- A call goes as if the target that it draws were the only one. -/
theorem call_eq_alone (self : Channel C U) (h : self.uris ≠ []) (draw : Nat) (method : String)
    (request : HttpRequest H Payload)
    (send : C → Outgoing U H → Poll (Except HyperError (HttpResponse H))) :
    self.call draw method request send =
      (self.alone (draw % self.uris.length)).call 0 method request send := by
  have hpos : 0 < self.uris.length := List.length_pos_iff.mpr h
  have hlookup := List.getElem?_eq_getElem (Nat.mod_lt draw hpos)
  simp [call, alone, remainder, hlookup, hpos.ne']

/-- The targets share the calls of the channel. -/
structure Shared (H : Type) (client : C) (targets : List String) (channel : Channel C U) :
    Prop where
  alone : ∀ i (hi : i < targets.length), new client [targets[i]] = .ok (channel.alone i)
  /-- The draws with which a call does something are the shares of the targets that do it. -/
  count : ∀ (total : Nat) (method : String) (request : HttpRequest H Payload)
    (send : C → Outgoing U H → Poll (Except HyperError (HttpResponse H)))
    (p : Option (CallOutcome U H) → Prop) [DecidablePred p],
    total.count (fun draw => p (channel.call draw method request send)) =
      ∑ i ∈ Finset.range targets.length,
        if p ((channel.alone i).call 0 method request send) then share total targets.length i
        else 0
  even : ∀ total i j, share total targets.length i ≤ share total targets.length j + 1

theorem shared {client : C} {targets : List String} {channel : Channel C U}
    (h : Built client targets channel) : Shared H client targets channel := by
  obtain ⟨hall, huris, rfl⟩ := new_eq_ok_iff.mp h.new_eq_ok
  exact {
    alone := fun i hi => by
      have hlt := hall.length_eq ▸ hi
      refine new_eq_ok_iff.mpr ⟨?_, ?_, rfl⟩
      · simpa [Channel.alone, hlt] using hall.get hi hlt
      · simp [Channel.alone, hlt]
    count := fun total method request send p _ => by
      simp only [channel.call_eq_alone huris]
      rw [hall.length_eq]
      exact count_mod_eq_sum (List.length_pos_iff.mpr huris) fun i =>
        p ((channel.alone i).call 0 method request send)
    even := fun total i j => share_le_succ total _ i j }

theorem shared_uriParts :
    Shared (U := UriParts) HeaderList () ["http://a", "http://b"]
      ⟨(), [⟨some "http", some "a", some ""⟩, ⟨some "http", some "b", some ""⟩]⟩ :=
  shared (.new rfl)

end Channel

end LieGrpc
