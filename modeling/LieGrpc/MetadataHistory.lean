import LieGrpc.Library.Multimap
import LieGrpc.Metadata

/-!
# The metadata map over whole histories

A `MetadataMap` after any operations is the ordered multimap of the insertions that were
accepted: what is rejected leaves no trace, and each name is kept by itself.
-/

namespace LieGrpc

namespace MetadataMap

open Multimap (Edit held added sinceDrop)

variable {H : Type} [HeaderMap H]

inductive Op (H : Type) where
  | insert (name value : String)
  | mergeHttpHeader (headers : H)
  | remove (name : String)

def apply (self : MetadataMap) : Op H → MetadataMap
  | .insert name value => (self.insert name value).2
  | .mergeHttpHeader headers => self.mergeHttpHeader headers
  | .remove name => (self.remove name).2

def applyAll (self : MetadataMap) (ops : List (Op H)) : MetadataMap := ops.foldl apply self

/-! ## The history of edits -/

/-- What an operation tries to do: a merge is one insertion for each entry. -/
def Op.attempts : Op H → List (Edit String String)
  | .insert name value => [.add name value]
  | .mergeHttpHeader headers =>
    (HeaderMap.iter headers).map fun kv => .add kv.1 (fromUtf8Lossy kv.2)
  | .remove name => [.drop name]

/-- Whether an attempt is carried out. -/
def accepted : Edit String String → Bool
  | .add name value => isValidName name && isValidValue value
  | .drop _ => true

/-- The edits that some operations carry out. -/
def history (ops : List (Op H)) : List (Edit String String) :=
  (ops.flatMap Op.attempts).filter accepted

/-- The map is the multimap with this history. -/
def Refines (m : MetadataMap) (es : List (Edit String String)) : Prop :=
  ∀ name, m.get name = appended none (held name es)

theorem Refines.new : Refines new [] := fun name => get_new name

/-- An insertion adds to the history if it is accepted. -/
theorem Refines.insert {m : MetadataMap} {es : List (Edit String String)} (h : Refines m es)
    (name value : String) :
    Refines (m.insert name value).2 (es ++ [.add name value].filter accepted) := by
  intro other
  rw [get_insert, h other, ← appended_append]
  refine congrArg _ ?_
  by_cases hv : (isValidName name && isValidValue value) = true
  · have hkept : [Edit.add name value].filter accepted = [.add name value] := by
      simp [accepted, hv]
    rw [hkept, Multimap.held_concat]
    by_cases hn : name = other
    · subst hn
      simp [Edit.apply, hv]
    · simp [Edit.apply, hn]
  · have hdropped : [Edit.add name value].filter accepted = [] := by simp [accepted, hv]
    simp [hdropped, hv]

theorem Refines.remove {m : MetadataMap} {es : List (Edit String String)} (h : Refines m es)
    (name : String) : Refines (m.remove name).2 (es ++ [.drop name]) := by
  intro other
  rw [get_remove, h other, Multimap.held_concat]
  by_cases hn : name = other <;> simp [Edit.apply, hn, appended]

/-- A merge goes on after a rejected entry. -/
theorem Refines.mergeHttpHeader {m : MetadataMap} {es : List (Edit String String)}
    (h : Refines m es) (headers : H) :
    Refines (m.mergeHttpHeader headers)
      (es ++ (Op.attempts (.mergeHttpHeader headers)).filter accepted) := by
  unfold MetadataMap.mergeHttpHeader Op.attempts
  dsimp only
  generalize HeaderMap.iter headers = kvs
  induction kvs generalizing m es with
  | nil => simpa using h
  | cons kv kvs ih =>
    have hstep := ih (h.insert kv.1 (fromUtf8Lossy kv.2))
    rw [List.append_assoc, ← List.filter_append] at hstep
    exact hstep

theorem Refines.apply {m : MetadataMap} {es : List (Edit String String)} (h : Refines m es)
    (op : Op H) : Refines (m.apply op) (es ++ op.attempts.filter accepted) := by
  cases op with
  | insert name value => exact h.insert name value
  | mergeHttpHeader headers => exact h.mergeHttpHeader headers
  | remove name => exact h.remove name

theorem Refines.applyAll {m : MetadataMap} {es : List (Edit String String)} (h : Refines m es)
    (ops : List (Op H)) : Refines (m.applyAll ops) (es ++ history ops) := by
  induction ops generalizing m es with
  | nil => simpa [MetadataMap.applyAll, history] using h
  | cons op ops ih =>
    have hstep := ih (h.apply op)
    rw [List.append_assoc] at hstep
    simpa [MetadataMap.applyAll, history] using hstep

/-- Only valid names and values enter a history. -/
theorem valid_of_mem_history {ops : List (Op H)} {name value : String}
    (h : .add name value ∈ history ops) : isValidName name = true ∧ isValidValue value = true := by
  have hacc : accepted (.add name value) = true := (List.mem_filter.mp h).2
  simpa [accepted] using hacc

theorem get_applyAll (ops : List (Op H)) (name : String) :
    (new.applyAll ops).get name =
      appended none (added name (sinceDrop name (history ops))) := by
  have h := Refines.new.applyAll ops name
  rwa [List.nil_append, Multimap.held_eq_added] at h

/-- A name that is present has values, and all of them were added to it. -/
theorem eq_added_of_get {ops : List (Op H)} {name : String} {values : List String}
    (h : (new.applyAll ops).get name = some values) :
    values = added name (sinceDrop name (history ops)) ∧ values ≠ [] := by
  rw [get_applyAll] at h
  cases hvs : added name (sinceDrop name (history ops)) with
  | nil => simp [hvs, appended] at h
  | cons v vs =>
    rw [hvs] at h
    obtain rfl : v :: vs = values := Option.some.inj h
    exact ⟨rfl, by simp⟩

/-- An entry of a map that only keyed operations have changed. -/
structure ValidEntry (name : String) (values : List String) : Prop where
  nonempty : values ≠ []
  name : isValidName name = true
  values : ∀ v ∈ values, isValidValue v = true

/-- Every entry is valid. -/
def WellFormed (m : MetadataMap) : Prop :=
  ∀ name values, m.get name = some values → ValidEntry name values

theorem wellFormed_applyAll (ops : List (Op H)) : WellFormed (new.applyAll ops) := by
  intro name values h
  obtain ⟨hadded, hne⟩ := eq_added_of_get h
  have hvalid : ∀ v ∈ values, isValidName name = true ∧ isValidValue v = true := by
    intro v hv
    rw [hadded, ← Multimap.held_eq_added] at hv
    exact valid_of_mem_history (Multimap.mem_of_mem_held hv)
  obtain ⟨v, hv⟩ := List.exists_mem_of_ne_nil values hne
  exact ⟨hne, (hvalid v hv).1, fun v hv => (hvalid v hv).2⟩

/-- Where an entry is rejected, a merge is as without it. -/
theorem mergeHttpHeader_of_rejected (self : MetadataMap) {headers headers' : H}
    {pre post : List (String × Bytes)} {kv : String × Bytes}
    (h : HeaderMap.iter headers = pre ++ kv :: post)
    (h' : HeaderMap.iter headers' = pre ++ post)
    (hrej : accepted (.add kv.1 (fromUtf8Lossy kv.2)) = false) :
    self.mergeHttpHeader headers = self.mergeHttpHeader headers' := by
  unfold mergeHttpHeader
  rw [h, h', List.foldl_append, List.foldl_append, List.foldl_cons, insert_of_invalid _ hrej]

theorem mergeHttpHeader_congr (self : MetadataMap) {headers headers' : H}
    (h : ∀ name, HeaderMap.getAll headers name = HeaderMap.getAll headers' name) :
    self.mergeHttpHeader headers = self.mergeHttpHeader headers' := by
  apply ext_get
  intro name
  rw [get_mergeHttpHeader, get_mergeHttpHeader, h name]

/-- What it means that a map is the ordered multimap of some operations. -/
structure OrderedMultimap (ops : List (Op H)) (m : MetadataMap) : Prop where
  /-- A name has the values of its accepted insertions since it was last removed. -/
  get_some : ∀ name values, m.get name = some values →
    values = added name (sinceDrop name (history ops))
  get_none : ∀ name, m.get name = none ↔ added name (sinceDrop name (history ops)) = []
  accepts : ∀ name value,
    (m.insert name value).1 = .ok () ↔ accepted (.add name value) = true
  rejected : ∀ name value, (m.insert name value).1 ≠ .ok () → (m.insert name value).2 = m
  mergeSkips : ∀ (headers headers' : H) pre kv post,
    HeaderMap.iter headers = pre ++ kv :: post → HeaderMap.iter headers' = pre ++ post →
    (m.insert kv.1 (fromUtf8Lossy kv.2)).1 ≠ .ok () →
    m.mergeHttpHeader headers = m.mergeHttpHeader headers'
  iter_values : ∀ name values, (name, values) ∈ m.iter ↔ m.get name = some values
  iter_ascending : m.iter.Pairwise fun a b => a.1 < b.1
  names : ∀ name values, m.get name = some values →
    (∀ c ∈ name.toList, isNameChar c = true) ∧ ¬ resreverNamePrefix.toList <+: name.toList
  printable : ∀ name values, m.get name = some values →
    ∀ value ∈ values, ∀ c ∈ value.toList, isValueChar c = true
  acrossNames : ∀ headers headers' : H,
    (∀ name, HeaderMap.getAll headers name = HeaderMap.getAll headers' name) →
    m.mergeHttpHeader headers = m.mergeHttpHeader headers'

theorem orderedMultimap_applyAll (ops : List (Op H)) :
    OrderedMultimap ops (new.applyAll ops) := by
  constructor
  case get_some => exact fun name values h => (eq_added_of_get h).1
  case get_none =>
    intro name
    rw [get_applyAll]
    cases added name (sinceDrop name (history ops)) <;> simp [appended]
  case accepts => exact insert_eq_ok_iff _
  case rejected =>
    intro name value h
    rw [Ne, insert_eq_ok_iff, Bool.not_eq_true] at h
    exact insert_of_invalid _ h
  case mergeSkips =>
    intro headers headers' pre kv post h h' hrej
    rw [Ne, insert_eq_ok_iff, Bool.not_eq_true] at hrej
    exact mergeHttpHeader_of_rejected _ h h' hrej
  case iter_values => exact fun name values => mem_iter
  case iter_ascending => exact pairwise_iter _
  case names =>
    intro name values h
    have hname := (wellFormed_applyAll ops name values h).name
    simp only [isValidName, Bool.and_eq_true, Bool.not_eq_true', List.all_eq_true] at hname
    refine ⟨hname.2, fun hpre => ?_⟩
    rw [List.isPrefixOf_iff_prefix.mpr hpre] at hname
    cases hname.1
  case printable =>
    intro name values h value hvalue
    have hv := (wellFormed_applyAll ops name values h).values value hvalue
    simpa [isValidValue] using hv
  case acrossNames => exact fun headers headers' h => mergeHttpHeader_congr _ h

end MetadataMap

end LieGrpc
