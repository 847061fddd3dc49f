import LieGrpc.Library.Multimap
import LieGrpc.Status
import Std.Data.ExtTreeMap

/-!
# The metadata map

`MetadataMap` is an ordered map from names to the list of their values. `insert` is the
only way in: it checks the name against the reserved prefix and the header grammar, and
the value against printable ASCII, before it touches the map.
-/

namespace LieGrpc

def resreverNamePrefix : String := "grpc-"

structure MetadataMap where
  map : Std.ExtTreeMap String (List String)

namespace MetadataMap

def new : MetadataMap := ⟨∅⟩

def isNameChar (c : Char) : Bool :=
  ('0' ≤ c && c ≤ '9') || ('a' ≤ c && c ≤ 'z') || c = '_' || c = '-' || c = '.'

def isValueChar (c : Char) : Bool := ' ' ≤ c && c ≤ '~'

/-- The result of the call and the map after it. -/
def insert (self : MetadataMap) (name value : String) : Except Status Unit × MetadataMap :=
  if resreverNamePrefix.toList.isPrefixOf name.toList then
    (.error (.new .invalidArgument "invalid header name"), self)
  else if !name.toList.all isNameChar then
    (.error (.new .invalidArgument "invalid header name"), self)
  else if !value.toList.all isValueChar then
    (.error (.new .invalidArgument "invalid header value"), self)
  else
    (.ok (), ⟨self.map.alter name fun values => some (values.getD [] ++ [value])⟩)

/-- Entries that `insert` rejects are passed over. -/
def mergeHttpHeader {H : Type} [HeaderMap H] (self : MetadataMap) (headers : H) : MetadataMap :=
  (HeaderMap.iter headers).foldl (fun self kv => (self.insert kv.1 (fromUtf8Lossy kv.2)).2) self

def get (self : MetadataMap) (name : String) : Option (List String) := self.map[name]?

/-- The map once the list that `get_mut` hands out was edited. -/
def getMut (self : MetadataMap) (name : String) (edit : List String → List String) :
    MetadataMap := ⟨self.map.alter name fun values => values.map edit⟩

/-- The values that were removed and the map after it. -/
def remove (self : MetadataMap) (name : String) : Option (List String) × MetadataMap :=
  (self.map[name]?, ⟨self.map.erase name⟩)

/-- What `Iter` yields. -/
def iter (self : MetadataMap) : List (String × List String) := self.map.toList

/-! ## The values of one name -/

def isValidName (name : String) : Bool :=
  !resreverNamePrefix.toList.isPrefixOf name.toList && name.toList.all isNameChar

def isValidValue (value : String) : Bool := value.toList.all isValueChar

/-- Values appended to those of one name; a name without values is absent. -/
def appended (present : Option (List String)) : List String → Option (List String)
  | [] => present
  | values => some (present.getD [] ++ values)

theorem appended_append (present : Option (List String)) (vs ws : List String) :
    appended present (vs ++ ws) = appended (appended present vs) ws := by
  cases vs <;> cases ws <;> simp [appended]

theorem ext_get {m m' : MetadataMap} (h : ∀ name, m.get name = m'.get name) : m = m' := by
  obtain ⟨map⟩ := m
  obtain ⟨map'⟩ := m'
  exact congrArg mk (Std.ExtTreeMap.ext_getElem? h)

@[simp] theorem get_new (name : String) : new.get name = none := by simp [get, new]

/-- A rejected insertion changes nothing. -/
theorem insert_of_invalid (self : MetadataMap) {name value : String}
    (h : (isValidName name && isValidValue value) = false) : (self.insert name value).2 = self := by
  unfold insert
  split
  · rfl
  split
  · rfl
  split
  · rfl
  · simp_all [isValidName, isValidValue]

theorem insert_of_valid (self : MetadataMap) {name value : String}
    (h : (isValidName name && isValidValue value) = true) :
    self.insert name value =
      (.ok (), ⟨self.map.alter name fun values => some (values.getD [] ++ [value])⟩) := by
  simp only [isValidName, isValidValue, Bool.and_eq_true, Bool.not_eq_true'] at h
  simp [insert, h]

/-- An insertion appends to the values of its own name. -/
theorem get_insert (self : MetadataMap) (name value other : String) :
    (self.insert name value).2.get other =
      appended (self.get other)
        (if name = other ∧ (isValidName name && isValidValue value) = true then [value]
          else []) := by
  by_cases h : (isValidName name && isValidValue value) = true
  · rw [insert_of_valid self h]
    simp only [get, Std.ExtTreeMap.getElem?_alter, Std.LawfulEqCmp.compare_eq_iff_eq]
    by_cases hn : name = other
    · rw [if_pos hn, if_pos ⟨hn, h⟩, hn]
      rfl
    · simp [hn, appended]
  · rw [insert_of_invalid self (by simpa using h)]
    simp [h, appended]

theorem insert_eq_ok_iff (self : MetadataMap) (name value : String) :
    (self.insert name value).1 = .ok () ↔ (isValidName name && isValidValue value) = true := by
  by_cases h : (isValidName name && isValidValue value) = true
  · simp [insert_of_valid self h, h]
  · refine iff_of_false (fun hok => h ?_) h
    unfold insert at hok
    split at hok
    · cases hok
    split at hok
    · cases hok
    split at hok
    · cases hok
    · simp_all [isValidName, isValidValue]

theorem get_remove (self : MetadataMap) (name other : String) :
    (self.remove name).2.get other = if name = other then none else self.get other := by
  simp [remove, get, Std.ExtTreeMap.getElem?_erase]

theorem get_getMut (self : MetadataMap) (name other : String) (edit : List String → List String) :
    (self.getMut name edit).get other =
      if name = other then (self.get other).map edit else self.get other := by
  by_cases h : name = other <;> simp [getMut, get, Std.ExtTreeMap.getElem?_alter, h]

theorem mem_iter {self : MetadataMap} {name : String} {values : List String} :
    (name, values) ∈ self.iter ↔ self.get name = some values :=
  Std.ExtTreeMap.mem_toList_iff_getElem?_eq_some

/-- The names come in the order of their characters. -/
theorem pairwise_iter (self : MetadataMap) : self.iter.Pairwise fun a b => a.1 < b.1 := by
  apply self.map.ordered_keys_toList.imp
  intro a b h
  exact compareOfLessAndEq_eq_lt.mp h

/-- The loop over a map comes to the values of each name once. -/
theorem valuesAt_iter (self : MetadataMap) (name : String) :
    Multimap.valuesAt name self.iter = (self.get name).getD [] := by
  cases hget : self.get name with
  | none =>
    apply Multimap.valuesAt_of_notMem
    intro values hmem
    rw [mem_iter, hget] at hmem
    cases hmem
  | some values =>
    have hkeys : self.iter.Pairwise fun a b => a.1 ≠ b.1 :=
      self.pairwise_iter.imp fun h => String.ne_of_lt h
    exact Multimap.valuesAt_of_mem hkeys (mem_iter.mpr hget)

/-- The values of one name that a merge takes over. -/
def acceptedValues (name : String) (values : List Bytes) : List String :=
  if isValidName name then (values.map fromUtf8Lossy).filter isValidValue else []

/-- A merge treats each name by itself, whatever the order across names. -/
theorem get_mergeHttpHeader {H : Type} [HeaderMap H] (self : MetadataMap) (headers : H)
    (name : String) :
    (self.mergeHttpHeader headers).get name =
      appended (self.get name) (acceptedValues name (HeaderMap.getAll headers name)) := by
  unfold mergeHttpHeader HeaderMap.getAll
  generalize HeaderMap.iter headers = kvs
  induction kvs generalizing self with
  | nil => simp [valuesOf, acceptedValues, appended]
  | cons kv kvs ih =>
    rw [List.foldl_cons, ih, get_insert, ← appended_append]
    refine congrArg _ ?_
    by_cases hk : kv.1 = name
    · subst hk
      by_cases hn : isValidName kv.1 = true <;>
        by_cases hv : isValidValue (fromUtf8Lossy kv.2) = true <;>
          simp [acceptedValues, valuesOf, hn, hv]
    · simp [acceptedValues, valuesOf, hk]

end MetadataMap

end LieGrpc
