import Mathlib.Data.List.DropRight

/-!
# Ordered multimaps

A multimap as the history of its edits: values are added to a key, and a key is dropped with
all its values. What a key holds depends on the additions to it since it was last dropped
(`held_eq_added`), and on nothing that was done to other keys.
-/

variable {κ ν : Type*} [DecidableEq κ]

namespace Multimap

/-- One change to a multimap. -/
inductive Edit (κ ν : Type*) where
  | add (key : κ) (value : ν)
  | drop (key : κ)
  deriving DecidableEq, Repr

namespace Edit

/-- What the values of `key` become. -/
def apply (key : κ) (values : List ν) : Edit κ ν → List ν
  | .add k v => if k = key then values ++ [v] else values
  | .drop k => if k = key then [] else values

/-- The value that is added to `key`, if one is. -/
def added? (key : κ) : Edit κ ν → Option ν
  | .add k v => if k = key then some v else none
  | .drop _ => none

def drops (key : κ) : Edit κ ν → Bool
  | .add _ _ => false
  | .drop k => k = key

theorem apply_of_drops {key : κ} {e : Edit κ ν} (h : e.drops key = true) (values : List ν) :
    e.apply key values = [] := by
  cases e <;> grind [apply, drops]

theorem apply_of_not_drops {key : κ} {e : Edit κ ν} (h : ¬ e.drops key = true)
    (values : List ν) : e.apply key values = values ++ (e.added? key).toList := by
  cases e <;> grind [apply, added?, drops]

end Edit

/-- The values that `key` holds after some edits of an empty multimap. -/
def held (key : κ) (es : List (Edit κ ν)) : List ν :=
  es.foldl (fun values e => e.apply key values) []

/-- The values that some edits add to `key`. -/
def added (key : κ) (es : List (Edit κ ν)) : List ν := es.filterMap (Edit.added? key)

/-- The edits behind the last one that drops `key`. -/
def sinceDrop (key : κ) (es : List (Edit κ ν)) : List (Edit κ ν) :=
  es.rtakeWhile fun e => !e.drops key

@[simp] theorem held_nil (key : κ) : held key ([] : List (Edit κ ν)) = [] := rfl

@[simp] theorem held_concat (key : κ) (es : List (Edit κ ν)) (e : Edit κ ν) :
    held key (es ++ [e]) = e.apply key (held key es) := by
  simp [held]

/-- A key holds what was added to it since it was dropped, in this order. -/
theorem held_eq_added (key : κ) (es : List (Edit κ ν)) :
    held key es = added key (sinceDrop key es) := by
  induction es using List.reverseRecOn with
  | nil => rfl
  | append_singleton es e ih =>
    by_cases h : e.drops key = true
    · have hlast : sinceDrop key (es ++ [e]) = [] := List.rtakeWhile_concat_neg _ _ _ (by simp [h])
      rw [held_concat, Edit.apply_of_drops h, hlast]
      rfl
    · have hlast : sinceDrop key (es ++ [e]) = sinceDrop key es ++ [e] :=
        List.rtakeWhile_concat_pos _ _ _ (by simp [h])
      rw [held_concat, Edit.apply_of_not_drops h, hlast, ih, added, added, List.filterMap_append]
      cases ha : e.added? key <;> simp [ha]

theorem mem_added {key : κ} {es : List (Edit κ ν)} {v : ν} :
    v ∈ added key es ↔ .add key v ∈ es := by
  simp only [added, List.mem_filterMap]
  constructor
  · rintro ⟨e, he, hv⟩
    cases e <;> grind [Edit.added?]
  · intro h
    exact ⟨_, h, by simp [Edit.added?]⟩

/-- Nothing is held that was not added. -/
theorem mem_of_mem_held {key : κ} {es : List (Edit κ ν)} {v : ν} (h : v ∈ held key es) :
    .add key v ∈ es := by
  rw [held_eq_added, mem_added] at h
  exact (List.rtakeWhile_suffix _ _).subset h

/-! ## Listed multimaps -/

/-- The values of `key` in a list of keys with their values. -/
def valuesAt (key : κ) (entries : List (κ × List ν)) : List ν :=
  entries.flatMap fun entry => if entry.1 = key then entry.2 else []

@[simp] theorem valuesAt_nil (key : κ) : valuesAt key ([] : List (κ × List ν)) = [] := rfl

@[simp] theorem valuesAt_cons (key : κ) (entry : κ × List ν) (entries : List (κ × List ν)) :
    valuesAt key (entry :: entries) =
      (if entry.1 = key then entry.2 else []) ++ valuesAt key entries := rfl

theorem valuesAt_of_notMem {key : κ} {entries : List (κ × List ν)}
    (h : ∀ values, (key, values) ∉ entries) : valuesAt key entries = [] := by
  rw [valuesAt, List.flatMap_eq_nil_iff]
  intro entry hentry
  grind

/-- A key that is listed once has the values beside it. -/
theorem valuesAt_of_mem {key : κ} {values : List ν} {entries : List (κ × List ν)}
    (hkeys : entries.Pairwise fun a b => a.1 ≠ b.1) (h : (key, values) ∈ entries) :
    valuesAt key entries = values := by
  induction entries with
  | nil => cases h
  | cons entry entries ih =>
    obtain ⟨hentry, hrest⟩ := List.pairwise_cons.mp hkeys
    rw [valuesAt_cons]
    rcases List.mem_cons.mp h with rfl | hlater
    · have hnone : valuesAt key entries = [] :=
        valuesAt_of_notMem fun others hothers => hentry _ hothers rfl
      simp [hnone]
    · have hne : entry.1 ≠ key := hentry _ hlater
      simp [hne, ih hrest hlater]

end Multimap
