import Mathlib.Data.List.Basic
import Mathlib.Data.List.Infix

/-!
# Incremental parsers over a growing buffer

A parser that is asked, again and again, what stands at the front of a buffer that
only grows at its end. Each attempt either needs more input, refuses what it sees,
or delivers one item and says how much of the buffer the item took. A verdict other
than "more" never changes when input is appended; everything here follows from that.

`Consumes` is the accounting relation between the input, the items delivered from it
and what is still buffered. `drain` is the greedy parse of a complete input. `paced`
is a reader that receives its input in chunks and makes one attempt after each.
-/

variable {α ω ε : Type*}

/-- What one attempt at the front of the buffer says. -/
inductive Attempt (ω ε : Type*) where
  | more
  | halt (e : ε)
  | item (o : ω) (used : Nat)
  deriving DecidableEq, Repr

/-- Only a delivered item takes anything out of the buffer. -/
def Attempt.advance : Attempt ω ε → List α → List α
  | .item _ used, b => b.drop used
  | _, b => b

def Attempt.item? : Attempt ω ε → Option ω
  | .item o _ => some o
  | _ => none

@[simp] theorem Attempt.advance_more (b : List α) :
    (Attempt.more : Attempt ω ε).advance b = b := rfl
@[simp] theorem Attempt.advance_halt (e : ε) (b : List α) :
    (Attempt.halt e : Attempt ω ε).advance b = b := rfl
@[simp] theorem Attempt.advance_item (o : ω) (n : Nat) (b : List α) :
    (Attempt.item o n : Attempt ω ε).advance b = b.drop n := rfl
@[simp] theorem Attempt.item?_more : (Attempt.more : Attempt ω ε).item? = none := rfl
@[simp] theorem Attempt.item?_halt (e : ε) : (Attempt.halt e : Attempt ω ε).item? = none := rfl
@[simp] theorem Attempt.item?_item (o : ω) (n : Nat) :
    (Attempt.item o n : Attempt ω ε).item? = some o := rfl

/-- The two laws rule out a parser that changes its mind and one that delivers
without consuming. -/
structure Incremental (α ω ε : Type*) where
  attempt : List α → Attempt ω ε
  stable : ∀ b c, attempt b ≠ .more → attempt (b ++ c) = attempt b
  bounded : ∀ b o n, attempt b = .item o n → 0 < n ∧ n ≤ b.length

namespace Incremental

variable (P : Incremental α ω ε)

theorem stable_item {b : List α} {o : ω} {n : Nat} (h : P.attempt b = .item o n) (c : List α) :
    P.attempt (b ++ c) = .item o n := by
  rw [P.stable b c (by simp [h]), h]

theorem stable_halt {b : List α} {e : ε} (h : P.attempt b = .halt e) (c : List α) :
    P.attempt (b ++ c) = .halt e := by
  rw [P.stable b c (by simp [h]), h]

/-- There is nothing to deliver or to refuse on a prefix beyond what the whole shows. -/
theorem eq_of_append {b c : List α} : P.attempt b = .more ∨ P.attempt b = P.attempt (b ++ c) := by
  by_cases h : P.attempt b = .more
  · exact .inl h
  · exact .inr (P.stable b c h).symm

/-- What is undecided was undecided before. -/
theorem more_of_append {b c : List α} (h : P.attempt (b ++ c) = .more) : P.attempt b = .more := by
  rcases P.eq_of_append (b := b) (c := c) with hm | heq
  · exact hm
  · exact heq.trans h

/-- An item is undecided until all of its input is there. -/
theorem more_of_append_item {b c : List α} {o : ω} {n : Nat}
    (h : P.attempt (b ++ c) = .item o n) (hlt : b.length < n) : P.attempt b = .more := by
  rcases P.eq_of_append (b := b) (c := c) with hm | heq
  · exact hm
  · exact absurd (P.bounded b o n (heq.trans h)).2 (Nat.not_le.mpr hlt)

theorem drop_append_of_item {b : List α} {o : ω} {n : Nat} (h : P.attempt b = .item o n)
    (c : List α) : (b ++ c).drop n = b.drop n ++ c :=
  List.drop_append_of_le_length (P.bounded b o n h).2

theorem not_item_nil (o : ω) (n : Nat) : P.attempt [] ≠ .item o n := by
  intro h
  have := P.bounded [] o n h
  simp at this
  omega

/-! ## Accounting -/

/-- From the input `b` the items `os` are delivered one after another and `r` is left. -/
inductive Consumes : List α → List ω → List α → Prop where
  | refl (b : List α) : Consumes b [] b
  | item {b : List α} {o : ω} {n : Nat} {os : List ω} {r : List α} :
      P.attempt b = .item o n → Consumes (b.drop n) os r → Consumes b (o :: os) r

variable {P}

theorem Consumes.trans {b c r : List α} {os ps : List ω} (h : P.Consumes b os c)
    (g : P.Consumes c ps r) : P.Consumes b (os ++ ps) r := by
  induction h with
  | refl b => exact g
  | item ha _ ih => exact .item ha (ih g)

/-- Feeding more input changes neither what was delivered nor how. -/
theorem Consumes.feed {b r : List α} {os : List ω} (h : P.Consumes b os r) (c : List α) :
    P.Consumes (b ++ c) os (r ++ c) := by
  induction h with
  | refl b => exact .refl _
  | item ha _ ih =>
    refine .item (P.stable_item ha c) ?_
    rwa [P.drop_append_of_item ha]

theorem Consumes.single {b : List α} {o : ω} {n : Nat} (h : P.attempt b = .item o n) :
    P.Consumes b [o] (b.drop n) := .item h (.refl _)

/-- Any verdict on the buffer is accounted for by its item, if it has one. -/
theorem Consumes.advance (P : Incremental α ω ε) (b : List α) :
    P.Consumes b (P.attempt b).item?.toList ((P.attempt b).advance b) := by
  cases h : P.attempt b with
  | more => exact .refl b
  | halt e => exact .refl b
  | item o n => exact .single h

/-- Each item takes at least one element of the input. -/
theorem Consumes.length_le {b r : List α} {os : List ω} (h : P.Consumes b os r) :
    os.length + r.length ≤ b.length := by
  induction h with
  | refl b => simp
  | item ha _ ih =>
    have := P.bounded _ _ _ ha
    simp only [List.length_drop, List.length_cons] at ih ⊢
    omega

/-! ## The greedy parse -/

variable (P)

/-- Deliver items from the front of a complete input until no further one is there. -/
def drain (b : List α) : List ω × List α :=
  match _h : P.attempt b with
  | .item o n =>
    let r := drain (b.drop n)
    (o :: r.1, r.2)
  | _ => ([], b)
termination_by b.length
decreasing_by
  have := P.bounded b o n _h
  simp only [List.length_drop]
  omega

def items (b : List α) : List ω := (P.drain b).1
def rest (b : List α) : List α := (P.drain b).2

variable {P}

theorem drain_item {b : List α} {o : ω} {n : Nat} (h : P.attempt b = .item o n) :
    P.drain b = (o :: (P.drain (b.drop n)).1, (P.drain (b.drop n)).2) := by
  rw [drain]
  split
  · next o' n' h' =>
    obtain ⟨rfl, rfl⟩ : o' = o ∧ n' = n := by simpa [h] using h'.symm
    rfl
  · next h' => exact absurd h (h' o n)

theorem drain_stop {b : List α} (h : (P.attempt b).item? = none) : P.drain b = ([], b) := by
  rw [drain]
  split
  · next h' => simp [h'] at h
  · rfl

/-- What was accounted for is the beginning of the greedy parse. -/
theorem Consumes.drain {b r : List α} {os : List ω} (h : P.Consumes b os r) :
    P.drain b = (os ++ P.items r, P.rest r) := by
  induction h with
  | refl b => rfl
  | item ha _ ih => rw [drain_item ha, ih]; rfl

theorem Consumes.items {b r : List α} {os : List ω} (h : P.Consumes b os r) :
    P.items b = os ++ P.items r := congrArg Prod.fst h.drain

theorem Consumes.rest {b r : List α} {os : List ω} (h : P.Consumes b os r) :
    P.rest b = P.rest r := by
  rw [Incremental.rest, h.drain]

theorem items_of_stop {b : List α} (h : (P.attempt b).item? = none) : P.items b = [] :=
  congrArg Prod.fst (drain_stop h)

theorem rest_of_stop {b : List α} (h : (P.attempt b).item? = none) : P.rest b = b :=
  congrArg Prod.snd (drain_stop h)

@[simp] theorem items_nil : P.items ([] : List α) = [] := by
  apply items_of_stop
  cases h : P.attempt [] with
  | item o n => exact absurd h (P.not_item_nil o n)
  | _ => rfl

/-- The greedy parse is itself accounted for, and stops where nothing is deliverable. -/
theorem consumes_drain (b : List α) : P.Consumes b (P.items b) (P.rest b) := by
  induction hl : b.length using Nat.strongRecOn generalizing b with
  | ind l ih =>
    cases h : P.attempt b with
    | item o n =>
      have hn := P.bounded b o n h
      have := ih (b.drop n).length (by simp only [List.length_drop]; omega) _ rfl
      rw [items, rest, drain_item h]
      exact .item h this
    | _ =>
      have hs : (P.attempt b).item? = none := by simp [h]
      rw [items_of_stop hs, rest_of_stop hs]
      exact .refl b

theorem attempt_rest (b : List α) : (P.attempt (P.rest b)).item? = none := by
  induction hl : b.length using Nat.strongRecOn generalizing b with
  | ind l ih =>
    cases h : P.attempt b with
    | item o n =>
      have hn := P.bounded b o n h
      rw [(Consumes.single h).rest]
      exact ih (b.drop n).length (by simp only [List.length_drop]; omega) _ rfl
    | _ =>
      have hs : (P.attempt b).item? = none := by simp [h]
      rw [rest_of_stop hs, hs]

/-- Parsing may be suspended anywhere and resumed with what was left. -/
theorem items_append (b c : List α) : P.items (b ++ c) = P.items b ++ P.items (P.rest b ++ c) :=
  ((consumes_drain b).feed c).items

theorem rest_append (b c : List α) : P.rest (b ++ c) = P.rest (P.rest b ++ c) :=
  ((consumes_drain b).feed c).rest

/-- A refusal is final: the buffer only grows behind it. -/
theorem items_of_halt {b : List α} {e : ε} (h : P.attempt b = .halt e) (c : List α) :
    P.items (b ++ c) = [] := items_of_stop (by simp [P.stable_halt h c])

/-- A complete input that ends undecided was refused nowhere. -/
theorem not_halt_of_rest {b c : List α} (h : P.attempt (P.rest (b ++ c)) = .more) (e : ε) :
    P.attempt b ≠ .halt e := by
  intro hb
  have hh := P.stable_halt hb c
  rw [rest_of_stop (by simp [hh]), hh] at h
  cases h

end Incremental
