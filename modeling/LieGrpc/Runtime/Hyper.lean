import LieGrpc.Runtime.Std
import Mathlib.Data.List.TakeWhile

/-!
# What the code uses of `hyper` and `http`

A `Body` is described by what polling it will give: a finite list of `poll_data`
results, and whether the data then ends or the body stays pending for good. What
awaiting its trailers gives may depend on the results that are still unread.

`HeaderMap` is the interface of a header map and `LawfulHeaderMap` the documented
behaviour of `get` and `extend`; nothing else about the map is assumed.
-/

namespace LieGrpc

/-- An error of the transport, which the code only wraps. -/
structure HyperError where
  message : String
  deriving DecidableEq, Repr

/-- `http::StatusCode`. -/
structure StatusCode where
  asU16 : Nat
  valid : 100 ≤ asU16 ∧ asU16 < 1000
  deriving DecidableEq

def StatusCode.ok : StatusCode := ⟨200, by decide⟩

/-! ## Header maps -/

class HeaderMap (H : Type) where
  /-- Every name and value in iteration order. -/
  iter : H → List (String × Bytes)
  get : H → String → Option Bytes
  extend : H → H → H

/-- The values of one name in a list of entries, in order. -/
def valuesOf (kvs : List (String × Bytes)) (name : String) : List Bytes :=
  (kvs.filter fun kv => kv.1 = name).map (·.2)

def HeaderMap.getAll {H : Type} [HeaderMap H] (h : H) (name : String) : List Bytes :=
  valuesOf (iter h) name

/-- The values of one name once `t` has replaced the same-named entries of `h`. -/
def HeaderMap.overridden {H : Type} [HeaderMap H] (h t : H) (name : String) : List Bytes :=
  match getAll t name with
  | [] => getAll h name
  | vs => vs

/-- The values of one name in the headers after trailers, if there are any. -/
def HeaderMap.afterTrailers {H : Type} [HeaderMap H] (h : H) : Option H → String → List Bytes
  | none, name => getAll h name
  | some t, name => overridden h t name

/-- `get` gives the first value, and `extend` replaces the values of a name present in both, while
there is room for the names of both. -/
class LawfulHeaderMap (H : Type) [HeaderMap H] : Prop where
  get_eq_head? : ∀ (h : H) (name : String), HeaderMap.get h name = (HeaderMap.getAll h name).head?
  getAll_extend : ∀ (h t : H) (name : String),
    HeaderMap.getAll (HeaderMap.extend h t) name = HeaderMap.overridden h t name

/-- A header map as the list of its entries, extended as `http` documents it. -/
structure HeaderList where
  entries : List (String × Bytes)
  deriving DecidableEq, Repr

instance : HeaderMap HeaderList where
  iter h := h.entries
  get h name := (h.entries.find? fun kv => kv.1 = name).map (·.2)
  extend h t := ⟨h.entries.filter (fun kv => kv.1 ∉ t.entries.map (·.1)) ++ t.entries⟩

theorem valuesOf_eq_nil_iff (kvs : List (String × Bytes)) (name : String) :
    valuesOf kvs name = [] ↔ name ∉ kvs.map (·.1) := by
  induction kvs with
  | nil => simp [valuesOf]
  | cons kv kvs ih =>
    by_cases hk : kv.1 = name
    · simp [valuesOf, hk]
    · simpa [valuesOf, hk, Ne.symm hk] using ih

theorem valuesOf_append (kvs kvs' : List (String × Bytes)) (name : String) :
    valuesOf (kvs ++ kvs') name = valuesOf kvs name ++ valuesOf kvs' name := by
  simp [valuesOf]

/-- Dropping whole names empties these and leaves the others alone. -/
theorem valuesOf_filter (kvs : List (String × Bytes)) (names : List String) (name : String) :
    valuesOf (kvs.filter fun kv => kv.1 ∉ names) name =
      if name ∈ names then [] else valuesOf kvs name := by
  rw [valuesOf, List.filter_filter]
  split
  · next hn =>
    simp only [List.map_eq_nil_iff, List.filter_eq_nil_iff, Bool.and_eq_true, decide_eq_true_eq]
    rintro kv - ⟨rfl, hk⟩
    exact hk hn
  · next hn =>
    refine congrArg _ (List.filter_congr fun kv _ => ?_)
    by_cases hk : kv.1 = name <;> simp [hk, hn]

theorem find?_eq_head?_valuesOf (kvs : List (String × Bytes)) (name : String) :
    (kvs.find? fun kv => kv.1 = name).map (·.2) = (valuesOf kvs name).head? := by
  rw [valuesOf, List.head?_map, List.head?_filter]

instance : LawfulHeaderMap HeaderList where
  get_eq_head? h name := find?_eq_head?_valuesOf h.entries name
  getAll_extend h t name := by
    have hnames := valuesOf_eq_nil_iff t.entries name
    simp only [HeaderMap.overridden, HeaderMap.getAll, HeaderMap.iter, HeaderMap.extend,
      valuesOf_append, valuesOf_filter]
    cases ht : valuesOf t.entries name with
    | nil => rw [if_neg (hnames.mp ht), List.append_nil]
    | cons v vs => rw [if_pos (by simpa [ht] using hnames), List.nil_append]

/-! ## Bodies -/

/-- One result of `poll_data` while the data has not ended. -/
inductive BodyEvent where
  | pending
  | data (b : Bytes)
  | error (e : HyperError)
  deriving DecidableEq, Repr

/-- What every further poll gives: the end of the data, or nothing. -/
inductive BodyEnd where
  | eof
  | stalled
  deriving DecidableEq, Repr

structure Body (H : Type) where
  events : List BodyEvent
  ending : BodyEnd
  /-- What awaiting the trailers gives while these results are unread. -/
  trailers : List BodyEvent → Poll (Except HyperError (Option H))

def BodyEvent.poll : BodyEvent → Poll (Option (Except HyperError Bytes))
  | .pending => .pending
  | .data b => .ready (some (.ok b))
  | .error e => .ready (some (.error e))

/-- `HttpBody::poll_data`. -/
def Body.pollData {H : Type} (body : Body H) :
    Poll (Option (Except HyperError Bytes)) × Body H :=
  match body.events, body.ending with
  | e :: es, _ => (e.poll, { body with events := es })
  | [], .eof => (.ready none, body)
  | [], .stalled => (.pending, body)

def BodyEvent.data? : BodyEvent → Option Bytes
  | .data b => some b
  | _ => none

def BodyEvent.isError : BodyEvent → Bool
  | .error _ => true
  | _ => false

def BodyEvent.error? : BodyEvent → Option HyperError
  | .error e => some e
  | _ => none

/-- The data chunks among poll results. -/
def chunks (es : List BodyEvent) : List Bytes := es.filterMap BodyEvent.data?

/-- All data bytes among poll results. -/
def dataBytes (es : List BodyEvent) : Bytes := (chunks es).flatten

@[simp] theorem chunks_nil : chunks [] = [] := rfl
@[simp] theorem chunks_pending (es : List BodyEvent) : chunks (.pending :: es) = chunks es := rfl
@[simp] theorem chunks_data (b : Bytes) (es : List BodyEvent) :
    chunks (.data b :: es) = b :: chunks es := rfl
@[simp] theorem chunks_error (e : HyperError) (es : List BodyEvent) :
    chunks (.error e :: es) = chunks es := rfl
@[simp] theorem chunks_append (es es' : List BodyEvent) :
    chunks (es ++ es') = chunks es ++ chunks es' := List.filterMap_append

@[simp] theorem dataBytes_nil : dataBytes [] = [] := rfl
@[simp] theorem dataBytes_pending (es : List BodyEvent) :
    dataBytes (.pending :: es) = dataBytes es := rfl
@[simp] theorem dataBytes_data (b : Bytes) (es : List BodyEvent) :
    dataBytes (.data b :: es) = b ++ dataBytes es := rfl
@[simp] theorem dataBytes_error (e : HyperError) (es : List BodyEvent) :
    dataBytes (.error e :: es) = dataBytes es := rfl
@[simp] theorem dataBytes_append (es es' : List BodyEvent) :
    dataBytes (es ++ es') = dataBytes es ++ dataBytes es' := by simp [dataBytes]

/-- What a poll of the body adds to a buffer that is then looked at: nothing at the end of the
data. -/
def feed? : Poll (Option (Except HyperError Bytes)) → Option Bytes
  | .ready none => some []
  | .ready (some (.ok b)) => some b
  | _ => none

/-- The body has reported the end of its data. -/
def sawEnd : Poll (Option (Except HyperError Bytes)) → Bool
  | .ready none => true
  | _ => false

@[simp] theorem feed?_poll (e : BodyEvent) : feed? e.poll = e.data? := by cases e <;> rfl

@[simp] theorem sawEnd_poll (e : BodyEvent) : sawEnd e.poll = false := by cases e <;> rfl

theorem chunks_cons (e : BodyEvent) (es : List BodyEvent) :
    chunks (e :: es) = e.data?.toList ++ chunks es := by cases e <;> rfl

/-- A poll uses up one result, or finds none left and changes nothing. -/
theorem Body.pollData_cases {H : Type} (body : Body H) :
    (∃ e, body = { body.pollData.2 with events := e :: body.pollData.2.events } ∧
      body.pollData.1 = e.poll) ∨
    body.events = [] ∧ body.pollData.2 = body ∧
      (body.pollData.1 = .ready none ∨ body.pollData.1 = .pending) := by
  obtain ⟨events, ending, trailers⟩ := body
  cases events with
  | cons e es => exact .inl ⟨e, rfl, rfl⟩
  | nil =>
    cases ending with
    | eof => exact .inr ⟨rfl, rfl, .inl rfl⟩
    | stalled => exact .inr ⟨rfl, rfl, .inr rfl⟩

/-- The results that a poll uses up hold the bytes it feeds. -/
theorem Body.exists_seen {H : Type} (body : Body H) :
    ∃ seen, body = { body.pollData.2 with events := seen ++ body.pollData.2.events } ∧
      dataBytes seen = (feed? body.pollData.1).getD [] := by
  rcases body.pollData_cases with ⟨e, hbody, hpoll⟩ | ⟨-, hbody, hpoll⟩
  · refine ⟨[e], hbody, ?_⟩
    rw [hpoll, feed?_poll, dataBytes, chunks_cons]
    cases e.data? <;> simp
  · refine ⟨[], ?_, ?_⟩
    · rw [hbody]
      rfl
    · rcases hpoll with hpoll | hpoll <;> rw [hpoll] <;> rfl

/-- The data bytes before the first body error. -/
def bytesBeforeError (es : List BodyEvent) : Bytes :=
  dataBytes (es.takeWhile fun e => !e.isError)

@[simp] theorem bytesBeforeError_nil : bytesBeforeError [] = [] := rfl
@[simp] theorem bytesBeforeError_pending (es : List BodyEvent) :
    bytesBeforeError (.pending :: es) = bytesBeforeError es := rfl
@[simp] theorem bytesBeforeError_data (b : Bytes) (es : List BodyEvent) :
    bytesBeforeError (.data b :: es) = b ++ bytesBeforeError es := rfl
@[simp] theorem bytesBeforeError_error (e : HyperError) (es : List BodyEvent) :
    bytesBeforeError (.error e :: es) = [] := rfl

theorem bytesBeforeError_append {seen : List BodyEvent} (h : ∀ e ∈ seen, e.isError = false)
    (es : List BodyEvent) :
    bytesBeforeError (seen ++ es) = dataBytes seen ++ bytesBeforeError es := by
  rw [bytesBeforeError, List.takeWhile_append_of_pos fun e he => by simp [h e he], dataBytes_append]
  rfl

theorem bytesBeforeError_of_noError {es : List BodyEvent} (h : ∀ e ∈ es, e.isError = false) :
    bytesBeforeError es = dataBytes es := by
  simpa using bytesBeforeError_append h []

/-- `http::Response` with its parts. -/
structure HttpResponse (H : Type) where
  status : StatusCode
  headers : H
  body : Body H

end LieGrpc
