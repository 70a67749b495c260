import AsyncFcgi.Fastcgi.Request

/-!
# What an application receives

The other side of the protocol, for which the crate has no code: the records with an id are one
request after the other, each with its stream of PARAMS and its stream of STDIN.

* `foldl_arrive`: records behind a BEGIN_REQUEST go to its request.
* `foldl_next_params`, `foldl_next_stdIn`: the records of a stream are its bytes.
-/

namespace AsyncFcgi

open WireRecord

/-- A request, as far as it was received: PARAMS, STDIN, where in it the records are, and whether
it was aborted. -/
structure Received where
  params : Bytes
  stdin : Bytes
  phase : Phase
  aborted : Bool
  deriving DecidableEq, Repr

namespace Received

/-- The request behind its BEGIN_REQUEST. -/
def new : Received := ⟨[], [], .params, false⟩

/-- A record of the request. What is out of place is ignored. -/
def next (self : Received) (r : WireRecord) : Received :=
  match self.phase with
  | .params =>
    if r.rtype = .params then
      if r.content = [] then { self with phase := .stdIn }
      else { self with params := self.params ++ r.content }
    else if r.rtype = .abortRequest then { self with phase := .over, aborted := true }
    else self
  | .stdIn =>
    if r.rtype = .stdIn then
      if r.content = [] then { self with phase := .over }
      else { self with stdin := self.stdin ++ r.content }
    else if r.rtype = .abortRequest then { self with phase := .over, aborted := true }
    else self
  | _ => self

/-- A record with the id of the requests `reqs`, the last one first. -/
def arrive (reqs : List Received) (r : WireRecord) : List Received :=
  if r.rtype = .beginRequest then new :: reqs
  else
    match reqs with
    | [] => []
    | q :: reqs => q.next r :: reqs

end Received

/-- The requests with an id, the last one first. -/
def receivedOf (id : UInt16) (rs : List WireRecord) : List Received :=
  (ofId id rs).foldl Received.arrive []

namespace Received

variable {q : Received} {rs : List WireRecord}

theorem arrive_begin {r : WireRecord} (hr : r.rtype = .beginRequest) (reqs : List Received) :
    arrive reqs r = new :: reqs :=
  if_pos hr

/-- Without a BEGIN_REQUEST, records go to the last request. -/
theorem foldl_arrive (hno : ∀ r ∈ rs, r.rtype ≠ .beginRequest) (reqs : List Received) :
    ∀ q, rs.foldl arrive (q :: reqs) = rs.foldl next q :: reqs := by
  induction rs with
  | nil => exact fun _ => rfl
  | cons r rs ih =>
    intro q
    rw [List.foldl_cons, List.foldl_cons, arrive, if_neg (hno r List.mem_cons_self)]
    exact ih (fun r' hr' => hno r' (List.mem_cons_of_mem _ hr')) (q.next r)

/-- Without a request, they are lost. -/
theorem foldl_arrive_nil (hno : ∀ r ∈ rs, r.rtype ≠ .beginRequest) :
    rs.foldl arrive [] = [] := by
  induction rs with
  | nil => rfl
  | cons r rs ih =>
    rw [List.foldl_cons, arrive, if_neg (hno r List.mem_cons_self)]
    exact ih fun r' hr' => hno r' (List.mem_cons_of_mem _ hr')

theorem foldl_next_params (hrs : ∀ r ∈ rs, Carries .params r) : ∀ q : Received, q.phase = .params →
    rs.foldl next q = { q with params := q.params ++ (rs.map content).flatten } := by
  induction rs with
  | nil => intro q _; simp
  | cons r rs ih =>
    intro q hq
    obtain ⟨hty, hne⟩ := hrs r List.mem_cons_self
    have hnext : q.next r = { q with params := q.params ++ r.content } := by
      rw [next, hq]
      simp only [if_pos hty, if_neg hne]
    rw [List.foldl_cons, hnext, ih (fun r' hr' => hrs r' (List.mem_cons_of_mem _ hr'))
      { q with params := q.params ++ r.content } hq]
    simp only [List.map_cons, List.flatten_cons, List.append_assoc]

theorem foldl_next_stdIn (hrs : ∀ r ∈ rs, Carries .stdIn r) : ∀ q : Received, q.phase = .stdIn →
    rs.foldl next q = { q with stdin := q.stdin ++ (rs.map content).flatten } := by
  induction rs with
  | nil => intro q _; simp
  | cons r rs ih =>
    intro q hq
    obtain ⟨hty, hne⟩ := hrs r List.mem_cons_self
    have hnext : q.next r = { q with stdin := q.stdin ++ r.content } := by
      rw [next, hq]
      simp only [if_pos hty, if_neg hne]
    rw [List.foldl_cons, hnext, ih (fun r' hr' => hrs r' (List.mem_cons_of_mem _ hr'))
      { q with stdin := q.stdin ++ r.content } hq]
    simp only [List.map_cons, List.flatten_cons, List.append_assoc]

/-- The end of PARAMS. -/
theorem next_closes_params {r : WireRecord} (hq : q.phase = .params) (hr : Closes .params r) :
    q.next r = { q with phase := .stdIn } := by
  rw [next, hq]
  simp only [if_pos hr.1, if_pos hr.2]

/-- The end of STDIN. -/
theorem next_closes_stdIn {r : WireRecord} (hq : q.phase = .stdIn) (hr : Closes .stdIn r) :
    q.next r = { q with phase := .over } := by
  rw [next, hq]
  simp only [if_pos hr.1, if_pos hr.2]

/-- ABORT_REQUEST within a request. -/
theorem next_abort {r : WireRecord} (hq : q.phase = .params ∨ q.phase = .stdIn)
    (hr : r.rtype = .abortRequest) : q.next r = { q with phase := .over, aborted := true } := by
  rcases hq with hq | hq <;> simp [next, hq, hr]

end Received

theorem receivedOf_append (id : UInt16) (rs rs' : List WireRecord) :
    receivedOf id (rs ++ rs') = (ofId id rs').foldl Received.arrive (receivedOf id rs) := by
  rw [receivedOf, ofId_append, List.foldl_append]
  rfl

/-- Records with another id. -/
theorem receivedOf_append_other {id id' : UInt16} {rs' : List WireRecord}
    (h : ∀ r ∈ rs', r.requestId = id) (hne : id ≠ id') (rs : List WireRecord) :
    receivedOf id' (rs ++ rs') = receivedOf id' rs := by
  rw [receivedOf_append, ofId_eq_nil h hne]
  rfl

end AsyncFcgi
