import AsyncFcgi.Client.Load

/-!
# The answers to requests

What an application sends with an id are one answer after the other, each with its STDOUT and its
END_REQUEST. An application that answers whole requests is a function; that it serves a connection
is said of the records that were sent to it and of those that came back.

* `foldl_arrive`: records behind an END_REQUEST go to answers of their own.
* `countP_answersTo`, `length_receivedOf`: answers and requests are counted by their records.
-/

namespace AsyncFcgi

open Lib WireRecord

/-- The answer to a request, as far as it came. -/
structure Answered where
  stdout : Bytes
  ended : Bool
  deriving DecidableEq, Repr

namespace Answered

/-- STDOUT, or the END_REQUEST, for the answers `as`, the last one first. Behind an END_REQUEST
the next answer begins. -/
def add (s : Bytes) (e : Bool) (as : List Answered) : List Answered :=
  match as with
  | [] => [⟨s, e⟩]
  | a :: as => if a.ended then ⟨s, e⟩ :: a :: as else ⟨a.stdout ++ s, e⟩ :: as

/-- A record, if it has the id. -/
def arrive (id : UInt16) (as : List Answered) (rec : Record) : List Answered :=
  if rec.getRequestId = id then
    match rec.body with
    | .stdOut s => add s false as
    | .endRequest _ => add [] true as
    | _ => as
  else as

/-- The STDOUT of answers, the last one first. -/
def output (as : List Answered) : Bytes := (as.reverse.map stdout).flatten

end Answered

/-- The answers with an id, the last one first. -/
def answersTo (id : UInt16) (recs : List Record) : List Answered :=
  recs.foldl (Answered.arrive id) []

namespace Answered

variable {id : UInt16} {k : ℕ} {as : List Answered}

theorem output_cons (a : Answered) (as : List Answered) :
    output (a :: as) = output as ++ a.stdout := by
  simp [output]

/-- Behind answers that ended, a record goes to a newer one. -/
theorem add_append (has : ∀ a ∈ as, a.ended = true) (s : Bytes) (e : Bool)
    (newer : List Answered) : ∃ newer', add s e (newer ++ as) = newer' ++ as ∧
      output newer' = output newer ++ s ∧
      ((∃ a ∈ newer', a.ended = true) ↔ (∃ a ∈ newer, a.ended = true) ∨ e = true) := by
  cases newer with
  | nil =>
    refine ⟨[⟨s, e⟩], ?_, by simp [output], by simp⟩
    cases as with
    | nil => rfl
    | cons a as =>
      rw [List.nil_append, add, if_pos (has a List.mem_cons_self)]
      rfl
  | cons a newer =>
    rw [List.cons_append, add]
    by_cases ha : a.ended = true
    · rw [if_pos ha]
      refine ⟨⟨s, e⟩ :: a :: newer, rfl, output_cons _ _, ?_⟩
      simp only [List.mem_cons, exists_eq_or_imp]
      exact or_comm
    · rw [if_neg ha]
      refine ⟨⟨a.stdout ++ s, e⟩ :: newer, rfl, by simp [output_cons], ?_⟩
      simp [ha, or_comm]

theorem foldl_arrive (hid : reqNo id = some k) (has : ∀ a ∈ as, a.ended = true)
    (recs : List Record) : ∃ newer, recs.foldl (arrive id) as = newer ++ as ∧
      output newer = (recs.map (InnerConnection.stdOutOf k)).flatten ∧
      ((∃ a ∈ newer, a.ended = true) ↔ ∃ rec ∈ recs, InnerConnection.EndOf k rec) := by
  induction recs using List.reverseRecOn with
  | nil => exact ⟨[], rfl, rfl, by simp⟩
  | append_singleton recs rec ih =>
    obtain ⟨newer, hnewer, hout, hended⟩ := ih
    rw [List.foldl_append, List.foldl_cons, List.foldl_nil, hnewer]
    simp only [List.map_append, List.map_cons, List.map_nil, List.flatten_append,
      List.flatten_cons, List.flatten_nil, List.append_nil, ← hout, List.mem_append,
      List.mem_singleton, or_and_right, exists_or, exists_eq_left, ← hended]
    by_cases heq : rec.getRequestId = id
    · have hno : reqNo rec.getRequestId = some k := heq ▸ hid
      cases hb : rec.body with
      | stdOut s =>
        obtain ⟨newer', hadd, hout', hended'⟩ := add_append has s false newer
        refine ⟨newer', ?_, ?_, ?_⟩
        · simp only [arrive, if_pos heq, hb]
          exact hadd
        · simp only [InnerConnection.stdOutOf, if_pos hno, hb]
          exact hout'
        · simpa [InnerConnection.EndOf, hb] using hended'
      | endRequest b =>
        obtain ⟨newer', hadd, hout', hended'⟩ := add_append has [] true newer
        refine ⟨newer', ?_, ?_, ?_⟩
        · simp only [arrive, if_pos heq, hb]
          exact hadd
        · simp only [InnerConnection.stdOutOf, if_pos hno, hb]
          exact hout'
        · simpa [InnerConnection.EndOf, hb, hno] using hended'
      | _ =>
        refine ⟨newer, ?_, ?_, ?_⟩
        · simp only [arrive, if_pos heq, hb]
        · simp only [InnerConnection.stdOutOf, if_pos hno, hb, List.append_nil]
        · simp [InnerConnection.EndOf, hb]
    · have hno : reqNo rec.getRequestId ≠ some k := fun hno => heq (UInt16.toNat_inj.mp
        ((reqNo_eq_some.mp hno).trans (reqNo_eq_some.mp hid).symm))
      refine ⟨newer, by rw [arrive, if_neg heq], ?_, by simp [InnerConnection.EndOf, hno]⟩
      rw [InnerConnection.stdOutOf, if_neg hno, List.append_nil]

theorem countP_add (s : Bytes) (e : Bool) (as : List Answered) :
    (add s e as).countP ended = as.countP ended + if e then 1 else 0 := by
  cases as with
  | nil => cases e <;> rfl
  | cons a as =>
    rw [add]
    split
    · rw [List.countP_cons]
    · rename_i ha
      rw [List.countP_cons, List.countP_cons, if_neg ha]
      rfl

end Answered

/-- As many answers ended as there are END_REQUESTs. -/
theorem countP_answersTo (id : UInt16) (recs : List Record) :
    (answersTo id recs).countP Answered.ended = endedWith id recs := by
  induction recs using List.reverseRecOn with
  | nil => rfl
  | append_singleton recs rec ih =>
    rw [answersTo, List.foldl_append, List.foldl_cons, List.foldl_nil, endedWith,
      List.countP_append, List.countP_singleton, ← endedWith, ← ih, ← answersTo, Answered.arrive]
    unfold Record.ends
    split
    · rename_i heq
      cases hb : rec.body with
      | stdOut s => simp [Answered.countP_add]
      | endRequest b => simp [Answered.countP_add, heq]
      | _ => simp
    · rename_i hne
      cases rec.body <;> simp [hne]

theorem answersTo_other {id : UInt16} {recs : List Record}
    (h : ∀ rec ∈ recs, rec.getRequestId ≠ id) : answersTo id recs = [] := by
  induction recs using List.reverseRecOn with
  | nil => rfl
  | append_singleton recs rec ih =>
    rw [answersTo, List.foldl_append, List.foldl_cons, List.foldl_nil, ← answersTo,
      ih fun r hr => h r (List.mem_append_left _ hr), Answered.arrive,
      if_neg (h rec (List.mem_append_right _ List.mem_cons_self))]

/-- The requests with an id are as many as the BEGIN_REQUESTs. -/
theorem length_receivedOf (id : UInt16) (rs : List WireRecord) :
    (receivedOf id rs).length = begunWith id rs := by
  induction rs using List.reverseRecOn with
  | nil => rfl
  | append_singleton rs r ih =>
    rw [receivedOf_append, begunWith, List.countP_append, ← begunWith, ← ih, List.countP_singleton]
    by_cases hid : r.requestId = id
    · rw [ofId_eq_self (by simpa using hid), List.foldl_cons, List.foldl_nil]
      by_cases hty : r.rtype = .beginRequest
      · rw [Received.arrive_begin hty]
        simp [hty, hid]
      · cases receivedOf id rs <;> simp [Received.arrive, hty]
    · rw [ofId_eq_nil (by simp) hid]
      simp [hid]

/-! ## An application -/

/-- A header block and a body for the pairs and the body of a request. -/
abbrev App := List NameValuePair → Bytes → Bytes × Bytes

namespace App

/-- The STDOUT it is written to. -/
def page (app : App) (ps : List NameValuePair) (stdin : Bytes) : Bytes :=
  (app ps stdin).1 ++ (app ps stdin).2

/-- An answer to a request: it does not come before the end of the request, and is a part of the
page, or all of it behind the END_REQUEST. To a request that was aborted it may be anything. -/
structure Answers (app : App) (q : Received) (a : Answered) : Prop where
  whole : q.phase = .over
  part : q.aborted = false → ∀ ps, NameValuePair.code.decodeAll q.params = some ps →
    a.stdout <+: app.page ps q.stdin ∧ (a.ended = true → a.stdout = app.page ps q.stdin)

/-- With each id the application answered the requests in their order, as far as it did. -/
def Serves (app : App) (wire : Wire) : Prop :=
  ∃ rs, wire.io.io.sent = encodeAll rs ∧ ∀ id, ∃ waiting qs, receivedOf id rs = waiting ++ qs ∧
    List.Forall₂ app.Answers qs (answersTo id wire.con.log)

end App

end AsyncFcgi
