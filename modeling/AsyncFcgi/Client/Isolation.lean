import AsyncFcgi.Client.Distribute

/-!
# What the records of one request do to it (`src/client/connection.rs`)

`parse_and_distribute` hands out records of many requests, of the management id and of requests
that are gone, and takes entries from the table while it does. To each request only the records
with its own id count.

* `FCGIRequest.after`: a request behind the records with its id, as its reader expects it.
* `distribute_isolated`: the table behind any list of records.
-/

namespace AsyncFcgi

open Lib

/-- The payloads of STDOUT that are not empty, in order. -/
def payloads (recs : List Record) : List Bytes :=
  recs.filterMap fun rec =>
    match rec.body with
    | .stdOut s => if s = [] then none else some s
    | _ => none

/-- One of the records is an END_REQUEST. -/
def hasEnd (recs : List Record) : Bool :=
  recs.any fun rec =>
    match rec.body with
    | .endRequest _ => true
    | _ => false

namespace FCGIRequest

/-- What the request has to be behind the records with its id: an aborted one stays as it is until
it is removed by its first END_REQUEST; any other one has the payloads at the end of its buffer,
it is ended by an END_REQUEST, and either takes its waker. -/
def after (mpxs : FCGIRequest) (own : List Record) : Option FCGIRequest :=
  if mpxs.aborted then if hasEnd own then none else some mpxs
  else
    some
      { mpxs with
        buf := ⟨mpxs.buf.bufs ++ payloads own⟩
        ended := mpxs.ended || hasEnd own
        waker := if hasEnd own ∨ payloads own ≠ [] then none else mpxs.waker }

theorem after_nil (mpxs : FCGIRequest) : mpxs.after [] = some mpxs := by
  obtain ⟨buf, waker, ended, aborted, permit⟩ := mpxs
  cases aborted <;> simp [after, hasEnd, payloads]

/-- One record more. -/
theorem after_cons (mpxs : FCGIRequest) (rec : Record) (own : List Record) :
    mpxs.after (rec :: own) = (mpxs.receive rec.body).1.bind fun mpxs => mpxs.after own := by
  obtain ⟨header, body⟩ := rec
  cases ha : mpxs.aborted with
  | true => cases body <;> simp [after, receive, ha, hasEnd]
  | false =>
    cases body with
    | endRequest b => simp [after, receive, ha, hasEnd, payloads]
    | stdOut s =>
      by_cases hs : s = []
      · simp [after, receive, ha, hasEnd, payloads, hs]
      · simp [after, receive, ha, hasEnd, payloads, hs, List.length_pos_iff, BufList.push]
    | _ => simp [after, receive, ha, hasEnd, payloads]

/-- The records one after the other. -/
theorem foldlM_receive (own : List Record) : ∀ mpxs : FCGIRequest,
    own.foldlM (fun mpxs rec => (mpxs.receive rec.body).1) mpxs = mpxs.after own := by
  induction own with
  | nil => exact fun mpxs => (after_nil mpxs).symm
  | cons rec own ih =>
    intro mpxs
    rw [after_cons, List.foldlM_cons]
    exact bind_congr ih

theorem after_live {mpxs : FCGIRequest} (hlive : mpxs.aborted = false) (own : List Record) :
    ∃ mpxs', mpxs.after own = some mpxs' ∧ mpxs'.aborted = false ∧
      mpxs'.buf.bufs = mpxs.buf.bufs ++ payloads own ∧
      mpxs'.ended = (mpxs.ended || hasEnd own) := by
  rw [after, if_neg (by simp [hlive])]
  exact ⟨_, rfl, hlive, rfl, rfl⟩

end FCGIRequest

theorem reqNo_eq_some {requestId : UInt16} {key : ℕ} :
    reqNo requestId = some key ↔ requestId.toNat = key + 1 := by
  unfold reqNo
  by_cases h : requestId = 0
  · simp [h]
  · have hpos : 0 < requestId.toNat := by
      rw [Nat.pos_iff_ne_zero]
      exact fun h0 => h (UInt16.toNat_inj.mp h0)
    rw [if_neg h, Option.some.injEq]
    omega

namespace InnerConnection

/-- The table behind the records, without the effects. -/
theorem fst_foldl_distribute (recs : List Record) : ∀ acc : Slab FCGIRequest × Effects,
    (recs.foldl distribute acc).1 = recs.foldl (fun s rec => (distributeTo s rec).1) acc.1 := by
  induction recs with
  | nil => exact fun _ => rfl
  | cons rec recs ih => exact fun acc => ih (distribute acc rec)

/-- **Distribution is isolated.** Behind any list of records of any requests, the entry at a key
depends on what it was, and on the records with the id of the key: an entry that was not there is
not added, and one that was is as `FCGIRequest.after` says. -/
theorem distribute_isolated (requests : Slab FCGIRequest) (eff : Effects) (recs : List Record)
    (key : ℕ) :
    (recs.foldl distribute (requests, eff)).1.get? key =
      (requests.get? key).bind fun mpxs =>
        mpxs.after (recs.filter fun rec => rec.getRequestId.toNat = key + 1) := by
  have hone : ∀ (s : Slab FCGIRequest) (rec : Record) (k : ℕ), (distributeTo s rec).1.get? k =
      if reqNo rec.getRequestId = some k then
        (s.get? k).bind fun mpxs => (mpxs.receive rec.body).1
      else s.get? k :=
    get?_distributeTo
  rw [fst_foldl_distribute, Slab.get?_foldl hone]
  simp only [FCGIRequest.foldlM_receive, reqNo_eq_some]

end InnerConnection

end AsyncFcgi
