import AsyncFcgi.Fastcgi.RecordReader
import AsyncFcgi.Lib.Slab

/-!
# Requests and record distribution (`src/client/connection.rs`)

`FCGIRequest`, one turn of the loop of `parse_and_distribute` (`distribute`), the loop
itself, and `notify_everyone`. What happens outside the table of requests is an effect: the
wakers called, and the permits dropped with a removed request.

* `get?_distributeTo`: one record changes the entry of its own request, nothing else.
* `foldl_distribute_concerned`, `foldl_distribute_unconcerned`: what a list of records does to
  the entry and to the waker of a request.
* `distributeChunks_output`: streams of STDOUT and STDERR records reach the buffers of their
  requests byte by byte, whatever the chunks are.
-/

namespace AsyncFcgi

open Lib

/-- A `std::task::Waker`, by the task it wakes. -/
abbrev Waker := ℕ

/-- An `OwnedSemaphorePermit`, by the acquisition it comes from. -/
abbrev Permit := ℕ

/-- `FCGIRequest` (lines 87–95). -/
structure FCGIRequest where
  buf : BufList
  waker : Option Waker
  ended : Bool
  aborted : Bool
  permit : Permit
  deriving DecidableEq, Repr

/-- The request as `forward` makes it (lines 248–254). -/
def FCGIRequest.new (permit : Permit) : FCGIRequest where
  buf := .new
  waker := none
  ended := false
  aborted := false
  permit := permit

/-- The request has nothing for its reader: no bytes, not ended. -/
def FCGIRequest.Waits (mpxs : FCGIRequest) : Prop :=
  mpxs.buf.flatten = [] ∧ mpxs.ended = false

instance (mpxs : FCGIRequest) : Decidable mpxs.Waits :=
  inferInstanceAs (Decidable (_ ∧ _))

/-- What a step does besides changing its state: the wakers it calls, in order, and the
permits it drops. -/
structure Effects where
  woken : List Waker
  released : List Permit
  deriving DecidableEq, Repr

namespace Effects

/-- No effect. -/
def none : Effects := ⟨[], []⟩

/-- `waker.take()`, and `wake()` of what was there. -/
def wake (waker : Option Waker) : Effects := ⟨waker.toList, []⟩

/-- The drop of a request. -/
def release (permit : Permit) : Effects := ⟨[], [permit]⟩

/-- One effect after another. -/
def append (e e' : Effects) : Effects := ⟨e.woken ++ e'.woken, e.released ++ e'.released⟩

instance : Append Effects := ⟨append⟩

@[simp] theorem woken_append (e e' : Effects) : (e ++ e').woken = e.woken ++ e'.woken := rfl

@[simp] theorem released_append (e e' : Effects) :
    (e ++ e').released = e.released ++ e'.released := rfl

theorem append_assoc (e e' e'' : Effects) : e ++ e' ++ e'' = e ++ (e' ++ e'') := by
  show Effects.mk _ _ = Effects.mk _ _
  simp only [woken_append, released_append, List.append_assoc]

end Effects

/-- The key `parse_and_distribute` looks up for a request id (lines 798–803): `None` for the
management id 0. -/
def reqNo (requestId : UInt16) : Option ℕ :=
  if requestId = 0 then none else some (requestId.toNat - 1)

/-- One record for the request `mpxs` (lines 806–860): the entry, if it stays. -/
def FCGIRequest.receive (mpxs : FCGIRequest) (body : Body) : Option FCGIRequest × Effects :=
  match body with
  | .endRequest _ =>
    if mpxs.aborted then (none, .wake mpxs.waker ++ .release mpxs.permit)
    else (some { mpxs with ended := true, waker := none }, .wake mpxs.waker)
  | .stdOut s =>
    if mpxs.aborted then (some mpxs, .none)
    else if 0 < s.length then
      (some { mpxs with buf := mpxs.buf.push s, waker := none }, .wake mpxs.waker)
    else (some mpxs, .none)
  | _ => (some mpxs, .none)

/-- The records a stream of STDOUT and STDERR consists of. -/
def WireRecord.IsOutput (r : WireRecord) : Prop := r.rtype = .stdOut ∨ r.rtype = .stdErr

instance (r : WireRecord) : Decidable r.IsOutput :=
  inferInstanceAs (Decidable (_ ∨ _))

namespace InnerConnection

/-- One turn of the loop of `parse_and_distribute` (lines 797–865). -/
def distributeTo (requests : Slab FCGIRequest) (r : Record) : Slab FCGIRequest × Effects :=
  match reqNo r.getRequestId with
  | none => (requests, .none)
  | some key =>
    match requests.get? key with
    | none => (requests, .none)
    | some mpxs =>
      match mpxs.receive r.body with
      | (some mpxs', eff) => (requests.set key mpxs', eff)
      | (none, eff) => (requests.remove key, eff)

/-- The same with the effects of the turns before. -/
def distribute (acc : Slab FCGIRequest × Effects) (r : Record) : Slab FCGIRequest × Effects :=
  let (requests, eff) := distributeTo acc.1 r
  (requests, acc.2 ++ eff)

/-- `InnerConnection::parse_and_distribute` (lines 791–866): the table of requests with the
effects, the parser, and the bytes that were not consumed. -/
def parseAndDistribute (data : Bytes) (requests : Slab FCGIRequest) (parser : RecordReader) :
    Except Fault ((Slab FCGIRequest × Effects) × RecordReader × Bytes) :=
  RecordReader.incremental.drainWith distribute (requests, .none) parser data

/-- `notify_everyone` for one request (lines 778–789). -/
def notify (mpxs : FCGIRequest) : FCGIRequest :=
  if mpxs.aborted then { mpxs with waker := none }
  else { mpxs with waker := none, ended := true }

/-- `InnerConnection::notify_everyone` (lines 777–790). -/
def notifyEveryone (requests : Slab FCGIRequest) : Slab FCGIRequest × Effects :=
  (requests.map notify, ⟨requests.values.filterMap FCGIRequest.waker, []⟩)

/-! ## One entry of the table -/

theorem get?_distributeTo (requests : Slab FCGIRequest) (r : Record) (k : ℕ) :
    (distributeTo requests r).1.get? k =
      if reqNo r.getRequestId = some k then
        (requests.get? k).bind fun mpxs => (mpxs.receive r.body).1
      else requests.get? k := by
  unfold distributeTo
  rcases reqNo r.getRequestId with _ | key
  · simp
  · cases hq : requests.get? key with
    | none =>
      by_cases hk : key = k
      · subst hk
        simp [hq]
      · simp [hk, hq]
    | some mpxs =>
      by_cases hk : key = k
      · subst hk
        rcases hm : mpxs.receive r.body with ⟨_ | mpxs', eff⟩
        · simp [hq, hm]
        · simp [hq, hm, Slab.get?_set hq]
      · rcases hm : mpxs.receive r.body with ⟨_ | mpxs', eff⟩
        · simp [hq, hm, hk, Ne.symm hk]
        · simp [hq, hm, hk, Ne.symm hk, Slab.get?_set hq]

theorem effects_distributeTo (requests : Slab FCGIRequest) (r : Record) :
    (distributeTo requests r).2 =
      match (reqNo r.getRequestId).bind requests.get? with
      | none => .none
      | some mpxs => (mpxs.receive r.body).2 := by
  unfold distributeTo
  rcases reqNo r.getRequestId with _ | key
  · rfl
  · cases hq : requests.get? key with
    | none => simp [hq]
    | some mpxs => rcases hm : mpxs.receive r.body with ⟨_ | mpxs', eff⟩ <;> simp [hq, hm]

/-! ## One entry over a list of records -/

/-- What others leave of a request: bytes and the `ended` flag only come, a waker only goes,
the rest stays. -/
structure Kept (mpxs mpxs' : FCGIRequest) : Prop where
  aborted : mpxs'.aborted = mpxs.aborted
  permit : mpxs'.permit = mpxs.permit
  ended : mpxs.ended → mpxs'.ended
  buf : mpxs'.buf.flatten = [] → mpxs.buf.flatten = []
  waker : mpxs'.waker = mpxs.waker ∨ mpxs'.waker = none

theorem Kept.refl (mpxs : FCGIRequest) : Kept mpxs mpxs := ⟨rfl, rfl, id, id, Or.inl rfl⟩

theorem receive_kept {mpxs mpxs' : FCGIRequest} {body : Body}
    (h : (mpxs.receive body).1 = some mpxs') : Kept mpxs mpxs' := by
  unfold FCGIRequest.receive at h
  split at h
  · split at h
    · cases h
    · cases h
      exact ⟨rfl, rfl, fun _ => rfl, id, Or.inr rfl⟩
  · split at h
    · cases h
      exact .refl _
    · split at h
      · cases h
        exact ⟨rfl, rfl, id, fun hb => (List.append_eq_nil_iff.mp (BufList.flatten_push _ _ ▸ hb)).1,
          Or.inr rfl⟩
      · cases h
        exact .refl _
  · cases h
    exact .refl _

theorem notify_kept (mpxs : FCGIRequest) : Kept mpxs (notify mpxs) := by
  unfold notify
  split
  · exact ⟨rfl, rfl, id, id, Or.inr rfl⟩
  · exact ⟨rfl, rfl, fun _ => rfl, id, Or.inr rfl⟩

theorem Kept.not_waits {mpxs mpxs' : FCGIRequest} (h : Kept mpxs mpxs') (hw : ¬ mpxs.Waits) :
    ¬ mpxs'.Waits := by
  rintro ⟨hb, he⟩
  refine hw ⟨h.buf hb, Bool.eq_false_iff.mpr fun he' => ?_⟩
  rw [h.ended he'] at he
  cases he

theorem Kept.answered {mpxs mpxs' : FCGIRequest} (h : Kept mpxs mpxs')
    (hq : ¬ mpxs.Waits ∧ mpxs.waker = none) : ¬ mpxs'.Waits ∧ mpxs'.waker = none := by
  refine ⟨h.not_waits hq.1, ?_⟩
  rcases h.waker with hw | hw
  · rw [hw, hq.2]
  · exact hw

/-- A property of the entry at a key that others leave true. -/
theorem foldl_distribute_entry {Q : FCGIRequest → Prop}
    (hQ : ∀ mpxs mpxs', Kept mpxs mpxs' → Q mpxs → Q mpxs') {key : ℕ} (recs : List Record) :
    ∀ acc : Slab FCGIRequest × Effects, (∀ mpxs, acc.1.get? key = some mpxs → Q mpxs) →
      ∀ mpxs, (recs.foldl distribute acc).1.get? key = some mpxs → Q mpxs := by
  induction recs with
  | nil => intro acc h; exact h
  | cons rec recs ih =>
    intro acc h
    refine ih (distribute acc rec) fun mpxs' hq' => ?_
    replace hq' : (distributeTo acc.1 rec).1.get? key = some mpxs' := hq'
    rw [get?_distributeTo] at hq'
    split at hq'
    · obtain ⟨mpxs, hq, hr⟩ := Option.bind_eq_some_iff.mp hq'
      exact hQ mpxs mpxs' (receive_kept hr) (h mpxs hq)
    · exact h mpxs' hq'

/-- The record gives the request at `key` something to return: its end, or bytes unless it
was aborted. -/
def Concerns (key : ℕ) (aborted : Bool) (rec : Record) : Prop :=
  reqNo rec.getRequestId = some key ∧
    match rec.body with
    | .endRequest _ => True
    | .stdOut s => aborted = false ∧ s ≠ []
    | _ => False

instance (key : ℕ) (aborted : Bool) (rec : Record) : Decidable (Concerns key aborted rec) := by
  unfold Concerns
  cases rec.body <;> exact inferInstanceAs (Decidable (_ ∧ _))

/-- A request that is gone, or has something to return and no waker. -/
def Answered (o : Option FCGIRequest) : Prop :=
  ∀ mpxs, o = some mpxs → ¬ mpxs.Waits ∧ mpxs.waker = none

theorem distribute_concerned {acc : Slab FCGIRequest × Effects} {rec : Record} {key : ℕ}
    {mpxs : FCGIRequest} (hq : acc.1.get? key = some mpxs) (hc : Concerns key mpxs.aborted rec) :
    Answered ((distribute acc rec).1.get? key) ∧
      ∀ w, mpxs.waker = some w → w ∈ (distribute acc rec).2.woken := by
  obtain ⟨hid, hbody⟩ := hc
  have hget := get?_distributeTo acc.1 rec key
  have heff := effects_distributeTo acc.1 rec
  rw [hid, Option.bind_some, hq] at heff
  rw [if_pos hid, hq, Option.bind_some] at hget
  simp only [distribute, Effects.woken_append, hget, heff]
  cases hb : rec.body with
  | endRequest b =>
    cases ha : mpxs.aborted with
    | true =>
      refine ⟨by simp [Answered, FCGIRequest.receive, ha], fun w hw => ?_⟩
      simp [FCGIRequest.receive, ha, Effects.wake, Effects.release, hw]
    | false =>
      refine ⟨by simp [Answered, FCGIRequest.receive, ha, FCGIRequest.Waits], fun w hw => ?_⟩
      simp [FCGIRequest.receive, ha, Effects.wake, hw]
  | stdOut s =>
    rw [hb] at hbody
    obtain ⟨ha, hne⟩ := hbody
    have hlen := List.length_pos_iff.mpr hne
    refine ⟨by simp [Answered, FCGIRequest.receive, ha, hlen, FCGIRequest.Waits, hne],
      fun w hw => ?_⟩
    simp [FCGIRequest.receive, ha, hlen, Effects.wake, hw]
  | _ => rw [hb] at hbody; exact hbody.elim

theorem distribute_unconcerned {acc : Slab FCGIRequest × Effects} {rec : Record} {key : ℕ}
    {mpxs : FCGIRequest} (hq : acc.1.get? key = some mpxs) (hc : ¬ Concerns key mpxs.aborted rec) :
    (distribute acc rec).1.get? key = some mpxs := by
  show (distributeTo acc.1 rec).1.get? key = some mpxs
  rw [get?_distributeTo, hq]
  by_cases hid : reqNo rec.getRequestId = some key
  · rw [if_pos hid, Option.bind_some]
    unfold Concerns at hc
    cases hb : rec.body with
    | endRequest b => simp [hid, hb] at hc
    | stdOut s =>
      simp only [FCGIRequest.receive]
      cases ha : mpxs.aborted with
      | true => rfl
      | false =>
        have hs : s = [] := by simpa [hid, hb, ha] using hc
        simp [hs]
    | _ => rfl
  · rw [if_neg hid]

/-- Records that do not concern a request leave its entry as it is. -/
theorem foldl_distribute_unconcerned {key : ℕ} {mpxs : FCGIRequest} (recs : List Record) :
    ∀ acc : Slab FCGIRequest × Effects, acc.1.get? key = some mpxs →
      (∀ rec ∈ recs, ¬ Concerns key mpxs.aborted rec) →
      (recs.foldl distribute acc).1.get? key = some mpxs := by
  induction recs with
  | nil => intro acc hq _; exact hq
  | cons rec recs ih =>
    intro acc hq hc
    exact ih (distribute acc rec) (distribute_unconcerned hq (hc rec List.mem_cons_self))
      fun r hr => hc r (List.mem_cons_of_mem _ hr)

theorem foldl_distribute_woken {w : Waker} (recs : List Record) :
    ∀ acc : Slab FCGIRequest × Effects, w ∈ acc.2.woken →
      w ∈ (recs.foldl distribute acc).2.woken := by
  induction recs with
  | nil => intro acc h; exact h
  | cons rec recs ih =>
    intro acc h
    refine ih (distribute acc rec) ?_
    show w ∈ (acc.2 ++ (distributeTo acc.1 rec).2).woken
    rw [Effects.woken_append]
    exact List.mem_append_left _ h

/-- A record that concerns a request calls its waker. -/
theorem foldl_distribute_concerned {key : ℕ} {mpxs : FCGIRequest} (recs : List Record) :
    ∀ acc : Slab FCGIRequest × Effects, acc.1.get? key = some mpxs →
      (∃ rec ∈ recs, Concerns key mpxs.aborted rec) →
      Answered ((recs.foldl distribute acc).1.get? key) ∧
        ∀ w, mpxs.waker = some w → w ∈ (recs.foldl distribute acc).2.woken := by
  induction recs with
  | nil => rintro acc _ ⟨rec, hmem, -⟩; cases hmem
  | cons rec recs ih =>
    rintro acc hq ⟨r, hmem, hr⟩
    by_cases hc : Concerns key mpxs.aborted rec
    · obtain ⟨hans, hwoken⟩ := distribute_concerned hq hc
      exact ⟨foldl_distribute_entry (fun _ _ h => h.answered) recs _ hans,
        fun w hw => foldl_distribute_woken recs _ (hwoken w hw)⟩
    · refine ih (distribute acc rec) (distribute_unconcerned hq hc) ⟨r, ?_, hr⟩
      rcases List.mem_cons.mp hmem with rfl | hmem
      · exact absurd hr hc
      · exact hmem

/-- The STDOUT of the request at `key` in a record. -/
def stdOutOf (key : ℕ) (rec : Record) : Bytes :=
  if reqNo rec.getRequestId = some key then
    match rec.body with
    | .stdOut s => s
    | _ => []
  else []

/-- The record is an END_REQUEST for the request at `key`. -/
def EndOf (key : ℕ) (rec : Record) : Prop :=
  reqNo rec.getRequestId = some key ∧
    match rec.body with
    | .endRequest _ => True
    | _ => False

instance (key : ℕ) (rec : Record) : Decidable (EndOf key rec) := by
  unfold EndOf
  cases rec.body <;> exact inferInstanceAs (Decidable (_ ∧ _))

theorem receive_live {mpxs : FCGIRequest} (hlive : mpxs.aborted = false) (body : Body) :
    ∃ mpxs', (mpxs.receive body).1 = some mpxs' ∧ mpxs'.aborted = false ∧
      mpxs'.permit = mpxs.permit ∧
      mpxs'.buf.flatten = mpxs.buf.flatten ++ (match body with | .stdOut s => s | _ => []) ∧
      (mpxs'.ended = true ↔
        mpxs.ended = true ∨ (match body with | .endRequest _ => True | _ => False)) := by
  cases body with
  | endRequest b => exact ⟨_, by rw [FCGIRequest.receive, if_neg (by simp [hlive])], by simp [hlive]⟩
  | stdOut s =>
    by_cases hs : 0 < s.length
    · refine ⟨_, by rw [FCGIRequest.receive, if_neg (by simp [hlive]), if_pos hs], ?_⟩
      simp [hlive]
    · refine ⟨_, by rw [FCGIRequest.receive, if_neg (by simp [hlive]), if_neg hs], ?_⟩
      simp [hlive, List.length_eq_zero_iff.mp (Nat.eq_zero_of_not_pos hs)]
  | _ => exact ⟨mpxs, rfl, by simp [hlive]⟩

/-- What a list of records does to an entry that is not aborted: its STDOUT is added, an
END_REQUEST ends it. -/
theorem foldl_distribute_live {key : ℕ} (recs : List Record) :
    ∀ (acc : Slab FCGIRequest × Effects) (mpxs : FCGIRequest), acc.1.get? key = some mpxs →
      mpxs.aborted = false →
      ∃ mpxs', (recs.foldl distribute acc).1.get? key = some mpxs' ∧ mpxs'.aborted = false ∧
        mpxs'.permit = mpxs.permit ∧
        mpxs'.buf.flatten = mpxs.buf.flatten ++ (recs.map (stdOutOf key)).flatten ∧
        (mpxs'.ended = true ↔ mpxs.ended = true ∨ ∃ rec ∈ recs, EndOf key rec) := by
  induction recs with
  | nil => intro acc mpxs hq hlive; exact ⟨mpxs, hq, hlive, rfl, by simp, by simp⟩
  | cons rec recs ih =>
    intro acc mpxs hq hlive
    have hget : (distribute acc rec).1.get? key = _ := get?_distributeTo acc.1 rec key
    rw [hq, Option.bind_some] at hget
    by_cases hid : reqNo rec.getRequestId = some key
    · obtain ⟨m, hr, hml, hmp, hmb, hme⟩ := receive_live hlive rec.body
      rw [if_pos hid, hr] at hget
      obtain ⟨mpxs', hq', hl, hp, hb, he⟩ := ih _ m hget hml
      refine ⟨mpxs', hq', hl, hp.trans hmp, ?_, ?_⟩
      · rw [hb, hmb, List.map_cons, List.flatten_cons, stdOutOf, if_pos hid, List.append_assoc]
      · rw [he, hme, or_assoc]
        simp [EndOf, hid]
    · rw [if_neg hid] at hget
      obtain ⟨mpxs', hq', hl, hp, hb, he⟩ := ih _ mpxs hget hlive
      refine ⟨mpxs', hq', hl, hp, ?_, ?_⟩
      · rw [hb, List.map_cons, List.flatten_cons, stdOutOf, if_neg hid, List.nil_append]
      · rw [he]
        simp [EndOf, hid]

/-- `parse_and_distribute` on the records the parser reads from the bytes at hand. -/
theorem parseAndDistribute_eq (data : Bytes) (requests : Slab FCGIRequest)
    (parser : RecordReader) :
    parseAndDistribute data requests parser =
      (RecordReader.incremental.drain parser data).map
        fun x => (x.1.foldl distribute (requests, .none), x.2) :=
  Incremental.drainWith_eq_drain _ _ _

/-! ## Streams of STDOUT and STDERR records -/

/-- Calls of `parse_and_distribute` on one chunk after the other; the bytes a call does not
consume are put before the next chunk. -/
def distributeChunks (requests : Slab FCGIRequest) (parser : RecordReader) (left : Bytes) :
    List Bytes → Except Fault (Slab FCGIRequest × RecordReader × Bytes)
  | [] => .ok (requests, parser, left)
  | c :: cs => do
    let ((requests, _), parser, left) ← parseAndDistribute (left ++ c) requests parser
    distributeChunks requests parser left cs

theorem distributeChunks_eq_feedWith (cs : List Bytes) :
    ∀ (requests : Slab FCGIRequest) (parser : RecordReader) (left : Bytes),
      distributeChunks requests parser left cs =
        RecordReader.incremental.feedWith (fun requests r => (distributeTo requests r).1)
          requests parser left cs := by
  induction cs with
  | nil => intro requests parser left; rfl
  | cons c cs ih =>
    intro requests parser left
    have hd := Incremental.drainWith_eq_drainWith (I := RecordReader.incremental) (f := distribute)
      (fun requests r => (distributeTo requests r).1) Prod.fst (fun _ _ => rfl)
      (requests, .none) parser (left ++ c)
    rw [distributeChunks, Incremental.feedWith, ← hd, parseAndDistribute]
    cases RecordReader.incremental.drainWith distribute (requests, .none) parser (left ++ c) with
    | error e => rfl
    | ok x => exact ih x.1.1 x.2.1 x.2.2

/-- The piece `x` of the record `r` as far as it is STDOUT of the request at `key`. -/
def ownPiece (key : ℕ) (r : WireRecord) (x : Bytes) : Bytes :=
  if r.rtype = .stdOut ∧ reqNo r.requestId = some key then x else []

/-- The STDOUT of the request at `key` in a stream. -/
def ownStdout (key : ℕ) (rs : List WireRecord) : Bytes :=
  (rs.map fun r => ownPiece key r r.content).flatten

/-- The part of it that was handed out before the cursor. -/
def ownRead (key : ℕ) (c : Cursor) : Bytes :=
  ownStdout key c.done ++
    match c.cur with
    | none => []
    | some (r, got) => ownPiece key r (r.content.take got)

theorem ownRead_opens {c : Cursor} {ds r got rs} (ho : c.Opens ds r got rs) (key : ℕ) :
    ownRead key c = ownStdout key ds ++ ownPiece key r (r.content.take got) := by
  rcases ho with rfl | ⟨rfl, rfl⟩
  · rfl
  · simp [ownRead, ownPiece]

/-- A step hands out the next piece of its own request. -/
theorem ownRead_step {c c' : Cursor} {r : WireRecord} {x : Bytes} (h : c.Step (some (r, x)) c')
    (key : ℕ) : ownRead key c' = ownRead key c ++ ownPiece key r x := by
  cases h with
  | part n ho hn hle =>
    rw [ownRead_opens ho, ownRead_opens (Or.inl rfl), List.append_assoc, List.take_add]
    congr 1
    unfold ownPiece
    split <;> simp
  | @last _ ds _ got rs ho hle =>
    rw [ownRead_opens ho, List.append_assoc]
    have hpiece : ownPiece key r (r.content.take got) ++ ownPiece key r (r.content.drop got) =
        ownPiece key r r.content := by
      unfold ownPiece
      split <;> simp
    rw [hpiece]
    simp [ownRead, ownStdout]

theorem ownRead_quiet {c c' : Cursor} (h : c.Step none c') (key : ℕ) :
    ownRead key c' = ownRead key c := by
  cases h with
  | idle => rfl
  | header ds r rs => simp [ownRead, ownPiece]

/-- What the reader of a request can see of it: the aborted flag and the unread bytes. -/
def bytesAt (requests : Slab FCGIRequest) (key : ℕ) : Option (Bool × Bytes) :=
  (requests.get? key).map fun mpxs => (mpxs.aborted, mpxs.buf.flatten)

/-- A piece of a STDOUT or STDERR record is appended to the buffer of its own request. -/
theorem bytesAt_distributeTo {requests : Slab FCGIRequest} {r : WireRecord}
    (hout : r.IsOutput) {x : Bytes} (rec : Record)
    (hb : Record.parseBody x r.rtype = .ok rec.body) (hid : rec.getRequestId = r.requestId)
    {key : ℕ} {b : Bytes} (h : bytesAt requests key = some (false, b)) :
    bytesAt (distributeTo requests rec).1 key = some (false, b ++ ownPiece key r x) := by
  obtain ⟨mpxs, hq, hv⟩ := Option.map_eq_some_iff.mp h
  simp only [Prod.mk.injEq] at hv
  obtain ⟨hlive, rfl⟩ := hv
  rw [bytesAt, get?_distributeTo, hid]
  by_cases hk : reqNo r.requestId = some key
  · rw [if_pos hk, hq, Option.bind_some]
    rcases hout with ht | ht
    · rw [ht] at hb
      obtain hb : Body.stdOut x = rec.body := Except.ok.inj hb
      rw [← hb]
      simp only [FCGIRequest.receive, hlive, Bool.false_eq_true, if_false]
      by_cases hx : 0 < x.length
      · rw [if_pos hx]
        simp [ownPiece, ht, hk]
      · rw [if_neg hx]
        simp [hlive, List.length_eq_zero_iff.mp (Nat.eq_zero_of_not_pos hx), ownPiece]
    · rw [ht] at hb
      obtain hb : Body.stdErr x = rec.body := Except.ok.inj hb
      rw [← hb]
      simp [FCGIRequest.receive, hlive, ownPiece, ht]
  · rw [if_neg hk, hq]
    simp [hlive, ownPiece, hk]

/-- A key without a request stays without one. -/
theorem bytesAt_distributeTo_none {requests : Slab FCGIRequest} {rec : Record} {key : ℕ}
    (h : bytesAt requests key = none) : bytesAt (distributeTo requests rec).1 key = none := by
  have hq : requests.get? key = none := Option.map_eq_none_iff.mp h
  rw [bytesAt, get?_distributeTo, hq]
  simp

/-- To each buffer of `requests` what the cursor has passed of its own STDOUT was added. -/
def Appended (requests requests' : Slab FCGIRequest) (c : Cursor) : Prop :=
  ∀ key, bytesAt requests' key = (bytesAt requests key).map fun x => (x.1, x.2 ++ ownRead key c)

theorem appended_start (requests : Slab FCGIRequest) (rs : List WireRecord) :
    Appended requests requests (.start rs) := by
  intro key
  simp [ownRead, Cursor.start, ownStdout]

/-- **Streams are demultiplexed without loss.** Any STDOUT and STDERR records, in any chunks,
for a table without aborted requests: no call panics, after the last chunk the parser holds no
record and no byte is left, and to the unread bytes of each request exactly the contents of
its own STDOUT records were added, in order. -/
theorem distributeChunks_output (requests : Slab FCGIRequest)
    (hlive : ∀ key mpxs, requests.get? key = some mpxs → mpxs.aborted = false)
    (rs : List WireRecord) (hrs : ∀ r ∈ rs, r.IsOutput) (cs : List Bytes)
    (hcs : cs.flatten = WireRecord.encodeAll rs) :
    ∃ requests', distributeChunks requests .new [] cs = .ok (requests', ⟨none⟩, []) ∧
      ∀ key, (requests'.get? key).map (fun mpxs => mpxs.buf.flatten) =
        (requests.get? key).map fun mpxs => mpxs.buf.flatten ++ ownStdout key rs := by
  obtain ⟨requests', hf, hP⟩ := RecordReader.feedWith_cursor_total
    (f := fun requests r => (distributeTo requests r).1) cs hcs (appended_start requests rs)
    (fun h hst key => by rw [h key, ownRead_quiet hst])
    (fun requests' c r x c' bs h hst hs hbs _ => by
      have hr : r.IsOutput := hrs r (hs ▸ hst.mem_stream)
      obtain ⟨b, hb⟩ : ∃ b, Record.parseBody x r.rtype = .ok b := by
        rcases hr with ht | ht <;> rw [ht] <;> exact ⟨_, rfl⟩
      refine ⟨b, hb, fun h' hty hid key => ?_⟩
      cases hq : bytesAt requests key with
      | none => exact bytesAt_distributeTo_none (by rw [h key, hq]; rfl)
      | some y =>
        obtain ⟨a, old⟩ := y
        obtain rfl : a = false := by
          obtain ⟨mpxs, hm, hv⟩ := Option.map_eq_some_iff.mp hq
          rw [← (Prod.mk.inj hv).1, hlive key mpxs hm]
        have hold : bytesAt requests' key = some (false, old ++ ownRead key c) := by
          rw [h key, hq]
          rfl
        have hnew := bytesAt_distributeTo hr ⟨h', b⟩ hb hid hold
        rw [hnew, ownRead_step hst key, List.append_assoc]
        rfl)
  refine ⟨requests', by rw [distributeChunks_eq_feedWith, hf]; rfl, fun key => ?_⟩
  have h := congrArg (Option.map Prod.snd) (hP key)
  simpa [bytesAt, Option.map_map, Function.comp_def, ownRead] using h

/-- A greeting for request 1, with one byte of padding. -/
def greeting : WireRecord where
  version := 1
  rtype := .stdOut
  requestId := 1
  reserved := 0
  content := [72, 105, 33]
  padding := [0]
  content_le := by decide
  padding_le := by decide

/-- A table with one new request. -/
def oneRequest : Slab FCGIRequest := ⟨[some (.new 0)]⟩

/-- Two greetings, cut inside the first content and inside the second header. -/
theorem distributeChunks_output_greetings :
    ∃ requests',
      distributeChunks oneRequest .new []
          [greeting.encode.take 9, greeting.encode.drop 9 ++ greeting.encode.take 5,
            greeting.encode.drop 5] = .ok (requests', ⟨none⟩, []) ∧
        ∀ key, (requests'.get? key).map (fun mpxs => mpxs.buf.flatten) =
          (oneRequest.get? key).map
            fun mpxs => mpxs.buf.flatten ++ ownStdout key [greeting, greeting] :=
  distributeChunks_output oneRequest
    (fun key mpxs h => by
      have hmem := Slab.mem_values.mpr ⟨key, h⟩
      rw [List.mem_singleton.mp hmem]
      rfl)
    [greeting, greeting] (by decide)
    [greeting.encode.take 9, greeting.encode.drop 9 ++ greeting.encode.take 5,
      greeting.encode.drop 5] (by decide)

end InnerConnection

end AsyncFcgi
