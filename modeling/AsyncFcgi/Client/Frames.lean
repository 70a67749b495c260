import AsyncFcgi.Client.Isolation
import AsyncFcgi.Client.Wakeup
import AsyncFcgi.Lib.Run

/-!
# The frames of a body (`src/client/connection.rs`)

A body that was handed over, from there to its end, while other tasks read the socket, notify
everyone and work on other requests. The entry of the request is removed as early as possible:
with the last frame if the end is known by then.

* `Handed.next`: the state after an event.
* `pollFrame_unread`: what one `poll_frame` makes of the unread buffers.
* `frames_fifo`: frames, buffer and entry in every state.
-/

namespace AsyncFcgi

open Lib

namespace InnerConnection

/-- The records with the id of the request at `key` that a call of `poll_resp` reads. -/
def own (self : InnerConnection) (sock : SocketRead) (cx : Waker) (key : ℕ) : List Record :=
  (self.records sock cx).filter fun rec => rec.getRequestId.toNat = key + 1

/-- A call of `poll_resp` ends the request at `key`, or all of them. -/
def endsOwn (self : InnerConnection) (sock : SocketRead) (cx : Waker) (key : ℕ) : Bool :=
  hasEnd (self.own sock cx key) || decide (self.Closes sock cx)

/-- What a call of `poll_resp` does to the buffers of a request that is not aborted. -/
theorem pollResp_buffers {self self' : InnerConnection} {sock : SocketRead} {cx : Waker}
    {res : Poll (Option (Except IoError Unit))} {eff : Effects}
    (h : self.pollResp sock cx = .ok (res, self', eff)) {key : ℕ} {mpxs : FCGIRequest}
    (hq : self.runningRequests.get? key = some mpxs) (hlive : mpxs.aborted = false) :
    ∃ mpxs', self'.runningRequests.get? key = some mpxs' ∧ mpxs'.aborted = false ∧
      mpxs'.buf.bufs = mpxs.buf.bufs ++ payloads (self.own sock cx key) ∧
      mpxs'.ended = (mpxs.ended || self.endsOwn sock cx key) := by
  obtain ⟨acc, rfl, hcases⟩ := pollResp_requests h
  obtain ⟨m, hafter, hlive', hbuf, hend⟩ := FCGIRequest.after_live hlive (self.own sock cx key)
  have hget := distribute_isolated self.runningRequests .none (self.records sock cx) key
  rw [hq, Option.bind_some, ← own, hafter] at hget
  rcases hcases with ⟨hopen, hreq, -⟩ | ⟨hclosed, hreq, -⟩
  · refine ⟨m, by rw [hreq, hget], hlive', hbuf, ?_⟩
    simp [endsOwn, hopen, hend]
  · refine ⟨notify m, by rw [hreq, notifyEveryone, Slab.get?_map, hget]; rfl, ?_⟩
    simp [notify, hlive', hbuf, endsOwn, hclosed]

end InnerConnection

theorem payloads_ne_nil (recs : List Record) : ∀ b ∈ payloads recs, b ≠ [] := by
  intro b hb
  obtain ⟨rec, -, hrec⟩ := List.mem_filterMap.mp hb
  split at hrec
  · split at hrec
    · cases hrec
    · rename_i hne
      cases hrec
      exact hne
  · cases hrec

theorem append_payloads_ne_nil {buf : BufList} (h : buf.NonEmpty) (recs : List Record) :
    ∀ b ∈ buf.bufs ++ payloads recs, b ≠ [] := by
  intro b hb
  rcases List.mem_append.mp hb with hb | hb
  · exact h b hb
  · exact payloads_ne_nil recs b hb

/-- A body and the connection it is on, with what its caller got: the frames, and the end. The
last three fields are history: the payloads that were pushed, whether the request was ended, and
how often its entry was removed. -/
structure Handed where
  con : Mutex InnerConnection
  body : FCGIBody
  frames : List Bytes
  finished : Bool
  pushed : List Bytes
  ended : Bool
  removals : ℕ

namespace Handed

/-- What happens: a `poll_frame`, a `poll_resp` of another task, `notify_everyone`, or anything
else other tasks do to the connection. -/
inductive Event
  | poll (sock : SocketRead) (cx : Waker)
  | drive (sock : SocketRead) (cx : Waker)
  | notify
  | others (con : Mutex InnerConnection)

/-- The body of the request at `key`, when the caller gets it. -/
def start (key : ℕ) (con : Mutex InnerConnection) (ended : Bool) : Handed where
  con := con
  body := ⟨key, false, true⟩
  frames := []
  finished := false
  pushed := []
  ended := ended
  removals := 0

/-- The entry of the request. -/
def entry (st : Handed) : Option FCGIRequest := st.con.inner.runningRequests.get? st.body.rid

/-- The history after a call of `poll_resp`. -/
def heard (st : Handed) (sock : SocketRead) (cx : Waker) : Handed :=
  { st with
    pushed := st.pushed ++ payloads (st.con.inner.own sock cx st.body.rid)
    ended := st.ended || st.con.inner.endsOwn sock cx st.body.rid }

/-- The connection after a step, and whether the entry was removed by it. -/
def moved (st : Handed) (con : Mutex InnerConnection) : Handed :=
  { st with
    con := con
    removals :=
      if st.entry.isSome ∧ con.inner.runningRequests.get? st.body.rid = none then st.removals + 1
      else st.removals }

/-- The caller gets what a poll returned. -/
def give (st : Handed) (res : FramePoll) (body : FCGIBody) : Handed :=
  match res with
  | .ready (some (.ok b)) => { st with body := body, frames := st.frames ++ [b] }
  | .ready none => { st with body := body, finished := true }
  | _ => { st with body := body }

/-- The state after an event; the history ends with the entry. -/
def next (st : Handed) : Event → Except Fault Handed
  | .poll sock cx => do
    let (res, body, con, _) ← st.body.pollFrame st.con sock cx
    if st.body.done = false ∧ st.con.waiters = none then
      .ok (((st.heard sock cx).moved con).give res body)
    else .ok ((st.moved con).give res body)
  | .drive sock cx => do
    let (_, inner, _) ← st.con.inner.pollResp sock cx
    if st.body.done then .ok { st with con := { st.con with inner := inner } }
    else .ok ((st.heard sock cx).moved { st.con with inner := inner })
  | .notify =>
    let runningRequests := (InnerConnection.notifyEveryone st.con.inner.runningRequests).1
    let con := { st.con with inner := { st.con.inner with runningRequests } }
    if st.body.done then .ok { st with con := con }
    else .ok ({ st with ended := true }.moved con)
  | .others con => .ok (if st.body.done then { st with con := con } else st.moved con)

/-- What others do leaves the entry as it is, but for its waker, until the body is done. -/
def Untouched (st : Handed) : Event → Prop
  | .others con => st.body.done = false → ∀ mpxs, st.entry = some mpxs →
      ∃ waker, con.inner.runningRequests.get? st.body.rid = some { mpxs with waker := waker }
  | _ => True

/-- The steps of a body. -/
def Step (st : Handed) (ev : Event) (st' : Handed) : Prop := st.next ev = .ok st' ∧ st.Untouched ev

/-- The state behind an event that is not left to others. -/
def tick (st : Handed) : Event → Option Handed
  | .others _ => none
  | ev =>
    match st.next ev with
    | .ok st' => some st'
    | .error _ => none

theorem step_of_tick (st : Handed) (ev : Event) (st' : Handed) (h : st.tick ev = some st') :
    Step st ev st' := by
  unfold tick at h
  cases ev with
  | others con => cases h
  | _ =>
    simp only at h
    split at h
    · cases h
      exact ⟨‹_›, trivial⟩
    · cases h

/-- The event is the poll that has nothing to wait for: it gets the lock, the request is ended
by what was read until then, and at most one buffer is unread. -/
def Releases (st : Handed) (ev : Event) : Prop :=
  ∃ sock cx mpxs, ev = .poll sock cx ∧ st.body.done = false ∧ st.con.waiters = none ∧
    st.entry = some mpxs ∧ (mpxs.ended || st.con.inner.endsOwn sock cx st.body.rid) = true ∧
    (mpxs.buf.bufs ++ payloads (st.con.inner.own sock cx st.body.rid)).length ≤ 1

/-- The buffers of the entry; none behind its release. -/
def unread (st : Handed) : List Bytes :=
  if st.body.done then [] else (st.entry.map fun mpxs => mpxs.buf.bufs).getD []

end Handed

/-! ## One poll -/

namespace FCGIBody

/-- What a poll with the lock returns, with these buffers unread. -/
def answer (bufs : List Bytes) (ended : Bool) : FramePoll :=
  match bufs with
  | b :: _ => .ready (some (.ok b))
  | [] => if ended then .ready none else .pending

theorem flatten_eq_nil {bufs : List Bytes} (hne : ∀ b ∈ bufs, b ≠ []) :
    bufs.flatten = [] ↔ bufs = [] := by
  constructor
  · intro h
    cases bufs with
    | nil => rfl
    | cons b bufs => exact absurd (List.append_eq_nil_iff.mp h).1 (hne b List.mem_cons_self)
  · rintro rfl
    rfl

/-- A poll with the lock, on what `poll_resp` left: the first of the buffers is returned, and the
entry is released if the request is ended and at most one buffer was there. -/
theorem served_unread {self self' : FCGIBody} {inner inner' : InnerConnection} {cx : Waker}
    {res : FramePoll} {eff : Effects} (h : Served self inner cx res self' inner' eff)
    (hd : self.done = false) (hret : self.wasReturned = true) {mpxs : FCGIRequest}
    (hq : inner.runningRequests.get? self.rid = some mpxs) (hne : mpxs.buf.NonEmpty) :
    res = answer mpxs.buf.bufs mpxs.ended ∧
      self' = { self with done := mpxs.ended && decide (mpxs.buf.bufs.length ≤ 1) } ∧
      inner'.runningRequests.get? self.rid =
        if self'.done then none
        else some { mpxs with
          buf := ⟨mpxs.buf.bufs.tail⟩
          waker := if mpxs.buf.bufs = [] then some cx else mpxs.waker } := by
  have hsame : ∀ slab, inner.runningRequests.get? self.rid = some slab → slab = mpxs :=
    fun slab hq' => Option.some.inj (hq'.symm.trans hq)
  cases h with
  | vanished hq' => cases hq'.symm.trans hq
  | @frame slab front rest hq' hbuf hrem hkeep =>
    obtain rfl := hsame _ hq'
    have hrest : ∀ b ∈ rest, b ≠ [] := fun b hb =>
      hne b (hbuf ▸ List.mem_cons_of_mem _ hb)
    have hstays : (slab.ended && decide (slab.buf.bufs.length ≤ 1)) = false := by
      rw [Bool.eq_false_iff]
      intro hlast
      rw [Bool.and_eq_true, decide_eq_true_eq, hbuf, List.length_cons] at hlast
      refine hkeep ⟨hret, hlast.1, (flatten_eq_nil hrest).mpr (List.length_eq_zero_iff.mp ?_)⟩
      omega
    refine ⟨by rw [hbuf]; rfl, by rw [hstays, ← hd], ?_⟩
    simp [Slab.get?_set hq, hd, hbuf]
  | @last slab front rest hq' hbuf hrem hret' hend hrest =>
    obtain rfl := hsame _ hq'
    have hnil : rest = [] := (flatten_eq_nil fun b hb =>
      hne b (hbuf ▸ List.mem_cons_of_mem _ hb)).mp hrest
    refine ⟨by rw [hbuf]; rfl, by simp [hbuf, hnil, hend], ?_⟩
    simp
  | @finished slab hq' hbuf hend hret' =>
    obtain rfl := hsame _ hq'
    have hnil : slab.buf.bufs = [] := (flatten_eq_nil hne).mp hbuf
    refine ⟨by simp [answer, hnil, hend], by simp [hnil, hend], ?_⟩
    simp
  | early hq' hbuf hend hret' => cases hret.symm.trans hret'
  | @waits slab hq' hbuf hend =>
    obtain rfl := hsame _ hq'
    have hnil : slab.buf.bufs = [] := (flatten_eq_nil hne).mp hbuf
    refine ⟨by simp [answer, hnil, hend], by rw [hend, Bool.false_and, ← hd], ?_⟩
    obtain ⟨⟨bufs⟩, waker, ended, aborted, permit⟩ := slab
    cases hnil
    simp [Slab.get?_set hq, hd]

/-- What one `poll_frame` makes of the unread buffers, with what it reads from the socket behind
them. -/
theorem pollFrame_unread {self self' : FCGIBody} {con con' : Mutex InnerConnection}
    {sock : SocketRead} {cx : Waker} {res : FramePoll} {eff : Effects}
    (h : self.pollFrame con sock cx = .ok (res, self', con', eff)) (hd : self.done = false)
    (hret : self.wasReturned = true) (hfree : con.waiters = none) {mpxs : FCGIRequest}
    (hq : con.inner.runningRequests.get? self.rid = some mpxs) (hlive : mpxs.aborted = false)
    (hne : mpxs.buf.NonEmpty) {bufs : List Bytes} {ended : Bool}
    (hbufs : mpxs.buf.bufs ++ payloads (con.inner.own sock cx self.rid) = bufs)
    (hended : (mpxs.ended || con.inner.endsOwn sock cx self.rid) = ended) :
    res = answer bufs ended ∧ self' = { self with done := ended && decide (bufs.length ≤ 1) } ∧
      if self'.done then con'.inner.runningRequests.get? self.rid = none
      else ∃ mpxs', con'.inner.runningRequests.get? self.rid = some mpxs' ∧
        mpxs'.aborted = false ∧ mpxs'.buf.bufs = bufs.tail ∧ mpxs'.ended = ended := by
  cases pollFrame_framed h with
  | done hd' => cases hd.symm.trans hd'
  | contended hd' hw => cases hw.symm.trans hfree
  | served hd' hfree' hresp hserved =>
    obtain ⟨m, hm, hml, hmb, hme⟩ := InnerConnection.pollResp_buffers hresp hq hlive
    have hmne : m.buf.NonEmpty := by
      rw [BufList.NonEmpty, hmb]
      exact append_payloads_ne_nil hne _
    obtain ⟨hres, hself, hget⟩ := served_unread hserved hd hret hm hmne
    rw [hmb, hbufs, hme, hended] at hres hself
    refine ⟨hres, hself, ?_⟩
    show if self'.done then _ else _
    split
    · rename_i hdone
      rw [hget, if_pos hdone]
    · rename_i hdone
      exact ⟨_, hget.trans (if_neg hdone), hml, by simp only [hmb, hbufs],
        by simp only [hme, hended]⟩

end FCGIBody

namespace Handed

variable {key : ℕ} {init : List Bytes} {st st' : Handed} {ev : Event} {sock : SocketRead}
  {cx : Waker}

/-! ## Any number of steps -/

/-- Where a body stands: in front of the release of its request, or behind. -/
inductive Feeding (key : ℕ) (init : List Bytes) (st : Handed) : Prop
  | running {mpxs : FCGIRequest} (body : st.body = ⟨key, false, true⟩)
      (finished : st.finished = false) (removals : st.removals = 0)
      (entry : st.con.inner.runningRequests.get? key = some mpxs) (live : mpxs.aborted = false)
      (nonEmpty : mpxs.buf.NonEmpty) (ended : mpxs.ended = st.ended)
      (order : st.frames ++ mpxs.buf.bufs = init ++ st.pushed)
  | released (body : st.body = ⟨key, true, true⟩) (removals : st.removals = 1)
      (ended : st.ended = true) (order : st.frames = init ++ st.pushed)

/-- An entry that stays: nothing was removed. -/
theorem moved_stays {con : Mutex InnerConnection} {mpxs : FCGIRequest}
    (h : con.inner.runningRequests.get? st.body.rid = some mpxs) :
    st.moved con = { st with con := con } := by
  rw [moved, h, if_neg (by simp)]

/-- An entry that is gone. -/
theorem moved_leaves {con : Mutex InnerConnection} {mpxs : FCGIRequest}
    (hq : st.entry = some mpxs) (h : con.inner.runningRequests.get? st.body.rid = none) :
    st.moved con = { st with con := con, removals := st.removals + 1 } := by
  rw [moved, hq, if_pos ⟨rfl, h⟩]

theorem heard_order {mpxs : FCGIRequest} (hrid : st.body.rid = key)
    (order : st.frames ++ mpxs.buf.bufs = init ++ st.pushed) :
    st.frames ++ (mpxs.buf.bufs ++ payloads (st.con.inner.own sock cx key)) =
      init ++ (st.heard sock cx).pushed := by
  rw [← List.append_assoc, order, List.append_assoc, ← hrid]
  rfl

/-- What happens to a body that is done leaves what its caller got, and the history. -/
theorem Feeding.next_released (body : st.body = ⟨key, true, true⟩)
    (h : st.next ev = .ok st') :
    ∃ con finished, st' = { st with con := con, finished := finished } := by
  have hd : st.body.done = true := by rw [body]
  cases ev with
  | poll sock cx =>
    have hpoll : st.body.pollFrame st.con sock cx = .ok (.ready none, st.body, st.con, .none) := by
      rw [FCGIBody.pollFrame, if_pos hd]
    have hsame : st.moved st.con = st := by
      rw [moved, if_neg]
      rintro ⟨hsome, hnone⟩
      rw [entry, hnone] at hsome
      cases hsome
    simp only [next, hpoll, ok_bind, hd, Bool.true_eq_false, false_and, if_false, hsame,
      Except.ok.injEq] at h
    exact ⟨st.con, true, h.symm⟩
  | drive sock cx =>
    obtain ⟨⟨_, inner, _⟩, -, h⟩ := bind_eq_ok.mp h
    simp only [hd, if_true, Except.ok.injEq] at h
    exact ⟨_, st.finished, h.symm⟩
  | notify =>
    simp only [next, hd, if_true, Except.ok.injEq] at h
    exact ⟨_, st.finished, h.symm⟩
  | others con =>
    simp only [next, hd, if_true, Except.ok.injEq] at h
    exact ⟨_, st.finished, h.symm⟩

/-- A poll with the lock, in front of the release. -/
theorem Feeding.next_locked {mpxs : FCGIRequest} (body : st.body = ⟨key, false, true⟩)
    (finished : st.finished = false) (removals : st.removals = 0)
    (hq : st.con.inner.runningRequests.get? key = some mpxs) (live : mpxs.aborted = false)
    (nonEmpty : mpxs.buf.NonEmpty) (ended : mpxs.ended = st.ended)
    (order : st.frames ++ mpxs.buf.bufs = init ++ st.pushed) (hfree : st.con.waiters = none)
    (h : st.next (.poll sock cx) = .ok st') :
    Feeding key init st' ∧ st'.body.done =
      ((mpxs.ended || st.con.inner.endsOwn sock cx key) &&
        decide ((mpxs.buf.bufs ++ payloads (st.con.inner.own sock cx key)).length ≤ 1)) := by
  obtain ⟨⟨res, body', con', eff⟩, hpoll, h⟩ := bind_eq_ok.mp h
  have hrid : st.body.rid = key := by rw [body]
  have hd : st.body.done = false := by rw [body]
  have hgives : st' = ((st.heard sock cx).moved con').give res body' := by
    simp only [hd, hfree, and_self, if_true, Except.ok.injEq] at h
    exact h.symm
  generalize hbufs : mpxs.buf.bufs ++ payloads (st.con.inner.own sock cx key) = bufs
  generalize hended : (mpxs.ended || st.con.inner.endsOwn sock cx key) = last
  have hone := FCGIBody.pollFrame_unread hpoll hd (by rw [body]) hfree (hrid ▸ hq) live nonEmpty
    rfl rfl
  rw [hrid, hbufs, hended] at hone
  obtain ⟨hres, hbody, hget⟩ := hone
  have hheard : (st.heard sock cx).ended = last := by
    rw [← hended, ended, ← hrid]
    rfl
  have horder : st.frames ++ bufs = init ++ (st.heard sock cx).pushed :=
    hbufs ▸ heard_order hrid order
  have hentry : (st.heard sock cx).entry = some mpxs := by
    rw [entry]
    exact hrid ▸ hq
  rw [hbody] at hget
  cases hlast : last && decide (bufs.length ≤ 1) with
  | true =>
    rw [hlast] at hget hbody
    have hcount : ((st.heard sock cx).moved con') =
        { st.heard sock cx with con := con', removals := 1 } := by
      rw [moved_leaves hentry (hrid ▸ hget)]
      show { st.heard sock cx with con := con', removals := st.removals + 1 } = _
      rw [removals]
    obtain ⟨rfl, hlen⟩ : last = true ∧ bufs.length ≤ 1 := by simpa using hlast
    rw [hcount] at hgives
    cases bufs with
    | nil =>
      subst hres hbody hgives
      refine ⟨.released (by simp [FCGIBody.answer, give, body]) rfl hheard ?_, rfl⟩
      rw [List.append_nil] at horder
      exact horder
    | cons b rest =>
      obtain rfl : rest = [] := List.length_eq_zero_iff.mp (by simpa using hlen)
      subst hres hbody hgives
      exact ⟨.released (by simp [FCGIBody.answer, give, body]) rfl hheard horder, rfl⟩
  | false =>
    rw [hlast] at hget hbody
    obtain ⟨mpxs', hq', hlive', hbuf', hend'⟩ := hget
    have hcount : ((st.heard sock cx).moved con') = { st.heard sock cx with con := con' } :=
      moved_stays (hrid ▸ hq')
    rw [hcount] at hgives
    cases bufs with
    | nil =>
      obtain rfl : last = false := by simpa using hlast
      subst hres hbody hgives
      refine ⟨.running (by simp [FCGIBody.answer, give, body]) finished removals hq' hlive' ?_
        (hend'.trans hheard.symm) ?_, rfl⟩
      · rw [BufList.NonEmpty, hbuf']
        exact fun b hb => absurd hb List.not_mem_nil
      · rw [hbuf']
        exact horder
    | cons b rest =>
      have hne : ∀ b' ∈ rest, b' ≠ [] := by
        intro b' hb'
        refine append_payloads_ne_nil nonEmpty (st.con.inner.own sock cx key) b' ?_
        rw [hbufs]
        exact List.mem_cons_of_mem _ hb'
      subst hres hbody hgives
      refine ⟨.running (by simp [FCGIBody.answer, give, body]) finished removals hq' hlive' ?_
        (hend'.trans hheard.symm) ?_, rfl⟩
      · rw [BufList.NonEmpty, hbuf']
        exact hne
      · rw [hbuf']
        exact (List.append_assoc _ _ _).trans horder

/-- One step, and whether it is the one that releases the request. -/
theorem Feeding.step (h : Feeding key init st) (hs : Step st ev st') :
    Feeding key init st' ∧ (st'.body.done = true ↔ st.body.done = true ∨ st.Releases ev) := by
  obtain ⟨hnext, huntouched⟩ := hs
  cases h with
  | released body removals ended order =>
    obtain ⟨con, finished, rfl⟩ := next_released body hnext
    exact ⟨.released body removals ended order, by simp [body]⟩
  | @running mpxs body finished removals hq live nonEmpty ended order =>
    have hd : st.body.done = false := by rw [body]
    have hrid : st.body.rid = key := by rw [body]
    have hentry : st.entry = some mpxs := by rw [entry, hrid, hq]
    -- nothing but a poll with the lock can release it
    have hstays : ¬ st.Releases ev → st'.body = st.body →
        (st'.body.done = true ↔ st.body.done = true ∨ st.Releases ev) := fun hno hsame => by
      simp [hsame, hd, hno]
    cases ev with
    | poll sock cx =>
      cases hfree : st.con.waiters with
      | none =>
        obtain ⟨hfed, hdone⟩ := next_locked body finished removals hq live nonEmpty ended order
          hfree hnext
        refine ⟨hfed, ?_⟩
        rw [hdone, hd, Bool.and_eq_true, decide_eq_true_eq]
        constructor
        · rintro ⟨hend, hlen⟩
          exact Or.inr ⟨sock, cx, mpxs, rfl, hd, hfree, hentry, hrid ▸ hend, hrid ▸ hlen⟩
        · rintro (hfalse | ⟨_, _, m, hev, -, -, hm, hend, hlen⟩)
          · cases hfalse
          · cases hev
            cases hentry.symm.trans hm
            exact ⟨hrid ▸ hend, hrid ▸ hlen⟩
      | some q =>
        have hsame : st' = st := by
          simp only [next, FCGIBody.pollFrame_contended hd hfree, ok_bind, hfree, reduceCtorEq,
            and_false, if_false, Except.ok.injEq, moved_stays hentry, give] at hnext
          exact hnext.symm
        subst hsame
        refine ⟨.running body finished removals hq live nonEmpty ended order, hstays ?_ rfl⟩
        rintro ⟨_, _, _, -, -, hnone, -⟩
        cases hfree.symm.trans hnone
    | drive sock cx =>
      obtain ⟨⟨_, inner, _⟩, hresp, hnext⟩ := bind_eq_ok.mp hnext
      obtain ⟨m, hm, hml, hmb, hme⟩ := InnerConnection.pollResp_buffers hresp hq live
      have hmoved : (st.heard sock cx).moved { st.con with inner := inner } =
          { st.heard sock cx with con := { st.con with inner := inner } } :=
        moved_stays (hrid ▸ hm)
      simp only [hd, Bool.false_eq_true, if_false, Except.ok.injEq, hmoved] at hnext
      subst hnext
      refine ⟨.running body finished removals hm hml ?_ ?_ ?_, hstays (by rintro ⟨_, _, _, hev, -⟩; cases hev) rfl⟩
      · rw [BufList.NonEmpty, hmb]
        exact append_payloads_ne_nil nonEmpty _
      · rw [hme, ended, ← hrid]
        rfl
      · rw [hmb]
        exact heard_order hrid order
    | notify =>
      have hm : (InnerConnection.notifyEveryone st.con.inner.runningRequests).1.get? key =
          some (InnerConnection.notify mpxs) := by
        rw [InnerConnection.get?_notifyEveryone, hq, Option.map_some]
      simp only [next, hd, Bool.false_eq_true, if_false, Except.ok.injEq] at hnext
      rw [moved_stays (hrid ▸ hm)] at hnext
      subst hnext
      refine ⟨.running body finished removals hm ?_ ?_ ?_ ?_, hstays (by rintro ⟨_, _, _, hev, -⟩; cases hev) rfl⟩
      · simp [InnerConnection.notify, live]
      · simpa [InnerConnection.notify, live] using nonEmpty
      · simp [InnerConnection.notify, live]
      · simpa [InnerConnection.notify, live] using order
    | others con =>
      obtain ⟨waker, hm⟩ := huntouched hd mpxs hentry
      simp only [next, hd, Bool.false_eq_true, if_false, Except.ok.injEq, moved_stays hm] at hnext
      subst hnext
      have hq' : con.inner.runningRequests.get? key = some { mpxs with waker := waker } := hrid ▸ hm
      exact ⟨.running body finished removals hq' live nonEmpty ended order, hstays (by rintro ⟨_, _, _, hev, -⟩; cases hev) rfl⟩

/-- Only payloads of records are pushed. -/
theorem next_pushed (h : st.next ev = .ok st') :
    ∃ recs, st'.pushed = st.pushed ++ payloads recs := by
  have hnil : st.pushed = st.pushed ++ payloads [] := (List.append_nil _).symm
  have hgive : ∀ (t : Handed) res body, (t.give res body).pushed = t.pushed := by
    intro t res body
    rcases res with (_ | _ | b) | _ <;> rfl
  cases ev with
  | poll sock cx =>
    obtain ⟨⟨res, body, con, _⟩, -, h⟩ := bind_eq_ok.mp h
    simp only at h
    split at h
    · cases h
      exact ⟨_, hgive _ res body⟩
    · cases h
      exact ⟨[], (hgive _ res body).trans hnil⟩
  | drive sock cx =>
    obtain ⟨⟨_, inner, _⟩, -, h⟩ := bind_eq_ok.mp h
    simp only at h
    split at h
    · cases h
      exact ⟨[], hnil⟩
    · cases h
      exact ⟨_, rfl⟩
  | notify =>
    simp only [next] at h
    split at h <;> cases h <;> exact ⟨[], hnil⟩
  | others con =>
    simp only [next] at h
    split at h <;> cases h <;> exact ⟨[], hnil⟩

/-- Frames come in order, and the request is released once. -/
structure Fifo (init : List Bytes) (st : Handed) : Prop where
  /-- the frames, and then what is unread, are the first buffers, and then what was pushed -/
  order : st.frames ++ st.unread = init ++ st.pushed
  nonEmpty : ∀ b ∈ st.frames, b ≠ []
  complete : st.finished = true → st.ended = true ∧ st.frames = init ++ st.pushed
  once : st.removals = if st.body.done then 1 else 0
  release : ∀ ev st', Step st ev st' → (st'.removals = st.removals + 1 ↔ st.Releases ev)
  stays : st.body.done = true → ∀ ev st', Step st ev st' → st'.body.done = true
  /-- behind the release, the connection is left alone -/
  untouched : st.body.done = true → ∀ sock cx,
    st.body.pollFrame st.con sock cx = .ok (.ready none, st.body, st.con, .none)

theorem Feeding.removals_eq (h : Feeding key init st) :
    st.removals = if st.body.done then 1 else 0 := by
  cases h with
  | running body finished removals => rw [removals, body]; rfl
  | released body removals => rw [removals, body]; rfl

theorem Feeding.order (h : Feeding key init st) : st.frames ++ st.unread = init ++ st.pushed := by
  cases h with
  | running body finished removals hq live nonEmpty ended order =>
    rw [unread, entry, body, if_neg (by simp), hq]
    exact order
  | released body removals ended order =>
    rw [unread, body, if_pos rfl, List.append_nil, order]

/-- **Frames are first in, first out, and the request is released once.** A body was handed over,
with buffers that are not empty, and is polled, while records are read, everyone is notified and
other requests are worked on, in any order: the frames so far and what is unread are all that was
pushed, and the entry is removed by the first poll that finds the request ended and at most one
buffer. -/
theorem frames_fifo {con : Mutex InnerConnection} {mpxs : FCGIRequest} {evs : List Event}
    (hq : con.inner.runningRequests.get? key = some mpxs) (hlive : mpxs.aborted = false)
    (hne : mpxs.buf.NonEmpty) (hrun : Run Step (start key con mpxs.ended) evs st) :
    Fifo mpxs.buf.bufs st := by
  have hstart : Feeding key mpxs.buf.bufs (start key con mpxs.ended) :=
    .running rfl rfl rfl hq hlive hne rfl (by simp [start])
  have hfed := hrun.inv hstart fun _ _ _ h hs => (h.step hs).1
  have hpushed : ∀ b ∈ st.pushed, b ≠ [] := by
    refine hrun.inv (I := fun s => ∀ b ∈ s.pushed, b ≠ []) (by simp [start])
      fun s _ s' ih hs b hb => ?_
    obtain ⟨recs, hpush⟩ := next_pushed hs.1
    rw [hpush] at hb
    exact (List.mem_append.mp hb).elim (ih b) (payloads_ne_nil recs b)
  refine ⟨hfed.order, fun b hb => ?_, fun hfin => ?_, hfed.removals_eq, fun ev st' hs => ?_,
    fun hd ev st' hs => (hfed.step hs).2.mpr (Or.inl hd), fun hd sock cx => ?_⟩
  · have hmem : b ∈ mpxs.buf.bufs ++ st.pushed := hfed.order ▸ List.mem_append_left _ hb
    exact (List.mem_append.mp hmem).elim (hne b) (hpushed b)
  · cases hfed with
    | running body finished => cases finished.symm.trans hfin
    | released body removals ended order => exact ⟨ended, order⟩
  · obtain ⟨hfed', hdone⟩ := hfed.step hs
    rw [hfed'.removals_eq, hfed.removals_eq]
    cases hd : st.body.done with
    | true =>
      rw [hdone.mpr (Or.inl hd)]
      refine iff_of_false (by decide) ?_
      rintro ⟨_, _, _, -, hfalse, -⟩
      cases hd.symm.trans hfalse
    | false =>
      rw [hd] at hdone
      simp only [Bool.false_eq_true, false_or] at hdone
      rw [← hdone]
      cases st'.body.done <;> decide
  · rw [FCGIBody.pollFrame, if_pos hd]

/-- A request with one buffer. -/
def oneBuffer : Mutex InnerConnection where
  inner := .fresh ⟨[some { FCGIRequest.new 0 with buf := ⟨[[1]]⟩ }]⟩
  waiters := none

/-- With one buffer there, a greeting is read, then everyone is notified: the next frame is the
last, and its poll removes the entry. -/
theorem frames_fifo_greeting : ∃ st : Handed, Fifo [[1]] st ∧
    st.frames = [[1], InnerConnection.greeting.content] ∧ st.removals = 1 := by
  have hrun : (replay tick (start 0 oneBuffer false)
      [.poll (.ready InnerConnection.greeting.encode) 7, .notify, .poll .pending 7]).map
        (fun st => (st.frames, st.removals)) =
      some ([[1], InnerConnection.greeting.content], 1) := by
    decide +kernel
  obtain ⟨st, hreplay, hst⟩ := Option.map_eq_some_iff.mp hrun
  have hq : oneBuffer.inner.runningRequests.get? 0 =
      some { FCGIRequest.new 0 with buf := ⟨[[1]]⟩ } := rfl
  have hne : BufList.NonEmpty ⟨[[1]]⟩ := by simp [BufList.NonEmpty]
  exact ⟨st, frames_fifo hq rfl hne (run_of_replay step_of_tick _ hreplay),
    congrArg Prod.fst hst, congrArg Prod.snd hst⟩

end Handed

end AsyncFcgi
