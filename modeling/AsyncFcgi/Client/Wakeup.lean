import AsyncFcgi.Client.Body

/-!
# Which wakers are called, and which are stored (`src/client/connection.rs`)

* `pollResp_answers`, `pollResp_unanswered`: whether a call of `poll_resp` gives a waiting
  request something to return and calls its waker, or leaves it waiting.
* `pending_registered_iff`: a `poll_frame` that returns `Pending` leaves the waker of its task
  in the queue of the mutex or, with the socket pending, in its entry, exactly if the state it
  is called in is `Covered`.
-/

namespace AsyncFcgi

open Lib

namespace InnerConnection

/-- What `poll_fill_buf` returns to a call of `poll_resp`. -/
def slice (self : InnerConnection) (sock : SocketRead) (cx : Waker) : Poll (Except IoError Bytes) :=
  (self.io.pollFillBuf sock cx).1

/-- The records a call of `poll_resp` reads; none if the parser panics. -/
def records (self : InnerConnection) (sock : SocketRead) (cx : Waker) : List Record :=
  match self.slice sock cx with
  | .ready (.ok rbuf) =>
    if rbuf = [] then []
    else
      match RecordReader.incremental.drain self.fcgiParser rbuf with
      | .ok (recs, _, _) => recs
      | .error _ => []
  | _ => []

/-- A call of `poll_resp` takes the connection for closed. -/
def Closes (self : InnerConnection) (sock : SocketRead) (cx : Waker) : Prop :=
  match self.slice sock cx with
  | .pending => False
  | .ready (.error _) => True
  | .ready (.ok rbuf) => rbuf = [] ∨ self.fcgiParser.Stalled rbuf

instance (self : InnerConnection) (sock : SocketRead) (cx : Waker) :
    Decidable (self.Closes sock cx) := by
  unfold Closes
  split
  · exact inferInstance
  · exact inferInstance
  · exact inferInstance

/-- A call of `poll_resp` gives the request at `key` something to return: the end of the
connection unless it was aborted, or a record. -/
def Answers (self : InnerConnection) (sock : SocketRead) (cx : Waker) (key : ℕ)
    (aborted : Bool) : Prop :=
  (aborted = false ∧ self.Closes sock cx) ∨
    ∃ rec ∈ self.records sock cx, Concerns key aborted rec

/-- The parser panics on what a call of `poll_resp` reads. -/
def Panics (self : InnerConnection) (sock : SocketRead) (cx : Waker) : Prop :=
  ∃ rbuf e, self.slice sock cx = .ready (.ok rbuf) ∧ rbuf ≠ [] ∧
    RecordReader.incremental.drain self.fcgiParser rbuf = .error e

theorem records_of_parse {self : InnerConnection} {sock : SocketRead} {cx : Waker} {io : BufReader}
    {rbuf : Bytes} (hfill : self.io.pollFillBuf sock cx = (.ready (.ok rbuf), io)) (hne : rbuf ≠ [])
    {acc : Slab FCGIRequest × Effects} {parser : RecordReader} {data : Bytes}
    (hparse : parseAndDistribute rbuf self.runningRequests self.fcgiParser =
      .ok (acc, parser, data)) :
    acc = (self.records sock cx).foldl distribute (self.runningRequests, .none) := by
  rw [parseAndDistribute_eq] at hparse
  rw [records, slice, hfill]
  simp only [if_neg hne]
  cases hd : RecordReader.incremental.drain self.fcgiParser rbuf with
  | error e => rw [hd] at hparse; cases hparse
  | ok x =>
    rw [hd] at hparse
    simp only [Except.map, Except.ok.injEq, Prod.mk.injEq] at hparse
    exact hparse.1.symm

theorem get?_notifyEveryone (requests : Slab FCGIRequest) (key : ℕ) :
    (notifyEveryone requests).1.get? key = (requests.get? key).map notify :=
  Slab.get?_map notify requests key

theorem mem_woken_notifyEveryone {requests : Slab FCGIRequest} {key : ℕ} {mpxs : FCGIRequest}
    {w : Waker} (hq : requests.get? key = some mpxs) (hw : mpxs.waker = some w) :
    w ∈ (notifyEveryone requests).2.woken :=
  List.mem_filterMap.mpr ⟨mpxs, Slab.mem_values.mpr ⟨key, hq⟩, hw⟩

/-- What a call of `poll_resp` does to the table of requests: the records it read, then
`notify_everyone` if it takes the connection for closed. -/
theorem pollResp_requests {self self' : InnerConnection} {sock : SocketRead} {cx : Waker}
    {res : Poll (Option (Except IoError Unit))} {eff : Effects}
    (h : self.pollResp sock cx = .ok (res, self', eff)) :
    ∃ acc : Slab FCGIRequest × Effects,
      acc = (self.records sock cx).foldl distribute (self.runningRequests, .none) ∧
      ((¬ self.Closes sock cx ∧ self'.runningRequests = acc.1 ∧ eff.woken = acc.2.woken ∧
          eff.released = acc.2.released) ∨
        (self.Closes sock cx ∧ self'.runningRequests = (notifyEveryone acc.1).1 ∧
          eff.woken = acc.2.woken ++ (notifyEveryone acc.1).2.woken ∧
          eff.released = acc.2.released)) := by
  cases pollResp_polled h with
  | pending hfill =>
    refine ⟨(self.runningRequests, .none), by simp [records, slice, hfill], Or.inl ?_⟩
    exact ⟨by simp [Closes, slice, hfill], rfl, rfl, rfl⟩
  | failed hfill =>
    refine ⟨(self.runningRequests, .none), by simp [records, slice, hfill], Or.inr ?_⟩
    exact ⟨by simp [Closes, slice, hfill], rfl, rfl, rfl⟩
  | ended hfill =>
    refine ⟨(self.runningRequests, .none), by simp [records, slice, hfill], Or.inr ?_⟩
    exact ⟨by simp [Closes, slice, hfill], rfl, rfl, rfl⟩
  | @stalled io rbuf requests eff₁ parser hfill hne hstall hparse =>
    refine ⟨(requests, eff₁), records_of_parse hfill hne hparse, Or.inr ?_⟩
    exact ⟨by simp [Closes, slice, hfill, hstall], rfl, rfl,
      by simp [notifyEveryone]⟩
  | @read io rbuf requests eff₁ parser data hfill hne hstall hparse =>
    refine ⟨(requests, eff), records_of_parse hfill hne hparse, Or.inl ?_⟩
    exact ⟨by simp [Closes, slice, hfill, hstall, hne], rfl, rfl, rfl⟩

/-- A property of the entry at a key that others leave true. -/
theorem pollResp_entry {Q : FCGIRequest → Prop}
    (hQ : ∀ mpxs mpxs', Kept mpxs mpxs' → Q mpxs → Q mpxs') {self self' : InnerConnection}
    {sock : SocketRead} {cx : Waker} {res : Poll (Option (Except IoError Unit))} {eff : Effects}
    (h : self.pollResp sock cx = .ok (res, self', eff)) {key : ℕ}
    (hq : ∀ mpxs, self.runningRequests.get? key = some mpxs → Q mpxs) :
    ∀ mpxs, self'.runningRequests.get? key = some mpxs → Q mpxs := by
  obtain ⟨acc, rfl, ⟨-, hreq, -⟩ | ⟨-, hreq, -⟩⟩ := pollResp_requests h
  · rw [hreq]
    exact foldl_distribute_entry hQ _ _ hq
  · intro mpxs' hq'
    rw [hreq, get?_notifyEveryone] at hq'
    obtain ⟨mpxs, hm, rfl⟩ := Option.map_eq_some_iff.mp hq'
    exact hQ mpxs _ (notify_kept mpxs) (foldl_distribute_entry hQ _ _ hq mpxs hm)

/-- A call that answers a request leaves it with something to return, and calls its waker. -/
theorem pollResp_answers {self self' : InnerConnection} {sock : SocketRead} {cx : Waker}
    {res : Poll (Option (Except IoError Unit))} {eff : Effects}
    (h : self.pollResp sock cx = .ok (res, self', eff)) {key : ℕ} {mpxs : FCGIRequest}
    (hq : self.runningRequests.get? key = some mpxs) (ha : self.Answers sock cx key mpxs.aborted) :
    Answered (self'.runningRequests.get? key) ∧ ∀ w, mpxs.waker = some w → w ∈ eff.woken := by
  obtain ⟨acc, rfl, hcases⟩ := pollResp_requests h
  by_cases hrec : ∃ rec ∈ self.records sock cx, Concerns key mpxs.aborted rec
  · obtain ⟨hans, hwoken⟩ := foldl_distribute_concerned (self.records sock cx)
      (self.runningRequests, .none) hq hrec
    rcases hcases with ⟨-, hreq, hw, -⟩ | ⟨-, hreq, hw, -⟩
    · exact ⟨hreq ▸ hans, fun w hwk => hw ▸ hwoken w hwk⟩
    · refine ⟨?_, fun w hwk => hw ▸ List.mem_append_left _ (hwoken w hwk)⟩
      intro mpxs' hq'
      rw [hreq, get?_notifyEveryone] at hq'
      obtain ⟨m, hm, rfl⟩ := Option.map_eq_some_iff.mp hq'
      exact (notify_kept m).answered (hans m hm)
  · -- the end of the connection, behind records for others
    obtain ⟨hlive, hcl⟩ := ha.resolve_right hrec
    have hkeep := foldl_distribute_unconcerned (self.records sock cx)
      (self.runningRequests, .none) hq fun rec hmem hc => hrec ⟨rec, hmem, hc⟩
    rcases hcases with ⟨hncl, -⟩ | ⟨-, hreq, hw, -⟩
    · exact absurd hcl hncl
    · refine ⟨?_, fun w hwk =>
        hw ▸ List.mem_append_right _ (mem_woken_notifyEveryone hkeep hwk)⟩
      intro mpxs' hq'
      rw [hreq, get?_notifyEveryone, hkeep, Option.map_some, Option.some.injEq] at hq'
      subst hq'
      simp [notify, hlive, FCGIRequest.Waits]

/-- A call that does not answer a request leaves its entry as it is; only the waker of an
aborted request may be gone. -/
theorem pollResp_unanswered {self self' : InnerConnection} {sock : SocketRead} {cx : Waker}
    {res : Poll (Option (Except IoError Unit))} {eff : Effects}
    (h : self.pollResp sock cx = .ok (res, self', eff)) {key : ℕ} {mpxs : FCGIRequest}
    (hq : self.runningRequests.get? key = some mpxs)
    (ha : ¬ self.Answers sock cx key mpxs.aborted) :
    self'.runningRequests.get? key = some mpxs ∨
      (mpxs.aborted ∧ self'.runningRequests.get? key = some { mpxs with waker := none }) := by
  obtain ⟨acc, rfl, hcases⟩ := pollResp_requests h
  have hkeep := foldl_distribute_unconcerned (self.records sock cx)
    (self.runningRequests, .none) hq fun rec hmem hc => ha (Or.inr ⟨rec, hmem, hc⟩)
  rcases hcases with ⟨-, hreq, -⟩ | ⟨hcl, hreq, -⟩
  · exact Or.inl (hreq ▸ hkeep)
  · have hab : mpxs.aborted = true := by
      by_contra hab
      exact ha (Or.inl ⟨Bool.eq_false_iff.mpr hab, hcl⟩)
    refine Or.inr ⟨hab, ?_⟩
    rw [hreq, get?_notifyEveryone, hkeep, Option.map_some, notify, if_pos hab]

/-- The STDOUT of the request at `key` that a call of `poll_resp` reads. -/
def stdOutRead (self : InnerConnection) (sock : SocketRead) (cx : Waker) (key : ℕ) : Bytes :=
  ((self.records sock cx).map (stdOutOf key)).flatten

/-- A call of `poll_resp` ends the request at `key`, unless it was aborted. -/
def Ends (self : InnerConnection) (sock : SocketRead) (cx : Waker) (key : ℕ) : Prop :=
  (∃ rec ∈ self.records sock cx, EndOf key rec) ∨ self.Closes sock cx

instance (self : InnerConnection) (sock : SocketRead) (cx : Waker) (key : ℕ) :
    Decidable (self.Ends sock cx key) :=
  inferInstanceAs (Decidable (_ ∨ _))

/-- The request at `key` is running and not aborted; `unread` is in its buffer. -/
def Running (self : InnerConnection) (key : ℕ) (unread : Bytes) (ended : Bool) : Prop :=
  ∃ mpxs, self.runningRequests.get? key = some mpxs ∧ mpxs.aborted = false ∧
    mpxs.buf.flatten = unread ∧ mpxs.ended = ended

/-- A call of `poll_resp` adds what it reads to the buffer of a running request, and may
end it. -/
theorem pollResp_running {self self' : InnerConnection} {sock : SocketRead} {cx : Waker}
    {res : Poll (Option (Except IoError Unit))} {eff : Effects}
    (h : self.pollResp sock cx = .ok (res, self', eff)) {key : ℕ} {unread : Bytes} {ended : Bool}
    (hrun : self.Running key unread ended) :
    self'.Running key (unread ++ self.stdOutRead sock cx key)
      (ended || decide (self.Ends sock cx key)) := by
  obtain ⟨mpxs, hq, hlive, rfl, rfl⟩ := hrun
  obtain ⟨acc, rfl, hcases⟩ := pollResp_requests h
  obtain ⟨m, hm, hml, -, hmb, hme⟩ := foldl_distribute_live (self.records sock cx)
    (self.runningRequests, .none) mpxs hq hlive
  rcases hcases with ⟨hncl, hreq, -⟩ | ⟨hcl, hreq, -⟩
  · refine ⟨m, hreq ▸ hm, hml, hmb, ?_⟩
    rw [Bool.eq_iff_iff, hme]
    simp [Ends, hncl]
  · refine ⟨notify m, by rw [hreq, get?_notifyEveryone, hm]; rfl, ?_⟩
    simp [notify, hml, hmb, hcl, Ends, stdOutRead]

/-- `poll_resp` returns exactly if the parser does. -/
theorem pollResp_returns_iff (self : InnerConnection) (sock : SocketRead) (cx : Waker) :
    (∃ res self' eff, self.pollResp sock cx = .ok (res, self', eff)) ↔ ¬ self.Panics sock cx := by
  constructor
  · rintro ⟨res, self', eff, h⟩ ⟨rbuf, e, hslice, hne, hd⟩
    have hno : ∀ x, parseAndDistribute rbuf self.runningRequests self.fcgiParser ≠ .ok x := by
      intro x hx
      rw [parseAndDistribute_eq, hd] at hx
      cases hx
    cases pollResp_polled h with
    | pending hfill => simp [slice, hfill] at hslice
    | failed hfill => simp [slice, hfill] at hslice
    | ended hfill =>
      simp only [slice, hfill, Poll.ready.injEq, Except.ok.injEq] at hslice
      exact hne hslice.symm
    | stalled hfill hne' hstall hparse =>
      simp only [slice, hfill, Poll.ready.injEq, Except.ok.injEq] at hslice
      exact hno _ (hslice ▸ hparse)
    | read hfill hne' hstall hparse =>
      simp only [slice, hfill, Poll.ready.injEq, Except.ok.injEq] at hslice
      exact hno _ (hslice ▸ hparse)
  · intro hp
    refine pollResp_returns fun rbuf hslice hne => ?_
    rw [parseAndDistribute_eq]
    cases hd : RecordReader.incremental.drain self.fcgiParser rbuf with
    | error e => exact absurd ⟨rbuf, e, hslice, hne, hd⟩ hp
    | ok x => exact ⟨_, rfl⟩

end InnerConnection

namespace FCGIBody

/-- After a call that returned `Pending`, the waker `cx` is where a later event uses it: in the
queue of the mutex, or in the entry of the request after the socket was found pending. -/
def Registered (self : FCGIBody) (con : Mutex InnerConnection) (sock : SocketRead) (cx : Waker)
    (con' : Mutex InnerConnection) : Prop :=
  (∃ q, con'.waiters = some q ∧ cx ∈ q) ∨
    (con.waiters = none ∧ con.inner.slice sock cx = .pending ∧
      con'.inner.io.registered = some cx ∧
      ∃ slab, con'.inner.runningRequests.get? self.rid = some slab ∧ slab.waker = some cx)

/-- The states in which a call does not lose its waker: the task has a place in the queue of
the locked mutex already; or the mutex is free and the socket is pending, or what is read
panics, or the request has something to return or is given something to return. -/
def Covered (self : FCGIBody) (con : Mutex InnerConnection) (sock : SocketRead) (cx : Waker) :
    Prop :=
  self.done = true ∨ (∃ q, con.waiters = some q ∧ cx ∈ q) ∨
    (con.waiters = none ∧ (con.inner.slice sock cx = .pending ∨ con.inner.Panics sock cx ∨
      ∀ slab, con.inner.runningRequests.get? self.rid = some slab →
        ¬ slab.Waits ∨ con.inner.Answers sock cx self.rid slab.aborted))

theorem pollFrame_contended {self : FCGIBody} {con : Mutex InnerConnection} {q : List Waker}
    (hd : self.done = false) (hq : con.waiters = some q) (sock : SocketRead) (cx : Waker) :
    self.pollFrame con sock cx = .ok (.pending, self, con, .none) := by
  have hcon : { con with waiters := some q } = con := by rw [← hq]
  rw [pollFrame, hd, if_neg (by decide)]
  simp only [Mutex.pollLock, hq, Mutex.dropLock, Option.map_some, List.dropLast_concat, hcon]

theorem pollFrame_served {self self' : FCGIBody} {con : Mutex InnerConnection}
    {sock : SocketRead} {cx : Waker} {r : Poll (Option (Except IoError Unit))}
    {inner inner' : InnerConnection} {eff eff' : Effects} {res : FramePoll}
    (hd : self.done = false) (hfree : con.waiters = none)
    (hresp : con.inner.pollResp sock cx = .ok (r, inner, eff))
    (hserve : self.serve inner cx = .ok (res, self', inner', eff')) :
    self.pollFrame con sock cx =
      .ok (res, self', { inner := inner', waiters := none }, eff ++ eff') := by
  rw [pollFrame, hd, if_neg (by decide)]
  simp only [Mutex.pollLock, hfree, hresp, ok_bind, hserve, Mutex.unlock, effects_append_none]

theorem serve_waits {self : FCGIBody} {inner : InnerConnection} {slab : FCGIRequest}
    (hq : inner.runningRequests.get? self.rid = some slab) (hw : slab.Waits) (cx : Waker) :
    self.serve inner cx = .ok (.pending, self,
      { inner with
        runningRequests := inner.runningRequests.set self.rid { slab with waker := some cx } },
      .none) := by
  obtain ⟨hbuf, hend⟩ := hw
  simp [serve, hq, hbuf, hend]

theorem registered_of_covered {self self' : FCGIBody} {con con' : Mutex InnerConnection}
    {sock : SocketRead} {cx : Waker} {eff : Effects} (hcov : self.Covered con sock cx)
    (h : self.pollFrame con sock cx = .ok (.pending, self', con', eff)) :
    self.Registered con sock cx con' := by
  cases pollFrame_framed h with
  | contended hd hq =>
    rcases hcov with hd' | hqueue | ⟨hfree, -⟩
    · rw [hd] at hd'
      cases hd'
    · exact Or.inl hqueue
    · rw [hq] at hfree
      cases hfree
  | @served r inner eff₁ _ _ inner' _ hd hfree hresp hserved =>
    cases hserved with
    | @waits slab hq hbuf hend =>
      rcases hcov with hd' | ⟨q, hq', -⟩ | ⟨-, hpend | hpanic | hans⟩
      · rw [hd] at hd'
        cases hd'
      · rw [hfree] at hq'
        cases hq'
      · refine Or.inr ⟨hfree, hpend, ?_, { slab with waker := some cx }, ?_, rfl⟩
        · cases InnerConnection.pollResp_polled hresp with
          | pending hfill =>
            rw [(BufReader.pollFillBuf_pending hfill).2.2]
          | failed hfill => simp [InnerConnection.slice, hfill] at hpend
          | ended hfill => simp [InnerConnection.slice, hfill] at hpend
          | stalled hfill => simp [InnerConnection.slice, hfill] at hpend
          | read hfill => simp [InnerConnection.slice, hfill] at hpend
        · simp [Slab.get?_set hq]
      · exact absurd hpanic ((InnerConnection.pollResp_returns_iff _ _ _).mp ⟨_, _, _, hresp⟩)
      · -- the entry had something to return, before the call or by it
        have hnot : ∀ mpxs, inner.runningRequests.get? self.rid = some mpxs → ¬ mpxs.Waits := by
          cases hq₀ : con.inner.runningRequests.get? self.rid with
          | none =>
            refine InnerConnection.pollResp_entry (fun _ _ hk => hk.not_waits) hresp ?_
            rw [hq₀]
            intro mpxs hm
            cases hm
          | some slab₀ =>
            rcases hans slab₀ hq₀ with hnw | hans
            · refine InnerConnection.pollResp_entry (fun _ _ hk => hk.not_waits) hresp ?_
              rw [hq₀]
              intro mpxs hm
              cases hm
              exact hnw
            · have hanswered := (InnerConnection.pollResp_answers hresp hq₀ hans).1
              exact fun mpxs hm => (hanswered mpxs hm).1
        exact absurd ⟨hbuf, hend⟩ (hnot slab hq)

/-- **When a pending body is woken.** In every state of the connection and of the mutex, with
anything on the socket: a `poll_frame` that returns `Pending` has its waker registered exactly
if that state is `Covered`. -/
theorem pending_registered_iff (self : FCGIBody) (con : Mutex InnerConnection) (sock : SocketRead)
    (cx : Waker) :
    (∀ self' con' eff, self.pollFrame con sock cx = .ok (.pending, self', con', eff) →
      self.Registered con sock cx con') ↔ self.Covered con sock cx := by
  constructor
  · intro h
    cases hd : self.done with
    | true => exact Or.inl hd
    | false =>
      refine Or.inr ?_
      cases hw : con.waiters with
      | some q =>
        rcases h _ _ _ (pollFrame_contended hd hw sock cx) with ⟨q', hq', hmem⟩ | ⟨hfree, -⟩
        · rw [hw] at hq'
          exact Or.inl ⟨q', hq', hmem⟩
        · rw [hw] at hfree
          cases hfree
      | none =>
        refine Or.inr ⟨rfl, ?_⟩
        by_cases hpanic : con.inner.Panics sock cx
        · exact Or.inr (Or.inl hpanic)
        · obtain ⟨r, inner, eff, hresp⟩ :=
            (InnerConnection.pollResp_returns_iff con.inner sock cx).mpr hpanic
          by_contra hno
          simp only [not_or, not_forall] at hno
          obtain ⟨hnp, -, slab, hq, hwaits, hunans⟩ := hno
          rw [not_not] at hwaits
          obtain ⟨slab', hq', hwaits'⟩ :
              ∃ slab', inner.runningRequests.get? self.rid = some slab' ∧ slab'.Waits := by
            rcases InnerConnection.pollResp_unanswered hresp hq hunans with hkeep | ⟨-, hkeep⟩
            · exact ⟨slab, hkeep, hwaits⟩
            · exact ⟨_, hkeep, hwaits⟩
          have hframe := pollFrame_served hd hw hresp (serve_waits hq' hwaits' cx)
          rcases h _ _ _ hframe with ⟨q, hq, -⟩ | ⟨-, hp, -⟩
          · cases hq
          · exact hnp hp
  · intro hcov self' con' eff hpoll
    exact registered_of_covered hcov hpoll

/-- A complaint of request 1. -/
def complaint : WireRecord := { InnerConnection.greeting with rtype := .stdErr }

/-- The free connection of a new request. -/
def freshCon : Mutex InnerConnection := ⟨.fresh InnerConnection.oneRequest, none⟩

/-- Only STDERR is read: `Pending`, with the waker in the entry, and the socket not asked again,
so that the arrival of more bytes wakes nobody. -/
theorem pending_unregistered_stderr :
    ¬ ∀ self' con' eff,
      pollFrame ⟨0, false, true⟩ freshCon (.ready complaint.encode) 7 =
          .ok (.pending, self', con', eff) →
        Registered ⟨0, false, true⟩ freshCon (.ready complaint.encode) 7 con' := by
  intro h
  have hrun : pollFrame ⟨0, false, true⟩ freshCon (.ready complaint.encode) 7 =
      .ok (.pending, ⟨0, false, true⟩,
        ⟨⟨⟨[], none⟩, ⟨[some { FCGIRequest.new 0 with waker := some 7 }]⟩, ⟨none⟩⟩, none⟩,
        .none) := by
    decide +kernel
  rcases h _ _ _ hrun with ⟨q, hq, -⟩ | ⟨-, hslice, -⟩
  · cases hq
  · exact absurd hslice (by decide)

end FCGIBody

end AsyncFcgi
