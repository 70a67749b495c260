import AsyncFcgi.Client.CleanEnd

/-!
# Reading what is left (`src/client/connection.rs`)

A request that ended has a reader who fetches what is still in its buffer. Every poll with the
lock takes a buffer or is the last one, so the slot comes back after a known number of polls.

* `Stepped.entry_other`: what every record and `notify_everyone` keep, a step of another call
  keeps.
* `Draining.step`: a request that ended stays ended, and a poll of its reader gets further.
* `drained_run`: after one poll more than there were buffers, the slot is free.
-/

namespace AsyncFcgi

open Lib

namespace InnerConnection

/-- The table has an entry with `Q` at `k`. -/
def HasEntry (Q : FCGIRequest → Prop) (requests : Slab FCGIRequest) (k : ℕ) : Prop :=
  ∃ m, requests.get? k = some m ∧ Q m

variable {Q : FCGIRequest → Prop} {requests requests' : Slab FCGIRequest} {k key : ℕ}

theorem HasEntry.of_get? (h : HasEntry Q requests k) (hq : requests'.get? k = requests.get? k) :
    HasEntry Q requests' k := by
  obtain ⟨m, hm, hQ⟩ := h
  exact ⟨m, hq.trans hm, hQ⟩

theorem HasEntry.set_ne (h : HasEntry Q requests k) {m m' : FCGIRequest}
    (hq : requests.get? key = some m) (hne : k ≠ key) : HasEntry Q (requests.set key m') k :=
  h.of_get? (by rw [Slab.get?_set hq, if_neg hne])

theorem HasEntry.insertAt (h : HasEntry Q requests k) (hcan : requests.CanInsert key)
    (m : FCGIRequest) : HasEntry Q (requests.insertAt key m) k := by
  refine h.of_get? ?_
  rw [Slab.get?_insertAt hcan, if_neg]
  rintro rfl
  obtain ⟨m₀, hm₀, -⟩ := h
  rw [Slab.get?_of_canInsert hcan] at hm₀
  cases hm₀

/-- A record with the key `k` leaves an entry with `Q` in the table, with `Q`. -/
def KeptBy (Q : FCGIRequest → Prop) (k : ℕ) (rec : Record) : Prop :=
  reqNo rec.getRequestId = some k → ∀ m, Q m → ∃ m', (m.receive rec.body).1 = some m' ∧ Q m'

theorem HasEntry.distributeTo (h : HasEntry Q requests k) {rec : Record}
    (hrec : KeptBy Q k rec) : HasEntry Q (distributeTo requests rec).1 k := by
  obtain ⟨m, hm, hQ⟩ := h
  have hget := get?_distributeTo requests rec k
  by_cases hid : reqNo rec.getRequestId = some k
  · rw [if_pos hid, hm, Option.bind_some] at hget
    obtain ⟨m', hm', hQ'⟩ := hrec hid m hQ
    exact ⟨m', hget.trans hm', hQ'⟩
  · rw [if_neg hid] at hget
    exact ⟨m, hget.trans hm, hQ⟩

theorem HasEntry.foldl_distribute (recs : List Record) : ∀ acc : Slab FCGIRequest × Effects,
    HasEntry Q acc.1 k → (∀ rec ∈ recs, KeptBy Q k rec) →
    HasEntry Q (recs.foldl distribute acc).1 k := by
  induction recs with
  | nil => intro acc h _; exact h
  | cons rec recs ih =>
    intro acc h hrec
    exact ih (distribute acc rec) (h.distributeTo (hrec rec List.mem_cons_self))
      fun r hr => hrec r (List.mem_cons_of_mem _ hr)

theorem HasEntry.notifyEveryone (h : HasEntry Q requests k)
    (hnotify : ∀ m, Q m → Q (notify m)) : HasEntry Q (notifyEveryone requests).1 k := by
  obtain ⟨m, hm, hQ⟩ := h
  exact ⟨notify m, by rw [get?_notifyEveryone, hm]; rfl, hnotify m hQ⟩

theorem HasEntry.pollResp {self self' : InnerConnection} {sock : SocketRead} {cx : Waker}
    {res : Poll (Option (Except IoError Unit))} {eff : Effects}
    (h : HasEntry Q self.runningRequests k)
    (hresp : self.pollResp sock cx = .ok (res, self', eff))
    (hrec : ∀ rec ∈ self.records sock cx, KeptBy Q k rec) (hnotify : ∀ m, Q m → Q (notify m)) :
    HasEntry Q self'.runningRequests k := by
  have hfold := HasEntry.foldl_distribute _ (self.runningRequests, Effects.none) h hrec
  obtain ⟨acc, rfl, ⟨-, hreq, -⟩ | ⟨-, hreq, -⟩⟩ := pollResp_requests hresp
  · rw [hreq]
    exact hfold
  · rw [hreq]
    exact hfold.notifyEveryone hnotify

/-- The request ended, is not aborted, and the number of its buffers has `B`. -/
def Remains (B : ℕ → Prop) (m : FCGIRequest) : Prop :=
  m.aborted = false ∧ m.ended = true ∧ B m.buf.bufs.length

theorem remains_notify {B : ℕ → Prop} {m : FCGIRequest} (h : Remains B m) :
    Remains B (notify m) := by
  obtain ⟨ha, -, hB⟩ := h
  rw [notify, if_neg (by simp [ha])]
  exact ⟨ha, rfl, hB⟩

/-- A record without STDOUT for the request. -/
theorem remains_kept {B : ℕ → Prop} {rec : Record} (h : stdOutOf k rec = []) :
    KeptBy (Remains B) k rec := by
  rintro hid m ⟨ha, he, hB⟩
  rw [stdOutOf, if_pos hid] at h
  cases hb : rec.body with
  | endRequest b =>
    refine ⟨{ m with ended := true, waker := none }, ?_, ha, rfl, hB⟩
    rw [FCGIRequest.receive, if_neg (by simp [ha])]
  | stdOut s =>
    rw [hb] at h
    simp only at h
    subst h
    exact ⟨m, by simp [FCGIRequest.receive, ha], ha, he, hB⟩
  | _ => exact ⟨m, rfl, ha, he, hB⟩

/-- Any record, where the number of buffers does not matter. -/
theorem remains_kept_any {rec : Record} : KeptBy (Remains fun _ => True) k rec := by
  rintro hid m ⟨ha, he, -⟩
  cases hb : rec.body with
  | endRequest b =>
    refine ⟨{ m with ended := true, waker := none }, ?_, ha, rfl, trivial⟩
    rw [FCGIRequest.receive, if_neg (by simp [ha])]
  | stdOut s =>
    simp only [FCGIRequest.receive, ha, Bool.false_eq_true, if_false]
    split_ifs
    · exact ⟨_, rfl, rfl, he, trivial⟩
    · exact ⟨_, rfl, ha, he, trivial⟩
  | _ => exact ⟨m, rfl, ha, he, trivial⟩

/-- The reader of a request that ended gets a buffer, or the end. -/
theorem Remains.served {B B' : ℕ → Prop} (hB : ∀ n, B (n + 1) → B' n) {body body' : FCGIBody}
    {inner inner' : InnerConnection} {cx : Waker} {res : FramePoll} {eff : Effects}
    (h : HasEntry (Remains B) inner.runningRequests body.rid) (hret : body.wasReturned = true)
    (hserved : FCGIBody.Served body inner cx res body' inner' eff) :
    res ≠ .pending ∧ body'.rid = body.rid ∧ body'.wasReturned = true ∧
      (body'.done = true ∨ HasEntry (Remains B') inner'.runningRequests body.rid) := by
  obtain ⟨m, hm, ha, he, hb⟩ := h
  cases hserved with
  | vanished hq =>
    rw [hm] at hq
    cases hq
  | @frame slab front rest hq hbuf =>
    cases hm.symm.trans hq
    refine ⟨nofun, rfl, hret, Or.inr ⟨{ m with buf := ⟨rest⟩ }, ?_, ha, he, hB _ ?_⟩⟩
    · show (inner.runningRequests.set body.rid _).get? body.rid = _
      rw [Slab.get?_set hq, if_pos rfl]
    · rwa [hbuf] at hb
  | last => exact ⟨nofun, rfl, hret, Or.inl rfl⟩
  | finished => exact ⟨nofun, rfl, hret, Or.inl rfl⟩
  | early _ _ _ hno =>
    rw [hret] at hno
    cases hno
  | waits hq _ hend =>
    cases hm.symm.trans hq
    rw [he] at hend
    cases hend

end InnerConnection

namespace Connection

open InnerConnection (HasEntry KeptBy Remains)

variable {http : Http} {maxReqPerCon : UInt16} {max : ℕ} {self self' : Connection} {ev : Event}
  {eff : Effects} {j k : ℕ} {evs : List Event}

/-- **A step of another call** keeps what every record it reads and `notify_everyone` keep. -/
theorem Slots.entry_other (h : Slots max self) (hs : Stepped self ev self' eff)
    {Q : FCGIRequest → Prop}
    (howner : ∀ i call, ev.call? = some i → self.calls[i]? = some call → call.key? ≠ some k)
    (hrec : ∀ recs, self'.log = self.log ++ recs → ∀ rec ∈ recs, KeptBy Q k rec)
    (hnotify : ∀ m, Q m → Q (InnerConnection.notify m))
    (hq : HasEntry Q self.inner.inner.runningRequests k) :
    HasEntry Q self'.inner.inner.runningRequests k := by
  cases hs with
  | acquired => exact hq
  | moved _ _ _ _ hinner => exact hq.of_get? (by rw [move, hinner])
  | gaveUp _ _ _ _ hinner => exact hq.of_get? (by rw [move, hinner])
  | refused _ hresp => exact hq.pollResp hresp (hrec _ rfl) hnotify
  | dead _ hresp => exact hq.pollResp hresp (hrec _ rfl) hnotify
  | alive _ hresp _ hcan => exact (hq.pollResp hresp (hrec _ rfl) hnotify).insertAt hcan _
  | notified => exact hq.notifyEveryone hnotify
  | reconnected _ hcan => exact hq.insertAt hcan _
  | @framed _ i sock cx call call' body body' r inner₁ eff₁ res inner₂ eff₂ hev hcall hpolls hd
      hfree hresp hserved =>
    refine (hq.pollResp hresp (hrec _ rfl) hnotify).of_get? (hserved.other ?_)
    rintro rfl
    exact howner i call hev hcall (hpolls.key_rid hd)
  | @putBack _ _ _ rid upload body bodydata rheaders _ _ hcall hfree hq₀ =>
    refine hq.set_ne hq₀ ?_
    rintro rfl
    exact howner _ _ rfl hcall (h.putting_key hcall)
  | dropped hcall _ _ hkey _ hq₀ =>
    refine hq.set_ne hq₀ ?_
    rintro rfl
    exact howner _ _ rfl hcall hkey

/-! ## Polls of the reader -/

/-- The event is a poll of the body of the call at `j`, which finds the lock free. -/
def Polls (self : Connection) (ev : Event) (j : ℕ) : Prop :=
  self.inner.waiters = none ∧ ∃ sock cx, ev = .read j sock cx

/-- The caller at `j` has its response, or dropped it, and as long as its body is not done its
request at `k` ended, with a number of buffers that has `B`. -/
def Draining (con : Connection) (j k : ℕ) (B : ℕ → Prop) : Prop :=
  con.calls[j]? = some .left ∨ ∃ body, con.calls[j]? = some (.returned body) ∧ body.rid = k ∧
    body.wasReturned = true ∧
    (body.done = true ∨ HasEntry (Remains B) con.inner.inner.runningRequests k)

/-- What a step does for the reader at `j`. -/
theorem Draining.step {B B' : ℕ → Prop} (h : Slots max self) (hd : self.Draining j k B)
    (hnext : self.next http ev = .ok (some (self', eff)))
    (hrec : ∀ recs, self'.log = self.log ++ recs → ∀ rec ∈ recs, KeptBy (Remains B) k rec)
    (hkeep : ¬ self.Polls ev j → ∀ n, B n → B' n) (hpoll : ∀ n, B (n + 1) → B' n) :
    self'.Draining j k B' := by
  have hstep := next_stepped hnext
  rcases hd with hleft | ⟨body, hcall, hrid, hret, hbody⟩
  · refine Or.inl (calls_other hstep (fun hev => ?_) hleft)
    rw [next_left hleft hev] at hnext
    cases hnext
  by_cases hev : ev.call? = some j
  · cases next_branch hnext with
    | @read i sock cx body₀ _ _ hcall₀ hread =>
      obtain rfl : j = i := (Option.some.inj hev).symm
      cases hcall.symm.trans hcall₀
      obtain ⟨res, body', inner, hframe, rfl⟩ := nextRead_ok hread
      have hset : ((self.hearBody body j sock cx).move j (.returned body') inner eff).calls[j]? =
          some (.returned body') := by
        simp only [move, hearBody_calls]
        exact List.getElem?_set_self (List.getElem?_eq_some_iff.mp hcall).1
      cases FCGIBody.pollFrame_framed hframe with
      | done hdone => exact Or.inr ⟨body, hset, hrid, hret, Or.inl hdone⟩
      | contended hlive hq =>
        have hno : ¬ self.Polls (.read j sock cx) j := fun hp =>
          (by cases hq.symm.trans hp.1)
        refine Or.inr ⟨body, hset, hrid, hret, hbody.imp_right fun hentry => ?_⟩
        obtain ⟨m, hm, ha, he, hB⟩ := hentry
        exact ⟨m, hm, ha, he, hkeep hno _ hB⟩
      | @served r inner₁ eff₁ _ _ inner₂ eff₂ hlive hfree hresp hserved =>
        have hentry := hbody.resolve_left (by simp [hlive])
        subst hrid
        have hlog : (self.hearBody body j sock cx).log =
            self.log ++ self.inner.inner.records sock cx := by
          rw [hearBody, if_pos ⟨hlive, hfree⟩]
          rfl
        obtain ⟨-, hrid', hret', hcases⟩ := Remains.served hpoll
          (hentry.pollResp hresp (hrec _ hlog) fun _ => InnerConnection.remains_notify) hret hserved
        exact Or.inr ⟨body', hset, hrid', hret', hcases⟩
    | drop hcall₀ =>
      obtain rfl := Option.some.inj hev
      exact Or.inl (List.getElem?_set_self (List.getElem?_eq_some_iff.mp hcall₀).1)
    | dropUnpolled hcall₀ =>
      obtain rfl := Option.some.inj hev
      cases hcall.symm.trans hcall₀
    | cancelLocked hcall₀ hholds =>
      obtain rfl := Option.some.inj hev
      cases hcall.symm.trans hcall₀
      cases hholds
    | acquire => cases hev
    | lock hcall₀ | check hcall₀ | shutdown hcall₀ | reconnect hcall₀ | unreachable hcall₀
    | head hcall₀ | uploadLock hcall₀ | upload hcall₀ | respond hcall₀ | finish hcall₀
    | cancelWaiting hcall₀ | cancelSending hcall₀ | cancelUpload hcall₀ | cancelExchange hcall₀ =>
      obtain rfl := Option.some.inj hev
      cases hcall.symm.trans hcall₀
  · refine Or.inr ⟨body, calls_other hstep hev hcall, hrid, hret, ?_⟩
    cases hdone : body.done with
    | true => exact Or.inl rfl
    | false =>
      have hentry := hbody.resolve_left (by simp [hdone])
      have hkey : Forward.key? (.returned body) = some k := by
        rw [← hrid]
        exact Forward.key?_of_body? rfl hdone
      have hno : ¬ self.Polls ev j := by
        rintro ⟨-, sock, cx, rfl⟩
        exact hev rfl
      have howner : ∀ i call, ev.call? = some i → self.calls[i]? = some call →
          Forward.key? call ≠ some k := fun i c hev' hc hk =>
        hev (hev'.trans (congrArg some (h.eq_of_key? hcall hc hkey hk)))
      obtain ⟨m, hm, ha, he, hB⟩ := h.entry_other hstep howner hrec
        (fun _ => InnerConnection.remains_notify) hentry
      exact Or.inr ⟨m, hm, ha, he, hkeep hno _ hB⟩

/-! ## Bodies that callers have -/

/-- The bodies that callers have were handed over. -/
def HandedOver (con : Connection) : Prop :=
  ∀ (j : ℕ) body, con.calls[j]? = some (.returned body) → body.wasReturned = true

theorem pollFrame_wasReturned {body body' : FCGIBody} {con con' : Mutex InnerConnection}
    {sock : SocketRead} {cx : Waker} {res : FramePoll}
    (h : body.pollFrame con sock cx = .ok (res, body', con', eff)) :
    body'.wasReturned = body.wasReturned := by
  cases FCGIBody.pollFrame_framed h with
  | done => rfl
  | contended => rfl
  | served _ _ _ hserved => cases hserved <;> rfl

theorem HandedOver.step (h : Slots max self) (hh : HandedOver self)
    (hnext : self.next http ev = .ok (some (self', eff))) : HandedOver self' := by
  intro i body hcall'
  by_cases hev : ev.call? = some i
  · rcases next_turn hnext with ⟨rfl, -⟩ | ⟨i', call, call', hev', hcall, hcalls, hturn⟩
    · cases hev
    obtain rfl : i = i' := Option.some.inj (hev.symm.trans hev')
    have hlt := (List.getElem?_eq_some_iff.mp hcall).1
    rw [hcalls, List.getElem?_set_self hlt] at hcall'
    obtain rfl := Option.some.inj hcall'
    have hset : ∀ {body₀ : FCGIBody}, self.calls.set i (.returned body₀) =
        self.calls.set i (.returned body) → body₀ = body := by
      intro body₀ hcalls
      have hget := congrArg (·[i]?) hcalls
      simp only [List.getElem?_set_self hlt] at hget
      exact Forward.returned.inj (Option.some.inj hget)
    generalize hgoal : Forward.returned body = goal at hturn
    cases hturn with
    | @head _ _ res => cases res <;> cases hgoal
    | @upload _ _ _ res => cases res <;> cases hgoal
    | finish =>
      cases hgoal
      cases next_branch hnext with
      | @finish _ _ body₀ _ _ hcall₀ =>
        obtain rfl := Option.some.inj hev
        obtain rfl : body₀ = body := hset hcalls
        have hof := (h.open_ _ _ hcall₀).2
        exact congrArg FCGIBody.wasReturned hof
    | read =>
      cases hgoal
      cases next_branch hnext with
      | read hcall₀ hread =>
        obtain rfl := Option.some.inj hev
        obtain ⟨res, body₁, inner, hframe, rfl⟩ := nextRead_ok hread
        simp only [move, hearBody_calls] at hcalls
        obtain rfl : body₁ = body := hset hcalls
        exact (pollFrame_wasReturned hframe).trans (hh _ _ hcall₀)
    | _ => cases hgoal
  · exact hh i body ((calls_back (next_stepped hnext) hev hcall').resolve_right (fun h => by cases h))

theorem handedOver_run (hrun : Runs http maxReqPerCon evs self) : HandedOver self := by
  have hstart :
      Slots maxReqPerCon.toNat (connect maxReqPerCon) ∧ HandedOver (connect maxReqPerCon) :=
    ⟨slots_connect _, fun j body h => by simp [connect] at h⟩
  exact (hrun.inv (I := fun con => Slots maxReqPerCon.toNat con ∧ HandedOver con) hstart
    fun _ _ _ h hs => hs.elim fun eff hnext =>
      ⟨h.1.step maxReqPerCon.toNat_lt (next_stepped hnext), h.2.step h.1 hnext⟩).2

/-! ## Runs -/

/-- A step, with the events counted that are polls. -/
inductive PollStep (http : Http) (polls : Connection → Event → Prop) :
    Connection × ℕ → Event → Connection × ℕ → Prop
  | poll {con ev con' n} (hstep : Step http con ev con') (hpoll : polls con ev) :
      PollStep http polls (con, n) ev (con', n + 1)
  | other {con ev con' n} (hstep : Step http con ev con') (hno : ¬ polls con ev) :
      PollStep http polls (con, n) ev (con', n)

theorem PollStep.step {polls : Connection → Event → Prop} {con con' : Connection} {n n' : ℕ}
    (h : PollStep http polls (con, n) ev (con', n')) : Step http con ev con' := by
  cases h with
  | poll hstep => exact hstep
  | other hstep => exact hstep

/-- Nothing for the request in the log since, and so nothing in the records of a step. -/
theorem kept_of_quiet {B : ℕ → Prop} {n : ℕ} (hn : n ≤ self.log.length)
    (hquiet : self'.stdOutSince n k = []) :
    (∀ recs, self'.log = self.log ++ recs → self.stdOutSince n k = []) ∧
      ∀ recs, self'.log = self.log ++ recs → ∀ rec ∈ recs, KeptBy (Remains B) k rec := by
  constructor
  · intro recs hlog
    rw [stdOutSince_append hlog hn] at hquiet
    exact (List.append_eq_nil_iff.mp hquiet).1
  · intro recs hlog rec hrec
    rw [stdOutSince_append hlog hn] at hquiet
    have hnil := List.flatten_eq_nil_iff.mp (List.append_eq_nil_iff.mp hquiet).2
    exact InnerConnection.remains_kept (hnil _ (List.mem_map_of_mem hrec))

/-- The reader of a request that ended, with `most` buffers left of which `n` polls may have taken
one each. -/
structure Reading (max : ℕ) (start j k most : ℕ) (st : Connection × ℕ) : Prop where
  settled : Settled max st.1
  since : start ≤ st.1.log.length
  draining : st.1.stdOutSince start k = [] → st.1.Draining j k fun i => i + st.2 ≤ most

theorem Reading.step (hmax : max < 2 ^ 16) {start most : ℕ} {st st' : Connection × ℕ}
    (h : Reading max start j k most st) (hs : PollStep http (Polls · · j) st ev st') :
    Reading max start j k most st' := by
  obtain ⟨con, n⟩ := st
  obtain ⟨con', n'⟩ := st'
  obtain ⟨eff, hnext⟩ := id hs.step
  obtain ⟨⟨recs, hlog⟩, -⟩ := (next_stepped hnext).grows
  refine ⟨h.settled.step hmax hs.step, ?_, fun hquiet => ?_⟩
  · have hlen : start ≤ con.log.length := h.since
    simp only [hlog, List.length_append]
    omega
  · have hkeeps : (∀ recs, con'.log = con.log ++ recs → con.stdOutSince start k = []) ∧
        ∀ recs, con'.log = con.log ++ recs → ∀ rec ∈ recs,
          KeptBy (Remains fun i => i + n ≤ most) k rec := kept_of_quiet h.since hquiet
    obtain ⟨hbefore, hkept⟩ := hkeeps
    have hd := h.draining (hbefore recs hlog)
    cases hs with
    | poll _ hpoll =>
      exact hd.step h.settled.slots hnext hkept (fun hno => absurd hpoll hno)
        fun i (hi : i + 1 + n ≤ most) => (by omega : i + (n + 1) ≤ most)
    | other _ hno =>
      exact hd.step h.settled.slots hnext hkept (fun _ _ hi => hi)
        fun i (hi : i + 1 + n ≤ most) => (by omega : i + n ≤ most)

/-- A body that is done gave its slot back. -/
theorem Settled.freed_of_done (h : Settled max self) {body : FCGIBody}
    (hcall : self.calls[j]? = some (.returned body)) (hdone : body.done = true) : self.Freed j := by
  have hno : ¬ self.Has j := by
    rintro ⟨k', m, hq, hp⟩
    obtain ⟨call, hcall', hcases⟩ := h.placed.owner k' m hq
    rw [hp, hcall] at hcall'
    obtain rfl := Option.some.inj hcall'
    rcases hcases with hleft | hkey
    · cases hleft
    · rw [show Forward.key? (.returned body) = body.key? from rfl, FCGIBody.key?, if_pos hdone] at hkey
      cases hkey
  exact ⟨hno, (h.placed.spent j _ hcall rfl).resolve_left hno⟩

/-- **A response is read to its end.** In any reachable state, the request of a body that its
caller has is ended, by its END_REQUEST or because the connection was lost, and any steps of any
calls follow. When the caller polled the body with the lock free once more than there were buffers,
and no more STDOUT came for it, the body is done and its slot is free; unless it was dropped. -/
theorem drained_run {evs₀ : List Event} {s₀ s : Connection}
    (hruns : Runs http maxReqPerCon evs₀ s₀) {body : FCGIBody}
    (hcall : s₀.calls[j]? = some (.returned body)) (hlive : body.done = false) {m : FCGIRequest}
    (hq : s₀.inner.inner.runningRequests.get? body.rid = some m) (hended : m.ended = true) {n : ℕ}
    (hrun : Run (PollStep http (Polls · · j)) (s₀, 0) evs (s, n))
    (hquiet : s.stdOutSince s₀.log.length body.rid = []) (hn : m.buf.bufs.length < n) :
    s.calls[j]? = some .left ∨
      ∃ body', s.calls[j]? = some (.returned body') ∧ body'.done = true ∧ s.Freed j := by
  have hset := settled_run hruns
  obtain ⟨m', hm', -, halive⟩ := hset.slots.owns j _ body.rid hcall (Forward.key?_of_body? rfl hlive)
  cases hq.symm.trans hm'
  have hstart : Reading maxReqPerCon.toNat s₀.log.length j body.rid m.buf.bufs.length (s₀, 0) :=
    ⟨hset, le_rfl, fun _ => Or.inr ⟨body, hcall, rfl, handedOver_run hruns j body hcall,
      Or.inr ⟨m, hq, halive, hended, le_rfl⟩⟩⟩
  have hend := hrun.inv hstart fun _ _ _ h hs => h.step maxReqPerCon.toNat_lt hs
  rcases hend.draining hquiet with hleft | ⟨body', hcall', -, -, hdone | ⟨m', -, -, -, hle⟩⟩
  · exact Or.inl hleft
  · exact Or.inr ⟨body', hcall', hdone, hend.settled.freed_of_done hcall' hdone⟩
  · simp only at hle
    omega

/-- The response is there, ended and without a body: one poll is enough. -/
theorem drained_run_answer : ∃ evs₀ s₀ s, Runs (onlyBlock [65]) 2 evs₀ s₀ ∧
    s₀.calls[0]? = some (.returned ⟨0, false, true⟩) ∧
    Run (PollStep (onlyBlock [65]) (Polls · · 0)) (s₀, 0) [.read 0 .pending 7] (s, 1) ∧ s.Freed 0 := by
  have hcomp : ((replay (tick (onlyBlock [65])) (connect 2)
      (inserting ++ [.head 0 .noBody, .respond 0 (.ready answer) 7, .finish 0])).bind fun s₀ =>
      (tick (onlyBlock [65]) s₀ (.read 0 .pending 7)).map fun s =>
        decide ((s₀.calls = [.returned ⟨0, false, true⟩] ∧ s₀.inner.waiters = none ∧
            ((s₀.inner.inner.runningRequests.get? 0).map fun m =>
              (m.ended, m.buf.bufs.length)) = some (true, 0)) ∧
          s.stdOutSince s₀.log.length 0 = [] ∧ s.calls ≠ [.left])) = some true := by
    decide +kernel
  obtain ⟨s₀, h₀, hcomp⟩ := Option.bind_eq_some_iff.mp hcomp
  obtain ⟨s, h₁, hcomp⟩ := Option.map_eq_some_iff.mp hcomp
  obtain ⟨⟨hcalls, hfree, hentry⟩, hquiet, hleft⟩ := of_decide_eq_true hcomp
  obtain ⟨m, hq, hm⟩ := Option.map_eq_some_iff.mp hentry
  obtain ⟨hended, hbufs⟩ := Prod.mk.inj hm
  have hruns : Runs (onlyBlock [65]) 2 _ s₀ := run_of_replay step_of_tick _ h₀
  have hcall : s₀.calls[0]? = some (.returned ⟨0, false, true⟩) := by rw [hcalls]; rfl
  have hrun : Run (PollStep (onlyBlock [65]) (Polls · · 0)) (s₀, 0) [.read 0 .pending 7] (s, 1) :=
    .snoc .nil (.poll (step_of_tick _ _ _ h₁) ⟨hfree, _, _, rfl⟩)
  refine ⟨_, s₀, s, hruns, hcall, hrun, ?_⟩
  rcases drained_run hruns hcall rfl hq hended hrun hquiet (by omega) with hgone | ⟨_, -, -, hfreed⟩
  · obtain ⟨eff, hnext⟩ := step_of_tick _ _ _ h₁
    cases next_branch hnext with
    | read hcall₀ hread =>
      obtain ⟨res, body', inner, -, rfl⟩ := nextRead_ok hread
      simp [move, hcalls] at hgone
  · exact hfreed

end Connection

end AsyncFcgi
