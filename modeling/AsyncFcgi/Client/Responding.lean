import AsyncFcgi.Client.Drain

/-!
# Getting to a response (`src/client/connection.rs`)

Once a request ended, `create_response` does not wait for anything but the lock: a turn with the
lock takes a buffer and parses it, finds that there is none left, or puts back what is behind the
headers. So the call has its response after a known number of turns, whatever came and whatever
`httparse` says to it.

* `Remains.parsed`: what a turn finds in the table.
* `Responding.step`: a turn gets further, and no other step takes it back.
* `responded_run`: after one turn more than there were buffers, the response is there.
-/

namespace AsyncFcgi

open Lib

/-- The call has its response, or nobody waits for one any more. -/
def Forward.HasResponse : Forward → Bool
  | .exchanging _ _ resp =>
    match resp with
    | some (.returned _ _ _) => true
    | _ => false
  | .returned _ | .failed _ _ | .left => true
  | _ => false

namespace InnerConnection

/-- `create_response` gets a buffer of a request that ended, or finds none. -/
theorem Remains.parsed {B B' : ℕ → Prop} (hB : ∀ n, B (n + 1) → B' n) {body body' : FCGIBody}
    {inner inner' : InnerConnection} {cx : Waker} {res : FramePoll} {eff : Effects}
    (h : HasEntry (Remains B) inner.runningRequests body.rid) (hret : body.wasReturned = false)
    (hserved : FCGIBody.Served body inner cx res body' inner' eff) :
    body' = body ∧ (res = .ready none ∨
      ∃ b, res = .ready (some (.ok b)) ∧ HasEntry (Remains B') inner'.runningRequests body.rid) := by
  obtain ⟨m, hm, ha, he, hb⟩ := h
  cases hserved with
  | vanished hq =>
    rw [hm] at hq
    cases hq
  | @frame slab front rest hq hbuf =>
    cases hm.symm.trans hq
    refine ⟨rfl, Or.inr ⟨front, rfl, { m with buf := ⟨rest⟩ }, ?_, ha, he, hB _ ?_⟩⟩
    · show (inner.runningRequests.set body.rid _).get? body.rid = _
      rw [Slab.get?_set hq, if_pos rfl]
    · rwa [hbuf] at hb
  | last _ _ _ hyes =>
    rw [hret] at hyes
    cases hyes
  | finished _ _ _ hyes =>
    rw [hret] at hyes
    cases hyes
  | early => exact ⟨rfl, Or.inl rfl⟩
  | waits hq _ hend =>
    cases hm.symm.trans hq
    rw [he] at hend
    cases hend

theorem HasEntry.mono {Q Q' : FCGIRequest → Prop} {requests : Slab FCGIRequest} {k : ℕ}
    (h : HasEntry Q requests k) (hQ : ∀ m, Q m → Q' m) : HasEntry Q' requests k := by
  obtain ⟨m, hm, hq⟩ := h
  exact ⟨m, hm, hQ m hq⟩

theorem Remains.mono {B B' : ℕ → Prop} {m : FCGIRequest} (h : Remains B m)
    (hB : ∀ n, B n → B' n) : Remains B' m :=
  ⟨h.1, h.2.1, hB _ h.2.2⟩

end InnerConnection

namespace Connection

open InnerConnection (HasEntry KeptBy Remains)

variable {http : Http} {maxReqPerCon : UInt16} {max : ℕ} {self self' : Connection} {ev : Event}
  {eff : Effects} {j k : ℕ} {evs : List Event}

/-- The event is a turn of `create_response` of the call at `j`, which finds the lock free. -/
def Turns (self : Connection) (ev : Event) (j : ℕ) : Prop :=
  self.inner.waiters = none ∧ ∃ sock cx, ev = .respond j sock cx

/-- `create_response` of the call at `j` is done, or nobody waits for it any more. -/
def Responded (self : Connection) (j : ℕ) : Prop :=
  ∃ call, self.calls[j]? = some call ∧ call.HasResponse = true

/-- `create_response` of the call at `j`, whose request at `k` ended, needs a number of turns that
has `T`: one for each buffer, and one to find that there is none left, or to put back what is behind
the headers. -/
inductive Responding (con : Connection) (j k : ℕ) (T : ℕ → Prop) : Prop
  | done (h : con.Responded j)
  | putting {rid upload bodydata rheaders} (hcall : con.calls[j]? =
        some (.exchanging rid upload (some (.putting ⟨k, false, false⟩ bodydata rheaders))))
      (hentry : HasEntry (Remains fun _ => True) con.inner.inner.runningRequests k) (hT : T 1)
  | reading {rid upload resp} (hcall : con.calls[j]? = some (.exchanging rid upload resp))
      (hresp : resp = none ∨ ∃ buf rheaders, resp = some (.reading ⟨k, false, false⟩ buf rheaders))
      (hkey : rid.toNat - 1 = k)
      (hentry : HasEntry (Remains fun i => T (i + 1)) con.inner.inner.runningRequests k)

/-- A call with a response keeps it, or is dropped. -/
theorem Responded.step (h : self.Responded j)
    (hnext : self.next http ev = .ok (some (self', eff))) :
    self'.Responded j := by
  obtain ⟨call, hcall, hresp⟩ := h
  by_cases hev : ev.call? = some j
  · obtain ⟨hlt, -⟩ := List.getElem?_eq_some_iff.mp hcall
    rcases next_turn hnext with ⟨rfl, -⟩ | ⟨i, call₀, call', hev', hcall₀, hcalls, hturn⟩
    · cases hev
    obtain rfl : j = i := Option.some.inj (hev.symm.trans hev')
    cases hcall.symm.trans hcall₀
    have hget : self'.calls[j]? = some call' := by rw [hcalls, List.getElem?_set_self hlt]
    cases hturn with
    | respond =>
      -- nothing is left to do
      obtain rfl := Option.some.inj hev
      cases next_branch hnext with
      | respond hc hrespond =>
        cases hcall.symm.trans hc
        obtain ⟨resp₀, resp₁, inner, hresp₀, hpoll, rfl⟩ := nextRespond_ok hrespond
        obtain ⟨-, -, hsome⟩ := responseOf_cases hresp₀ .idle
        rcases hsome with rfl | ⟨rfl, -⟩
        · cases resp₀ with
          | returned body status rheaders =>
            cases hpoll
            exact ⟨_, List.getElem?_set_self hlt, rfl⟩
          | _ => cases hresp
        · cases hresp
    | @upload _ _ _ res =>
      cases res with
      | chunk => exact ⟨_, hget, hresp⟩
      | last => exact ⟨_, hget, hresp⟩
      | writeFailed => exact ⟨_, hget, rfl⟩
      | tooShort => exact ⟨_, hget, rfl⟩
    | uploadLock => exact ⟨_, hget, hresp⟩
    | finish => exact ⟨_, hget, rfl⟩
    | read => exact ⟨_, hget, rfl⟩
    | drop => exact ⟨_, hget, rfl⟩
    | gaveUp => exact ⟨_, hget, rfl⟩
    | cut => exact ⟨_, hget, rfl⟩
    | abandoned => exact ⟨_, hget, rfl⟩
    | _ => cases hresp
  · exact ⟨call, calls_other (next_stepped hnext) hev hcall, hresp⟩

/-- Any event but a turn of `create_response` leaves the call and its request as they are, or ends
the call. -/
theorem Slots.exchanging_passes (h : Slots max self) {rid : UInt16} {upload : Upload}
    {resp : Option CreateResponse} (hcall : self.calls[j]? = some (.exchanging rid upload resp))
    (hkey : (Forward.exchanging rid upload resp).key? = some k)
    (hlive : (Forward.exchanging rid upload resp).HasResponse = false) {B : ℕ → Prop}
    (hentry : HasEntry (Remains B) self.inner.inner.runningRequests k)
    (hnext : self.next http ev = .ok (some (self', eff)))
    (hquiet : ∀ recs, self'.log = self.log ++ recs → ∀ rec ∈ recs, KeptBy (Remains B) k rec)
    (hno : ∀ sock cx, ev ≠ .respond j sock cx) :
    self'.Responded j ∨ ∃ upload', self'.calls[j]? = some (.exchanging rid upload' resp) ∧
      HasEntry (Remains B) self'.inner.inner.runningRequests k := by
  have hstep := next_stepped hnext
  obtain ⟨hlt, -⟩ := List.getElem?_eq_some_iff.mp hcall
  by_cases hev : ev.call? = some j
  · cases next_branch hnext with
    | uploadLock hc =>
      obtain rfl := Option.some.inj hev
      cases hcall.symm.trans hc
      exact Or.inr ⟨_, List.getElem?_set_self hlt, hentry⟩
    | @upload _ rid' resp' res hc =>
      obtain rfl := Option.some.inj hev
      cases hcall.symm.trans hc
      cases res with
      | chunk => exact Or.inr ⟨_, List.getElem?_set_self hlt, hentry⟩
      | last => exact Or.inr ⟨_, List.getElem?_set_self hlt, hentry⟩
      | writeFailed => exact Or.inl ⟨_, List.getElem?_set_self hlt, rfl⟩
      | tooShort => exact Or.inl ⟨_, List.getElem?_set_self hlt, rfl⟩
    | respond =>
      obtain rfl := Option.some.inj hev
      exact absurd rfl (hno _ _)
    | finish hc =>
      obtain rfl := Option.some.inj hev
      cases hcall.symm.trans hc
      cases hlive
    | cancelUpload hc =>
      obtain rfl := Option.some.inj hev
      exact Or.inl ⟨_, List.getElem?_set_self hlt, rfl⟩
    | cancelExchange hc =>
      obtain rfl := Option.some.inj hev
      exact Or.inl ⟨_, List.getElem?_set_self hlt, rfl⟩
    | acquire => cases hev
    | cancelLocked hc hholds =>
      obtain rfl := Option.some.inj hev
      cases hcall.symm.trans hc
      cases hholds
    | drop hc hover =>
      obtain rfl := Option.some.inj hev
      cases hcall.symm.trans hc
      cases hover
    | lock hc | check hc | shutdown hc | reconnect hc | unreachable hc | head hc | read hc
    | dropUnpolled hc | cancelWaiting hc | cancelSending hc =>
      obtain rfl := Option.some.inj hev
      cases hcall.symm.trans hc
  · have howner : ∀ i call, ev.call? = some i → self.calls[i]? = some call →
        Forward.key? call ≠ some k := fun i c hev' hc hk =>
      hev (hev'.trans (congrArg some (h.eq_of_key? hcall hc hkey hk)))
    exact Or.inr ⟨upload, calls_other hstep hev hcall, h.entry_other hstep howner hquiet
      (fun _ => InnerConnection.remains_notify) hentry⟩

/-- What `receive` leads to: the next buffer, the push, or the response. -/
theorem receive_goesOn {body : FCGIBody} {left : Option Bytes} {rheaders : HeaderMap} {b : Bytes}
    {resp : CreateResponse} (h : CreateResponse.receive http body left rheaders b = .ok resp) :
    (∃ buf rheaders', resp = .reading body buf rheaders') ∨
      (∃ bodydata rheaders', resp = .putting body bodydata rheaders') ∨
      ∃ status rheaders', resp = CreateResponse.handOver body status rheaders' := by
  unfold CreateResponse.receive at h
  obtain ⟨⟨res, rheaders'⟩, -, h⟩ := bind_eq_ok.mp h
  cases res with
  | ok bodydata =>
    simp only at h
    split at h
    · cases h
      exact Or.inr (Or.inr ⟨_, _, rfl⟩)
    · cases h
      exact Or.inr (Or.inl ⟨_, _, rfl⟩)
  | pending =>
    cases h
    exact Or.inl ⟨_, _, rfl⟩
  | err =>
    cases h
    exact Or.inr (Or.inr ⟨_, _, rfl⟩)

/-- A turn of `create_response` in its loop. -/
theorem responding_reading {T T' : ℕ → Prop} {rid : UInt16} {upload : Upload}
    {resp : Option CreateResponse} {sock : SocketRead} {cx : Waker}
    (hcall : self.calls[j]? = some (.exchanging rid upload resp))
    (hresp : resp = none ∨ ∃ buf rheaders, resp = some (.reading ⟨k, false, false⟩ buf rheaders))
    (hkey : rid.toNat - 1 = k)
    (hentry : HasEntry (Remains fun i => T (i + 1)) self.inner.inner.runningRequests k)
    (hnext : self.nextRespond http j rid upload resp sock cx = .ok (some (self', eff)))
    (hquiet : ∀ recs, self'.log = self.log ++ recs →
      ∀ rec ∈ recs, KeptBy (Remains fun i => T (i + 1)) k rec)
    (hkeep : self.inner.waiters ≠ none → ∀ n, T n → T' n) (hturn : ∀ n, T (n + 1) → T' n)
    (hdown : ∀ n, T' (n + 1) → T' 1) : self'.Responding j k T' := by
  obtain ⟨hlt, -⟩ := List.getElem?_eq_some_iff.mp hcall
  obtain ⟨resp₀, resp', inner, hresp₀, hpoll, hmove⟩ := nextRespond_ok hnext
  obtain ⟨buf, rheaders, rfl⟩ : ∃ buf rheaders, resp₀ = .reading ⟨k, false, false⟩ buf rheaders := by
    rcases hresp with rfl | ⟨buf, rheaders, rfl⟩
    · obtain ⟨-, -, hsome⟩ := responseOf_cases hresp₀ upload
      rcases hsome with hsome | ⟨-, rfl⟩
      · cases hsome
      · exact ⟨_, _, by rw [← hkey]; rfl⟩
    · cases hresp₀
      exact ⟨_, _, rfl⟩
  simp only at hmove
  subst hmove
  have hset : ((self.hearBody ⟨k, false, false⟩ j sock cx).move j
      (.exchanging rid upload (some resp')) inner eff).calls[j]? =
        some (.exchanging rid upload (some resp')) := by
    simp only [move, hearBody_calls]
    exact List.getElem?_set_self hlt
  obtain ⟨res, body', hframe, hcases⟩ := CreateResponse.poll_reading hpoll
  cases FCGIBody.pollFrame_framed hframe with
  | done hdone => cases hdone
  | contended _ hq =>
    rcases hcases with ⟨-, rfl⟩ | ⟨hready, -⟩ | ⟨b, hready, -⟩
    · refine .reading hset (Or.inr ⟨_, _, rfl⟩) hkey (hentry.mono fun m hm => hm.mono fun i hi => ?_)
      exact hkeep (by rw [hq]; exact Option.some_ne_none _) _ hi
    · cases hready
    · cases hready
  | @served r inner₁ eff₁ _ _ inner₂ eff₂ _ hfree hsock hserved =>
    have hlog : (self.hearBody ⟨k, false, false⟩ j sock cx).log =
        self.log ++ self.inner.inner.records sock cx := by
      rw [hearBody, if_pos ⟨rfl, hfree⟩]
      rfl
    obtain ⟨rfl, hres⟩ := Remains.parsed (fun n => hturn (n + 1))
      (hentry.pollResp hsock (hquiet _ hlog) fun _ => InnerConnection.remains_notify) rfl hserved
    rcases hcases with ⟨rfl, -⟩ | ⟨-, rfl⟩ | ⟨b, rfl, hreceive⟩
    · rcases hres with hno | ⟨b, hno, -⟩ <;> cases hno
    · exact .done ⟨_, hset, rfl⟩
    · obtain ⟨_, -, hleft⟩ := hres.resolve_left (fun h => by cases h)
      rcases receive_goesOn hreceive with ⟨buf', rheaders', rfl⟩ | ⟨bodydata, rheaders', rfl⟩ |
          ⟨status, rheaders', rfl⟩
      · exact .reading hset (Or.inr ⟨_, _, rfl⟩) hkey hleft
      · obtain ⟨m, -, hm⟩ := id hleft
        exact .putting hset (hleft.mono fun _ h => h.mono fun _ _ => trivial) (hdown _ hm.2.2)
      · exact .done ⟨_, hset, rfl⟩

/-- What a step does for the call at `j`. -/
theorem Responding.step {T T' : ℕ → Prop} (h : Slots max self) (hr : self.Responding j k T)
    (hnext : self.next http ev = .ok (some (self', eff)))
    (hquiet : ∀ B : ℕ → Prop, ∀ recs, self'.log = self.log ++ recs →
      ∀ rec ∈ recs, KeptBy (Remains B) k rec)
    (hkeep : ¬ self.Turns ev j → ∀ n, T n → T' n) (hturn : ∀ n, T (n + 1) → T' n)
    (hdown : ∀ n, T' (n + 1) → T' 1) : self'.Responding j k T' := by
  cases hr with
  | done hdone => exact .done (hdone.step hnext)
  | @putting rid upload bodydata rheaders hcall hentry hT =>
    by_cases hev : ∃ sock cx, ev = .respond j sock cx
    · obtain ⟨sock, cx, rfl⟩ := hev
      cases next_branch hnext with
      | respond hc hrespond =>
        cases hcall.symm.trans hc
        obtain ⟨hlt, -⟩ := List.getElem?_eq_some_iff.mp hcall
        obtain ⟨resp₀, resp', inner, hresp₀, hpoll, rfl⟩ := nextRespond_ok hrespond
        cases hresp₀
        rw [CreateResponse.poll] at hpoll
        cases hw : self.inner.waiters with
        | some q =>
          rw [hw] at hpoll
          cases hpoll
          refine .putting (List.getElem?_set_self hlt) hentry (hkeep ?_ _ hT)
          rintro ⟨hfree, -⟩
          cases hw.symm.trans hfree
        | none =>
          rw [hw] at hpoll
          obtain ⟨inner', -, hpoll⟩ := bind_eq_ok.mp hpoll
          cases hpoll
          exact .done ⟨_, List.getElem?_set_self hlt, rfl⟩
    · have hno : ∀ sock cx, ev ≠ .respond j sock cx := fun sock cx he => hev ⟨sock, cx, he⟩
      rcases h.exchanging_passes hcall (h.putting_key hcall) rfl hentry hnext (hquiet _) hno with
        hdone | ⟨upload', hcall', hentry'⟩
      · exact .done hdone
      · exact .putting hcall' hentry' (hkeep (fun ht => hev ht.2) _ hT)
  | @reading rid upload resp hcall hresp hkey hentry =>
    by_cases hev : ∃ sock cx, ev = .respond j sock cx
    · obtain ⟨sock, cx, rfl⟩ := hev
      cases next_branch hnext with
      | respond hc hrespond =>
        cases hcall.symm.trans hc
        refine responding_reading hcall hresp hkey hentry hrespond (hquiet _) (fun hw => ?_) hturn
          hdown
        exact hkeep fun ht => hw ht.1
    · have hno : ∀ sock cx, ev ≠ .respond j sock cx := fun sock cx he => hev ⟨sock, cx, he⟩
      have hlive : (Forward.exchanging rid upload resp).HasResponse = false := by
        rcases hresp with rfl | ⟨_, _, rfl⟩ <;> rfl
      rcases h.exchanging_passes hcall (hkey ▸ ((h.open_ j _ hcall).key? rfl).2) hlive hentry hnext
        (hquiet _) hno with hdone | ⟨upload', hcall', hentry'⟩
      · exact .done hdone
      · refine .reading hcall' hresp hkey (hentry'.mono fun m hm => hm.mono fun i hi => ?_)
        exact hkeep (fun ht => hev ht.2) _ hi

/-! ## Runs -/

/-- A call whose request ended, with `n` turns taken of the `most` it needs. -/
structure Awaiting (max start j k most : ℕ) (st : Connection × ℕ) : Prop where
  settled : Settled max st.1
  since : start ≤ st.1.log.length
  responding : st.1.stdOutSince start k = [] → st.1.Responding j k fun i => i + st.2 ≤ most

theorem Awaiting.step (hmax : max < 2 ^ 16) {start most : ℕ} {st st' : Connection × ℕ}
    (h : Awaiting max start j k most st) (hs : PollStep http (Turns · · j) st ev st') :
    Awaiting max start j k most st' := by
  obtain ⟨con, n⟩ := st
  obtain ⟨con', n'⟩ := st'
  obtain ⟨eff, hnext⟩ := id hs.step
  obtain ⟨⟨recs, hlog⟩, -⟩ := (next_stepped hnext).grows
  refine ⟨h.settled.step hmax hs.step, ?_, fun hquiet => ?_⟩
  · have hlen : start ≤ con.log.length := h.since
    simp only [hlog, List.length_append]
    omega
  · have hkept : ∀ B : ℕ → Prop, ∀ recs, con'.log = con.log ++ recs →
        ∀ rec ∈ recs, KeptBy (Remains B) k rec := fun B => (kept_of_quiet h.since hquiet).2
    have hbefore : con.stdOutSince start k = [] :=
      (@kept_of_quiet con con' k (fun _ => True) start h.since hquiet).1 recs hlog
    have hr := h.responding hbefore
    cases hs with
    | poll _ hpoll =>
      exact hr.step h.settled.slots hnext hkept (fun hno => absurd hpoll hno)
        (fun i (hi : i + 1 + n ≤ most) => (by omega : i + (n + 1) ≤ most))
        fun i (hi : i + 1 + (n + 1) ≤ most) => (by omega : 1 + (n + 1) ≤ most)
    | other _ hno =>
      exact hr.step h.settled.slots hnext hkept (fun _ _ hi => hi)
        (fun i (hi : i + 1 + n ≤ most) => (by omega : i + n ≤ most))
        fun i (hi : i + 1 + n ≤ most) => (by omega : 1 + n ≤ most)

/-- **A response is there once its request ended.** In any reachable state, the request of a call
without its response is ended, by its END_REQUEST or because the connection was lost, and any steps
of any calls follow. When `create_response` had one turn more with the lock free than there were
buffers, and no more STDOUT came for it, the call has its response, whatever `httparse` says to what
came; unless it failed or was dropped. -/
theorem responded_run {evs₀ : List Event} {s₀ s : Connection}
    (hruns : Runs http maxReqPerCon evs₀ s₀) {rid : UInt16} {upload : Upload}
    {resp : Option CreateResponse}
    (hcall : s₀.calls[j]? = some (.exchanging rid upload resp)) {m : FCGIRequest}
    (hq : s₀.inner.inner.runningRequests.get? (rid.toNat - 1) = some m) (hended : m.ended = true)
    {n : ℕ} (hrun : Run (PollStep http (Turns · · j)) (s₀, 0) evs (s, n))
    (hquiet : s.stdOutSince s₀.log.length (rid.toNat - 1) = []) (hn : m.buf.bufs.length < n) :
    s.Responded j := by
  have hset := settled_run hruns
  have hopen := hset.slots.open_ j _ hcall
  obtain ⟨m', hm', -, halive⟩ := hset.slots.owns j _ (rid.toNat - 1) hcall (hopen.key? rfl).2
  cases hq.symm.trans hm'
  have hentry : HasEntry (Remains fun i => i + 1 + 0 ≤ m.buf.bufs.length + 1)
      s₀.inner.inner.runningRequests (rid.toNat - 1) := ⟨m, hq, halive, hended, le_rfl⟩
  have hstart : s₀.Responding j (rid.toNat - 1) fun i => i + 0 ≤ m.buf.bufs.length + 1 := by
    cases resp with
    | none => exact .reading hcall (Or.inl rfl) rfl hentry
    | some resp =>
      have hof : resp.Of (rid.toNat - 1) := hopen.2
      cases resp with
      | reading body buf rheaders =>
        obtain rfl : body = ⟨rid.toNat - 1, false, false⟩ := hof
        exact .reading hcall (Or.inr ⟨_, _, rfl⟩) rfl hentry
      | putting body bodydata rheaders =>
        obtain rfl : body = ⟨rid.toNat - 1, false, false⟩ := hof
        exact .putting hcall ⟨m, hq, halive, hended, trivial⟩ (by omega)
      | returned body status rheaders => exact .done ⟨_, hcall, rfl⟩
  have hawait : Awaiting maxReqPerCon.toNat s₀.log.length j (rid.toNat - 1) (m.buf.bufs.length + 1)
      (s₀, 0) := ⟨hset, le_rfl, fun _ => hstart⟩
  have hend := hrun.inv hawait fun _ _ _ h hs => h.step maxReqPerCon.toNat_lt hs
  rcases hend.responding hquiet with hdone | ⟨-, -, hT⟩ | ⟨-, -, -, hleft⟩
  · exact hdone
  · simp only at hT
    omega
  · obtain ⟨m', -, -, -, hle⟩ := hleft
    simp only at hle
    omega

/-- A call that was not polled yet; the answer came to another one. Its only buffer is a whole
header block. -/
theorem responded_run_answer : ∃ evs₀ s₀ s, Runs (onlyBlock [65]) 2 evs₀ s₀ ∧
    s₀.calls[0]? = some (.exchanging 1 .done none) ∧
    Run (PollStep (onlyBlock [65]) (Turns · · 0)) (s₀, 0)
      [.respond 0 .pending 7, .respond 0 .pending 7] (s, 2) ∧ s.Responded 0 := by
  have hcomp : ((replay (tick (onlyBlock [65])) (connect 2) (inserting ++
      [.head 0 .noBody, .acquire, .lock 1, .check 1 (.ready answer) 7 1, .head 1 .noBody])).bind
        fun s₀ => (tick (onlyBlock [65]) s₀ (.respond 0 .pending 7)).bind fun s₁ =>
      (tick (onlyBlock [65]) s₁ (.respond 0 .pending 7)).map fun s =>
        decide (s₀.calls[0]? = some (.exchanging 1 .done none) ∧ s₀.inner.waiters = none ∧
          s₁.inner.waiters = none ∧
          ((s₀.inner.inner.runningRequests.get? 0).map fun m =>
            (m.ended, m.buf.bufs.length)) = some (true, 1) ∧
          s.stdOutSince s₀.log.length 0 = [])) = some true := by
    decide +kernel
  obtain ⟨s₀, h₀, hcomp⟩ := Option.bind_eq_some_iff.mp hcomp
  obtain ⟨s₁, h₁, hcomp⟩ := Option.bind_eq_some_iff.mp hcomp
  obtain ⟨s, h₂, hcomp⟩ := Option.map_eq_some_iff.mp hcomp
  obtain ⟨hcall, hfree, hfree₁, hentry, hquiet⟩ := of_decide_eq_true hcomp
  obtain ⟨m, hq, hm⟩ := Option.map_eq_some_iff.mp hentry
  obtain ⟨hended, hbufs⟩ := Prod.mk.inj hm
  have hruns : Runs (onlyBlock [65]) 2 _ s₀ := run_of_replay step_of_tick _ h₀
  have hrun : Run (PollStep (onlyBlock [65]) (Turns · · 0)) (s₀, 0)
      [.respond 0 .pending 7, .respond 0 .pending 7] (s, 2) :=
    .snoc (.snoc .nil (.poll (step_of_tick _ _ _ h₁) ⟨hfree, _, _, rfl⟩))
      (.poll (step_of_tick _ _ _ h₂) ⟨hfree₁, _, _, rfl⟩)
  exact ⟨_, s₀, s, hruns, hcall, hrun,
    responded_run hruns hcall hq hended hrun hquiet (by omega)⟩

end Connection

end AsyncFcgi
