import AsyncFcgi.Client.CleanEnd

/-!
# One call among many (`src/client/connection.rs`)

Seen from one call, a connection with any number of calls is an `Exchange`: the turns of the
call are its turns of `create_response` and its reads, and whatever the other calls do is a
`poll_resp` of another task or leaves the request alone.

* `Slots.passes`: what a step of another call does to a request.
* `Serves.step`: the exchange follows every step of the connection.
* `frames_run`: what the caller reads, in any run with any other calls.
-/

namespace AsyncFcgi

open Lib

/-- The call polls this `create_response` for its request at `k`, or the body of it. -/
def Forward.Shows (k : ℕ) : Forward → CreateResponse → Prop
  | .sending rid, resp | .exchanging rid _ none, resp => rid.toNat - 1 = k ∧ resp = .new k
  | .exchanging rid _ (some resp), resp' => rid.toNat - 1 = k ∧ resp' = resp
  | .returned body, resp =>
    body.rid = k ∧ ∃ status rheaders, resp = .returned body status rheaders
  | _, _ => False

/-- Nobody waits for a response of the call any more. -/
def Forward.Gone : Forward → Bool
  | .failed _ _ | .left => true
  | _ => false

namespace Connection

variable {http : Http} {maxReqPerCon : UInt16} {max : ℕ} {evs : List Event}
  {self self' : Connection} {ev : Event} {eff : Effects} {j k n : ℕ} {stdout : Bytes}

/-! ## What the caller sees -/

/-- The frames that the caller of a call was given, whether it saw the end, and, as history, what
`create_response` put back with what was in the buffer then. -/
structure Seen where
  frames : List Bytes
  finished : Bool
  back : Option (Bytes × Bytes)
  deriving DecidableEq, Repr

/-- The unread bytes of the request at `k`. -/
def unread (self : Connection) (k : ℕ) : Bytes :=
  match self.inner.inner.runningRequests.get? k with
  | none => []
  | some mpxs => mpxs.buf.flatten

/-- What the caller of the call at `j`, whose request is at `k`, has seen behind an event. -/
def see (self : Connection) (j k : ℕ) (seen : Seen) (ev : Event) : Seen :=
  match ev with
  | .read i sock cx =>
    if i = j then
      match self.calls[j]? with
      | some (.returned body) =>
        match body.pollFrame self.inner sock cx with
        | .ok (.ready (some (.ok b)), _) => { seen with frames := seen.frames ++ [b] }
        | .ok (.ready none, _) => { seen with finished := true }
        | _ => seen
      | _ => seen
    else seen
  | .respond i _ _ =>
    if i = j then
      match self.calls[j]? with
      | some (.exchanging _ _ (some (.putting _ bodydata _))) =>
        if self.inner.waiters = none then { seen with back := some (bodydata, self.unread k) }
        else seen
      | _ => seen
    else seen
  | _ => seen

/-- A connection, and what the caller of one of its calls has seen. -/
structure Watched where
  con : Connection
  seen : Seen

/-- A step while the application writes `stdout` to the request which the call at `j` inserted at
`k` when the log was of length `n`, and the connection is not lost before its END_REQUEST. -/
structure Watched.Step (http : Http) (n j k : ℕ) (stdout : Bytes) (st : Watched) (ev : Event)
    (st' : Watched) : Prop where
  next : st.con.Step http ev st'.con
  see : st'.seen = st.con.see j k st.seen ev
  whole : ¬ st.con.Interrupts ev j k
  fits : ∀ call, st.con.calls[j]? = some call → Forward.key? call = some k →
    st'.con.stdOutSince n k <+: stdout ∧
      (st'.con.EndedSince n k → st'.con.stdOutSince n k = stdout)

/-! ## The other calls -/

/-- A step of another call: it leaves the request at `k` alone, or calls `poll_resp` and then
leaves it alone. -/
inductive Passes (self : Connection) (ev : Event) (self' : Connection) (k : ℕ) : Prop
  | quiet (hlog : self'.log = self.log)
      (hkeep : ∀ unread ended, self.inner.inner.Running k unread ended →
        self'.inner.inner.Running k unread ended)
  | drives {sock cx res inner eff} (hdrives : self.Drives ev sock cx)
      (hresp : self.inner.inner.pollResp sock cx = .ok (res, inner, eff))
      (hlog : self'.log = self.log ++ self.inner.inner.records sock cx)
      (hkeep : ∀ unread ended, inner.Running k unread ended →
        self'.inner.inner.Running k unread ended)

theorem Slots.passes (h : Slots max self) (hs : Stepped self ev self' eff) {call : Forward}
    (hcall : self.calls[j]? = some call) (hkey : Forward.key? call = some k)
    (hcut : ¬ self.Interrupts ev j k) (hother : ev.call? ≠ some j) : Passes self ev self' k := by
  -- the caller of another request
  have howner : ∀ i c, ev.call? = some i → self.calls[i]? = some c → Forward.key? c ≠ some k := by
    intro i c hev hc hk
    exact hother (hev.trans (congrArg some (h.eq_of_key? hcall hc hkey hk)))
  cases hs with
  | acquired => exact .quiet rfl fun _ _ hrun => hrun
  | moved _ _ _ _ hinner => exact .quiet rfl fun _ _ hrun => hrun.of_get? (by rw [move, hinner])
  | gaveUp _ _ _ _ hinner => exact .quiet rfl fun _ _ hrun => hrun.of_get? (by rw [move, hinner])
  | refused _ hresp => exact .drives (Or.inl ⟨_, _, rfl⟩) hresp rfl fun _ _ hrun => hrun
  | dead _ hresp => exact .drives (Or.inl ⟨_, _, rfl⟩) hresp rfl fun _ _ hrun => hrun
  | alive _ hresp _ hcan =>
    exact .drives (Or.inl ⟨_, _, rfl⟩) hresp rfl fun _ _ hrun => hrun.insert hcan _
  | notified =>
    refine .quiet rfl fun unread ended hrun => ?_
    obtain rfl := ended_of_loses h hcall hkey hcut hrun (Or.inl ⟨_, rfl⟩)
    obtain ⟨m, hq, hlive, rfl, hend⟩ := hrun
    refine ⟨InnerConnection.notify m, ?_, ?_⟩
    · show (InnerConnection.notifyEveryone _).1.get? k = _
      rw [InnerConnection.get?_notifyEveryone, hq, Option.map_some]
    · simp [InnerConnection.notify, hlive]
  | reconnected _ hcan =>
    exact .quiet rfl fun _ _ hrun => InnerConnection.Running.insert (hrun.of_get? rfl) hcan _
  | @framed _ i sock cx c c' body body' r inner₁ eff₁ res inner₂ eff₂ hev hc hpolls hd hfree hresp
      hserved hturn hbody =>
    have hne : k ≠ body.rid := by
      rintro rfl
      exact howner i c hev hc (hpolls.key_rid hd)
    exact .drives (Or.inr ⟨i, c, body, hturn, hc, hbody, hd, hfree⟩) hresp rfl
      fun _ _ hrun => hrun.of_get? (hserved.other hne)
  | @putBack _ _ _ rid upload body bodydata rheaders _ _ hc hfree hq =>
    refine .quiet rfl fun _ _ hrun => hrun.set hq ?_
    rintro rfl
    exact howner _ _ rfl hc (h.putting_key hc)
  | dropped hc _ _ hk _ hq =>
    refine .quiet rfl fun _ _ hrun => hrun.set hq ?_
    rintro rfl
    exact howner _ _ rfl hc hk

/-! ## The simulation -/

/-- The exchange is what the call at `j` does with its request at `k`. -/
structure Serving (n k : ℕ) (con : Connection) (call : Forward) (ex : Exchange) : Prop where
  same : ex.con = con.inner
  shows_ : call.Shows k ex.resp
  running : call.key? = some k → (∃ unread, con.inner.inner.Running k unread ex.ended) ∧
    ex.arrived = con.stdOutSince n k ∧ (ex.ended = true → con.EndedSince n k)

/-- The exchange saw what the caller saw, and goes on as long as the call does. -/
structure Serves (max n j k : ℕ) (stdout : Bytes) (st : Watched) (ex : Exchange) : Prop where
  slots : Slots max st.con
  since : n ≤ st.con.log.length
  seen : st.seen = ⟨ex.frames, ex.finished, ex.back⟩
  fits : ex.Fits stdout
  call : ∃ call, st.con.calls[j]? = some call ∧ (call.Gone = true ∨ Serving n k st.con call ex)

/-- A call that shows an exchange has its request until the body is done. -/
theorem shows_key {call : Forward} {resp : CreateResponse} (h : call.Shows k resp)
    (hopen : call.Open) : call.key? = if resp.fcgibody.done then none else some k := by
  cases call with
  | sending rid =>
    obtain ⟨hk, rfl⟩ := h
    exact congrArg some hk
  | exchanging rid upload resp₀ =>
    cases resp₀ with
    | none =>
      obtain ⟨hk, rfl⟩ := h
      exact congrArg some hk
    | some resp₀ =>
      obtain ⟨hk, rfl⟩ := h
      have hof := hopen.2
      rw [hk] at hof
      cases resp <;> (rw [CreateResponse.Of] at hof; subst hof; rfl)
  | returned body =>
    obtain ⟨hk, status, rheaders, rfl⟩ := h
    rw [← hk]
    rfl
  | _ => exact h.elim

theorem see_other (hother : ev.call? ≠ some j) (seen : Seen) : self.see j k seen ev = seen := by
  cases ev with
  | read i sock cx => exact if_neg fun hij => hother (congrArg some hij)
  | respond i sock cx => exact if_neg fun hij => hother (congrArg some hij)
  | _ => rfl

/-- The exchange goes on with another connection. -/
theorem step_others {ex : Exchange} (con : Mutex InnerConnection) (hfits : ex.Fits stdout)
    (hun : ex.resp.fcgibody.done = false → ∀ unread ended, ex.con.inner.Running k unread ended →
      con.inner.Running k unread ended) :
    Exchange.Step http k stdout ex (.others con) { ex with con := con } :=
  ⟨rfl, hun, hfits⟩

/-- A step that calls `poll_resp` for a request whose body is not done. -/
theorem Serving.heard {st st' : Watched} {ex : Exchange} {call : Forward} {sock : SocketRead}
    {cx : Waker} (h : Serving n k st.con call ex) (hslots : Slots max st.con)
    (hsince : n ≤ st.con.log.length) (hs : Watched.Step http n j k stdout st ev st')
    (hcall : st.con.calls[j]? = some call) (hkey : call.key? = some k)
    (hd : ex.resp.fcgibody.done = false) (hdrives : st.con.Drives ev sock cx)
    (hlog : st'.con.log = st.con.log ++ st.con.inner.inner.records sock cx) :
    (ex.heard k sock cx).ended = (ex.ended || decide (st.con.inner.inner.Ends sock cx k)) ∧
      (ex.heard k sock cx).arrived = st'.con.stdOutSince n k ∧
      ((ex.heard k sock cx).ended = true → st'.con.EndedSince n k) ∧
      (ex.heard k sock cx).Fits stdout := by
  obtain ⟨⟨unread, hrun⟩, harr, hended⟩ := h.running hkey
  have hloses := ended_of_loses hslots hcall hkey hs.whole hrun
  have hheard : ex.heard k sock cx =
      { ex with
        arrived := ex.arrived ++ st.con.inner.inner.stdOutRead sock cx k
        ended := ex.ended || decide (st.con.inner.inner.Ends sock cx k) } := by
    rw [Exchange.heard, if_neg (by simp [hd]), h.same]
  have harr' : (ex.heard k sock cx).arrived = st'.con.stdOutSince n k := by
    rw [hheard, stdOutSince_append hlog hsince, harr]
    rfl
  have hended' : (ex.heard k sock cx).ended = true → st'.con.EndedSince n k := by
    rw [hheard]
    exact endedSince_of_poll hdrives hended hsince hloses hlog
  obtain ⟨hpre, hall⟩ := hs.fits call hcall hkey
  exact ⟨by rw [hheard], harr', hended', harr'.symm ▸ hpre, fun he => harr'.trans (hall (hended' he))⟩

/-- Another call goes on. -/
theorem Serves.other (hmax : max < 2 ^ 16) {st st' : Watched} {ex : Exchange}
    (h : Serves max n j k stdout st ex) (hs : Watched.Step http n j k stdout st ev st')
    (hother : ev.call? ≠ some j) :
    ∃ exEvs ex', Run (Exchange.Step http k stdout) ex exEvs ex' ∧
      Serves max n j k stdout st' ex' := by
  obtain ⟨eff, hnext⟩ := hs.next
  have hstepped := next_stepped hnext
  obtain ⟨recs, hlog⟩ := hstepped.grows.1
  have hsince : n ≤ st'.con.log.length := by
    rw [hlog, List.length_append]
    exact h.since.trans (Nat.le_add_right _ _)
  have hslots := h.slots.step hmax hstepped
  have hseen : st'.seen = ⟨ex.frames, ex.finished, ex.back⟩ := by
    rw [hs.see, see_other hother, h.seen]
  obtain ⟨call, hcall, hlive⟩ := h.call
  have hcall' := calls_other hstepped hother hcall
  rcases hlive with hgone | hlive
  · exact ⟨[], ex, .nil, hslots, hsince, hseen, h.fits, call, hcall', Or.inl hgone⟩
  have hkey := shows_key hlive.shows_ (h.slots.open_ j call hcall)
  cases hd : ex.resp.fcgibody.done with
  | true =>
    rw [hd, if_pos rfl] at hkey
    refine ⟨_, _, .snoc .nil (step_others st'.con.inner h.fits fun hno => ?_), hslots,
      hsince, hseen, h.fits, call, hcall', Or.inr ⟨rfl, hlive.shows_, fun hk => ?_⟩⟩
    · rw [hd] at hno
      cases hno
    · rw [hkey] at hk
      cases hk
  | false =>
    rw [hd, if_neg (by decide)] at hkey
    obtain ⟨⟨unread, hrun⟩, harr, hended⟩ := hlive.running hkey
    cases h.slots.passes hstepped hcall hkey hs.whole hother with
    | quiet hlog hkeep =>
      refine ⟨_, _, .snoc .nil (step_others st'.con.inner h.fits fun _ => hlive.same ▸ hkeep),
        hslots, hsince, hseen, h.fits, call, hcall', Or.inr ⟨rfl, hlive.shows_, fun _ => ?_⟩⟩
      refine ⟨⟨unread, hkeep _ _ hrun⟩, ?_, ?_⟩
      · rw [harr, stdOutSince, stdOutSince, hlog]
      · rw [EndedSince, hlog]
        exact hended
    | @drives sock cx res inner eff₁ hdrives hresp hlog hkeep =>
      obtain ⟨hheard, harr', hended', hfits⟩ :=
        hlive.heard h.slots h.since hs hcall hkey hd hdrives hlog
      have hsame : (ex.heard k sock cx).resp = ex.resp ∧ (ex.heard k sock cx).frames = ex.frames ∧
          (ex.heard k sock cx).finished = ex.finished ∧ (ex.heard k sock cx).back = ex.back := by
        rw [Exchange.heard, if_neg (by simp [hd])]
        exact ⟨rfl, rfl, rfl, rfl⟩
      obtain ⟨hresp', hframes, hfinished, hback⟩ := hsame
      have hdrive : Exchange.Step http k stdout ex (.drive sock cx)
          { ex.heard k sock cx with con := { ex.con with inner } } := by
        refine ⟨?_, trivial, hfits⟩
        rw [Exchange.next, hlive.same, hresp]
        rfl
      have hrun' := hkeep _ _ (InnerConnection.pollResp_running hresp hrun)
      refine ⟨_, _, .snoc (.snoc .nil hdrive) (step_others st'.con.inner hfits fun _ => hkeep),
        hslots, hsince, ?_, hfits, call, hcall', Or.inr ⟨rfl, ?_, fun _ =>
          ⟨⟨_, by rw [← hheard] at hrun'; exact hrun'⟩, harr', hended'⟩⟩⟩
      · rw [hseen, ← hframes, ← hfinished, ← hback]
      · show call.Shows k (ex.heard k sock cx).resp
        rw [hresp']
        exact hlive.shows_

/-- The exchange takes a step of its own. -/
def Follows (http : Http) (n j k : ℕ) (stdout : Bytes) (st' : Watched) (ex : Exchange)
    (exEv : Exchange.Event) : Prop :=
  ∃ ex' call', Exchange.Step http k stdout ex exEv ex' ∧ st'.con.calls[j]? = some call' ∧
    Serving n k st'.con call' ex' ∧ st'.seen = ⟨ex'.frames, ex'.finished, ex'.back⟩

/-- A turn of `create_response`. -/
theorem Serving.respond {st st' : Watched} {ex : Exchange} {rid : UInt16} {upload : Upload}
    {resp : Option CreateResponse} {sock : SocketRead} {cx : Waker}
    (h : Serving n k st.con (.exchanging rid upload resp) ex) (hslots : Slots max st.con)
    (hsince : n ≤ st.con.log.length)
    (hs : Watched.Step http n j k stdout st (.respond j sock cx) st')
    (hseen : st.seen = ⟨ex.frames, ex.finished, ex.back⟩) (hfits : ex.Fits stdout)
    (hcall : st.con.calls[j]? = some (.exchanging rid upload resp))
    (hnext : st.con.nextRespond http j rid upload resp sock cx = .ok (some (st'.con, eff))) :
    Follows http n j k stdout st' ex (.respond sock cx) := by
  have hset : ∀ {call : Forward}, (st.con.calls.set j call)[j]? = some call :=
    List.getElem?_set_self (List.getElem?_eq_some_iff.mp hcall).1
  obtain ⟨resp₀, resp', inner, hresp₀, hpoll, hcon⟩ := nextRespond_ok hnext
  obtain ⟨-, hopen, hsome⟩ := responseOf_cases hresp₀ upload
  have hof := (hopen (hslots.open_ j _ hcall)).2
  have hshows : rid.toNat - 1 = k ∧ ex.resp = resp₀ := by
    rcases hsome with rfl | ⟨rfl, rfl⟩
    · exact h.shows_
    · obtain ⟨hk, hresp⟩ := h.shows_
      exact ⟨hk, hk ▸ hresp⟩
  obtain ⟨hk, hresp⟩ := hshows
  rw [hk] at hof
  have hkey : (Forward.exchanging rid upload resp).key? = some k := by
    rw [((hslots.open_ j _ hcall).key? rfl).2, hk]
  obtain ⟨⟨unread, hrun⟩, harr, hended⟩ := h.running hkey
  have hsee := hs.see
  rw [hseen, see] at hsee
  simp only [if_true, hcall] at hsee
  cases resp₀ with
  | reading body buf rheaders =>
    obtain rfl : body = ⟨k, false, false⟩ := hof
    have hd : ex.resp.fcgibody.done = false := by
      rw [hresp]
      rfl
    have hsee' : st'.seen = ⟨ex.frames, ex.finished, ex.back⟩ := by
      rcases hsome with rfl | ⟨rfl, -⟩ <;> exact hsee
    have hpolled : (Forward.exchanging rid upload resp).polled? = some ⟨k, false, false⟩ := by
      rcases hsome with rfl | ⟨rfl, hnew⟩
      · rfl
      · rw [Forward.polled?, hk]
    obtain ⟨res, body', hframe, -⟩ := CreateResponse.poll_reading hpoll
    have hexnext : ex.next http k (.respond sock cx) =
        .ok { ex.heardFree k sock cx with resp := resp', con := inner } := by
      rw [Exchange.next, hresp, h.same, hpoll]
      rfl
    simp only at hcon
    rcases FCGIBody.pollFrame_running rfl hrun hframe with
      ⟨hheld, rfl, rfl, rfl⟩ | ⟨hfree, unread', ended', hu', he', hframed⟩
    · -- the connection is locked
      rw [Exchange.heardFree, h.same, if_neg hheld] at hexnext
      rw [hearBody, if_neg (by simp [hheld])] at hcon
      refine ⟨_, .exchanging rid upload (some resp'), ⟨hexnext, trivial, hfits⟩,
        by rw [hcon]; exact hset, ⟨?_, ⟨hk, rfl⟩, fun _ => ?_⟩, hsee'⟩
      · rw [hcon]
        rfl
      · rw [hcon]
        exact ⟨⟨unread, hrun⟩, harr, hended⟩
    · rw [Exchange.heardFree, h.same, if_pos hfree] at hexnext
      rw [hearBody, if_pos ⟨rfl, hfree⟩] at hcon
      obtain ⟨hheard, harr', hended', hfits'⟩ := h.heard hslots hsince hs hcall hkey hd
        (Or.inr ⟨j, _, _, rfl, hcall, hpolled, rfl, hfree⟩) (by rw [hcon]; rfl)
      have hrun' : ∃ unread, inner.inner.Running k unread ended' := by
        rcases hframed with ⟨-, -, hrun'⟩ | ⟨b, rest, -, -, -, hrun'⟩ | ⟨b, -, -, hret, -⟩ |
          ⟨-, -, -, ⟨hret, -⟩ | ⟨-, -, hrun'⟩⟩
        · exact ⟨_, hrun'⟩
        · exact ⟨_, hrun'⟩
        · cases hret
        · cases hret
        · exact ⟨_, hrun'⟩
      refine ⟨_, .exchanging rid upload (some resp'), ⟨hexnext, trivial, hfits'⟩, ?_,
        ⟨?_, ⟨hk, rfl⟩, fun _ => ⟨?_, harr', hended'⟩⟩, ?_⟩
      · rw [hcon]
        exact hset
      · rw [hcon]
        rfl
      · show ∃ unread, st'.con.inner.inner.Running k unread (ex.heard k sock cx).ended
        rw [hcon, hheard]
        exact he' ▸ hrun'
      · rw [Exchange.heard, if_neg (by simp [hd])]
        exact hsee'
  | putting body bodydata rheaders =>
    obtain rfl : body = ⟨k, false, false⟩ := hof
    obtain rfl : resp = some (.putting ⟨k, false, false⟩ bodydata rheaders) := by
      rcases hsome with rfl | ⟨-, hnew⟩
      · rfl
      · cases hnew
    simp only at hsee
    have hpoll' := hpoll
    rw [CreateResponse.poll] at hpoll
    cases hw : st.con.inner.waiters with
    | some q =>
      simp only [hw, Except.ok.injEq, Prod.mk.injEq] at hpoll
      obtain ⟨rfl, rfl, rfl⟩ := hpoll
      have hexnext : ex.next http k (.respond sock cx) = .ok { ex with
          resp := .putting ⟨k, false, false⟩ bodydata rheaders, con := st.con.inner } := by
        rw [Exchange.next, hresp, h.same, hpoll']
        simp only [ok_bind, hw, reduceCtorEq, if_false]
      refine ⟨_, .exchanging rid upload (some (.putting ⟨k, false, false⟩ bodydata rheaders)),
        ⟨hexnext, trivial, hfits⟩, ?_, ⟨?_, ⟨hk, rfl⟩, fun _ => ?_⟩, ?_⟩
      · rw [hcon]
        exact hset
      · rw [hcon]
        rfl
      · rw [hcon]
        exact ⟨⟨unread, hrun⟩, harr, hended⟩
      · rw [hsee, hw, if_neg (by simp)]
    | none =>
      obtain ⟨m, hq, hlive, hbuf, hend⟩ := hrun
      simp only [hw, CreateResponse.putBack, hq, ok_bind, Except.ok.injEq, Prod.mk.injEq] at hpoll
      obtain ⟨rfl, rfl, rfl⟩ := hpoll
      have hunread : ex.unread k = st.con.unread k := by
        rw [Exchange.unread, h.same]
        rfl
      have hexnext : ex.next http k (.respond sock cx) = .ok { ex with
          resp := CreateResponse.handOver ⟨k, false, false⟩ (CreateResponse.statusOf http rheaders)
            rheaders
          con :=
            { waiters := none
              inner := { st.con.inner.inner with
                runningRequests := st.con.inner.inner.runningRequests.set k
                  { m with buf := m.buf.push bodydata } } }
          back := some (bodydata, ex.unread k) } := by
        rw [Exchange.next, hresp, h.same, hpoll']
        simp only [ok_bind, hw, if_true]
      refine ⟨_, .exchanging rid upload (some (CreateResponse.handOver ⟨k, false, false⟩
          (CreateResponse.statusOf http rheaders) rheaders)),
        ⟨hexnext, trivial, hfits⟩, ?_, ⟨?_, ⟨hk, rfl⟩, fun _ => ⟨⟨unread ++ bodydata, ?_⟩, ?_⟩⟩, ?_⟩
      · rw [hcon]
        exact hset
      · rw [hcon]
        rfl
      · rw [hcon]
        refine ⟨{ m with buf := m.buf.push bodydata }, ?_, hlive, ?_, hend⟩
        · show (st.con.inner.inner.runningRequests.set k _).get? _ = _
          rw [Slab.get?_set hq, if_pos rfl]
        · show (m.buf.push bodydata).flatten = _
          rw [BufList.flatten_push, hbuf]
      · rw [hcon]
        exact ⟨harr, hended⟩
      · rw [hsee, hw, if_pos rfl, hunread]
  | returned body status rheaders =>
    cases hpoll
    have hexnext : ex.next http k (.respond sock cx) = .ok { ex with
        resp := .returned body status rheaders, con := st.con.inner } := by
      rw [Exchange.next, hresp, h.same]
      rfl
    have hsee' : st'.seen = ⟨ex.frames, ex.finished, ex.back⟩ := by
      rcases hsome with rfl | ⟨rfl, hnew⟩
      · exact hsee
      · cases hnew
    refine ⟨_, .exchanging rid upload (some (.returned body status rheaders)),
      ⟨hexnext, trivial, hfits⟩, ?_, ⟨?_, ⟨hk, rfl⟩, fun _ => ?_⟩, hsee'⟩
    · rw [hcon]
      exact hset
    · rw [hcon]
      rfl
    · rw [hcon]
      exact ⟨⟨unread, hrun⟩, harr, hended⟩

/-- The exchange behind a `poll_frame` of the caller. -/
def given (ex : Exchange) : FramePoll → Exchange
  | .ready (some (.ok b)) => { ex with frames := ex.frames ++ [b] }
  | .ready none => { ex with finished := true }
  | _ => ex

/-- The caller polls the body. -/
theorem Serving.read {st st' : Watched} {ex : Exchange} {body : FCGIBody} {sock : SocketRead}
    {cx : Waker} (h : Serving n k st.con (.returned body) ex) (hslots : Slots max st.con)
    (hsince : n ≤ st.con.log.length)
    (hs : Watched.Step http n j k stdout st (.read j sock cx) st')
    (hseen : st.seen = ⟨ex.frames, ex.finished, ex.back⟩) (hfits : ex.Fits stdout)
    (hcall : st.con.calls[j]? = some (.returned body))
    (hnext : st.con.nextRead j body sock cx = .ok (some (st'.con, eff))) :
    Follows http n j k stdout st' ex (.read sock cx) := by
  obtain ⟨res, body', inner, hframe, hcon⟩ := nextRead_ok hnext
  obtain ⟨hk, status, rheaders, hresp⟩ := h.shows_
  have hset : st'.con.calls[j]? = some (.returned body') := by
    rw [hcon]
    show ((st.con.hearBody body j sock cx).calls.set j _)[j]? = _
    rw [hearBody_calls]
    exact List.getElem?_set_self (List.getElem?_eq_some_iff.mp hcall).1
  have hexnext : ex.next http k (.read sock cx) = .ok (given { ex.heardFree k sock cx with
      con := inner, resp := .returned body' status rheaders } res) := by
    rw [Exchange.next, hresp]
    simp only [h.same, hframe, ok_bind]
    cases res with
    | pending => rfl
    | ready r =>
      cases r with
      | none => rfl
      | some r => cases r <;> rfl
  have hinner : st'.con.inner = inner := by
    rw [hcon]
    rfl
  have hsee := hs.see
  rw [hseen, see] at hsee
  simp only [if_true, hcall, hframe] at hsee
  cases hd : body.done with
  | true =>
    have hexd : ex.resp.fcgibody.done = true := by
      rw [hresp]
      exact hd
    have hheard : ex.heardFree k sock cx = ex := by
      rw [Exchange.heardFree, Exchange.heard, if_pos hexd, ite_self]
    rw [hheard] at hexnext
    cases FCGIBody.pollFrame_framed hframe with
    | done =>
      refine ⟨_, _, ⟨hexnext, trivial, hfits⟩, hset, ⟨hinner.symm, ⟨hk, _, _, rfl⟩, fun hkey => ?_⟩,
        hsee⟩
      rw [Forward.key?, FCGIBody.key?, if_pos hd] at hkey
      cases hkey
    | contended hno =>
      rw [hd] at hno
      cases hno
    | served hno =>
      rw [hd] at hno
      cases hno
  | false =>
    have hexd : ex.resp.fcgibody.done = false := by
      rw [hresp]
      exact hd
    have hkey : (Forward.returned body).key? = some k := hk ▸ Forward.key?_of_body? rfl hd
    obtain ⟨⟨unread, hrun⟩, harr, hended⟩ := h.running hkey
    rcases FCGIBody.pollFrame_running hd (hk.symm ▸ hrun) hframe with
      ⟨hheld, rfl, rfl, rfl⟩ | ⟨hfree, unread', ended', hu', he', hframed⟩
    · -- the connection is locked
      rw [Exchange.heardFree, h.same, if_neg hheld] at hexnext
      rw [hearBody, if_neg (by simp [hheld])] at hcon
      refine ⟨_, _, ⟨hexnext, trivial, hfits⟩, hset, ⟨hinner.symm, ⟨hk, _, _, rfl⟩, fun _ => ?_⟩,
        hsee⟩
      rw [hcon]
      exact ⟨⟨unread, hrun⟩, harr, hended⟩
    · rw [Exchange.heardFree, h.same, if_pos hfree] at hexnext
      rw [hearBody, if_pos ⟨hd, hfree⟩] at hcon
      obtain ⟨hheard, harr', hended', hfits'⟩ := h.heard hslots hsince hs hcall hkey hexd
        (Or.inr ⟨j, _, _, rfl, hcall, rfl, hd, hfree⟩) (by rw [hcon]; rfl)
      have hsame : (ex.heard k sock cx).frames = ex.frames ∧
          (ex.heard k sock cx).finished = ex.finished ∧ (ex.heard k sock cx).back = ex.back := by
        rw [Exchange.heard, if_neg (by simp [hexd])]
        exact ⟨rfl, rfl, rfl⟩
      obtain ⟨hframes, hfinished, hback⟩ := hsame
      rw [← hframes, ← hfinished, ← hback] at hsee
      -- a body that is not done has a request
      have hrun' : ∀ unread, inner.inner.Running body.rid unread ended' →
          ∃ unread, st'.con.inner.inner.Running k unread (ex.heard k sock cx).ended := by
        intro unread hrun'
        rw [hinner, hheard, ← hk, ← he']
        exact ⟨unread, hrun'⟩
      rcases hframed with ⟨rfl, rfl, hrun₁⟩ | ⟨b, rest, rfl, rfl, -, hrun₁⟩ |
        ⟨b, rfl, rfl, -⟩ | ⟨rfl, -, -, ⟨-, rfl⟩ | ⟨-, rfl, hrun₁⟩⟩
      · exact ⟨_, _, ⟨hexnext, trivial, hfits'⟩, hset, ⟨hinner.symm, ⟨hk, _, _, rfl⟩,
          fun _ => ⟨hrun' _ hrun₁, harr', hended'⟩⟩, hsee⟩
      · exact ⟨_, _, ⟨hexnext, trivial, hfits'⟩, hset, ⟨hinner.symm, ⟨hk, _, _, rfl⟩,
          fun _ => ⟨hrun' _ hrun₁, harr', hended'⟩⟩, hsee⟩
      · exact ⟨_, _, ⟨hexnext, trivial, hfits'⟩, hset, ⟨hinner.symm, ⟨hk, _, _, rfl⟩,
          fun hno => (by cases hno)⟩, hsee⟩
      · exact ⟨_, _, ⟨hexnext, trivial, hfits'⟩, hset, ⟨hinner.symm, ⟨hk, _, _, rfl⟩,
          fun hno => (by cases hno)⟩, hsee⟩
      · exact ⟨_, _, ⟨hexnext, trivial, hfits'⟩, hset, ⟨hinner.symm, ⟨hk, _, _, rfl⟩,
          fun _ => ⟨hrun' _ hrun₁, harr', hended'⟩⟩, hsee⟩

/-- The call itself goes on. -/
theorem Serves.own (hmax : max < 2 ^ 16) {st st' : Watched} {ex : Exchange}
    (h : Serves max n j k stdout st ex) (hs : Watched.Step http n j k stdout st ev st')
    (hev : ev.call? = some j) :
    ∃ exEvs ex', Run (Exchange.Step http k stdout) ex exEvs ex' ∧
      Serves max n j k stdout st' ex' := by
  obtain ⟨con', seen'⟩ := st'
  obtain ⟨eff, hnext⟩ := hs.next
  have hstepped := next_stepped hnext
  obtain ⟨recs, hlog⟩ := hstepped.grows.1
  have hsince : n ≤ con'.log.length := by
    rw [hlog, List.length_append]
    exact h.since.trans (Nat.le_add_right _ _)
  have hslots := h.slots.step hmax hstepped
  obtain ⟨call, hcall, hlive⟩ := h.call
  have hset : ∀ {call' : Forward}, (st.con.calls.set j call')[j]? = some call' :=
    List.getElem?_set_self (List.getElem?_eq_some_iff.mp hcall).1
  have hsame : ∀ {i : ℕ} {c : Forward}, some i = some j → st.con.calls[i]? = some c → c = call :=
    fun hi hc => Option.some.inj ((Option.some.inj hi ▸ hc).symm.trans hcall)
  -- a step of the exchange itself
  have hfollows : ∀ {exEv}, Follows http n j k stdout ⟨con', seen'⟩ ex exEv →
      ∃ exEvs ex', Run (Exchange.Step http k stdout) ex exEvs ex' ∧
        Serves max n j k stdout ⟨con', seen'⟩ ex' := by
    rintro exEv ⟨ex', call', hstep, hcall', hserving, hseen⟩
    exact ⟨_, ex', .snoc .nil hstep, hslots, hsince, hseen, hstep.2.2, call', hcall',
      Or.inr hserving⟩
  -- nobody waits for the response any more
  have hgoes : ∀ {call' : Forward}, con'.calls[j]? = some call' → call'.Gone = true →
      seen' = st.seen → ∃ exEvs ex', Run (Exchange.Step http k stdout) ex exEvs ex' ∧
        Serves max n j k stdout ⟨con', seen'⟩ ex' := fun hcall' hgone hseen =>
    ⟨[], ex, .nil, hslots, hsince, hseen.trans h.seen, h.fits, _, hcall', Or.inl hgone⟩
  -- the call goes on, and its request stays as it is
  have hkeeps : ∀ {call' : Forward} {inner : Mutex InnerConnection},
      con' = st.con.move j call' inner .none → inner.inner = st.con.inner.inner →
      call.Gone = false → (call.Shows k ex.resp → call'.Shows k ex.resp) →
      call'.key? = call.key? → seen' = st.seen →
      ∃ exEvs ex', Run (Exchange.Step http k stdout) ex exEvs ex' ∧
        Serves max n j k stdout ⟨con', seen'⟩ ex' := by
    intro call' inner hcon hinner hgone hshows hkey hseen
    have hserving := hlive.resolve_left (by simp [hgone])
    have hinner' : con'.inner.inner = st.con.inner.inner := by
      rw [hcon, move, hinner]
    refine ⟨_, _, .snoc .nil (step_others con'.inner h.fits fun _ => ?_), hslots, hsince,
      hseen.trans h.seen, h.fits, call', by rw [hcon]; exact hset,
      Or.inr ⟨rfl, hshows hserving.shows_, fun hk => ?_⟩⟩
    · rw [hserving.same, hinner']
      exact fun _ _ hrun => hrun
    · obtain ⟨⟨unread, hrun⟩, harr, hended⟩ := hserving.running (hkey ▸ hk)
      refine ⟨⟨unread, hinner'.symm ▸ hrun⟩, ?_, ?_⟩
      · rw [hcon]
        exact harr
      · rw [hcon]
        exact hended
  -- a call with its permit has no request yet
  have hspent : ∀ {i : ℕ} {c : Forward}, some i = some j → st.con.calls[i]? = some c →
      c.HoldsPermit = true → False := by
    intro i c hi hc hholds
    obtain rfl := hsame hi hc
    rcases hlive with hgone | hserving
    · cases c with
      | failed => cases hholds
      | left => cases hholds
      | _ => cases hgone
    · have hshows := hserving.shows_
      cases c <;> first | exact hshows | cases hholds
  cases next_branch hnext with
  | acquire => cases hev
  | @head _ rid res hc =>
    obtain rfl := hsame hev hc
    cases hev
    cases res with
    | body => exact hkeeps rfl rfl rfl id rfl hs.see
    | noBody => exact hkeeps rfl rfl rfl id rfl hs.see
    | _ => exact hgoes hset rfl hs.see
  | @uploadLock _ rid resp hc =>
    obtain rfl := hsame hev hc
    cases hev
    exact hkeeps rfl rfl rfl (by cases resp <;> exact id) (by cases resp <;> rfl) hs.see
  | @upload _ rid resp res hc =>
    obtain rfl := hsame hev hc
    cases hev
    cases res with
    | chunk => exact hkeeps rfl rfl rfl (by cases resp <;> exact id) (by cases resp <;> rfl) hs.see
    | last => exact hkeeps rfl rfl rfl (by cases resp <;> exact id) (by cases resp <;> rfl) hs.see
    | _ => exact hgoes hset rfl hs.see
  | respond hc hrespond =>
    obtain rfl := hsame hev hc
    cases hev
    exact hfollows ((hlive.resolve_left (fun h => by cases h)).respond h.slots h.since hs h.seen
      h.fits hc hrespond)
  | @finish _ rid body status rheaders hc =>
    obtain rfl := hsame hev hc
    cases hev
    refine hkeeps rfl rfl rfl (fun hshows => ?_) rfl hs.see
    obtain ⟨hk, hresp⟩ := hshows
    have hof : body = ⟨rid.toNat - 1, false, true⟩ := (h.slots.open_ j _ hc).2
    exact ⟨by rw [hof]; exact hk, status, rheaders, hresp⟩
  | read hc hread =>
    obtain rfl := hsame hev hc
    cases hev
    exact hfollows ((hlive.resolve_left (fun h => by cases h)).read h.slots h.since hs h.seen
      h.fits hc hread)
  | drop =>
    cases hev
    exact hgoes hset rfl hs.see
  | dropUnpolled =>
    cases hev
    exact hgoes hset rfl hs.see
  | cancelSending =>
    cases hev
    exact hgoes hset rfl hs.see
  | cancelUpload =>
    cases hev
    exact hgoes hset rfl hs.see
  | cancelExchange =>
    cases hev
    exact hgoes hset rfl hs.see
  | cancelLocked hc hholds => exact (hspent hev hc hholds).elim
  | lock hc | check hc | shutdown hc | reconnect hc | unreachable hc
  | cancelWaiting hc => exact (hspent hev hc rfl).elim

/-- The exchange follows every step of the connection. -/
theorem Serves.step (hmax : max < 2 ^ 16) {st st' : Watched} {ex : Exchange}
    (h : Serves max n j k stdout st ex) (hs : Watched.Step http n j k stdout st ev st') :
    ∃ exEvs ex', Run (Exchange.Step http k stdout) ex exEvs ex' ∧
      Serves max n j k stdout st' ex' := by
  by_cases hev : ev.call? = some j
  · exact h.own hmax hs hev
  · exact h.other hmax hs hev

/-- A call that has just inserted its request starts an exchange. -/
theorem Inserted.serves (h : Slots max self) (hins : self.Inserted j k) :
    Serves max self.log.length j k stdout ⟨self, [], false, none⟩ (.start k self.inner) := by
  obtain ⟨⟨rid, hcall⟩, hentry⟩ := id hins
  obtain ⟨-, hkey⟩ := (h.open_ j _ hcall).key? rfl
  obtain ⟨m, hq, hp, -⟩ := h.owns j _ _ hcall hkey
  obtain rfl := h.unique _ _ m (.new j) hq hentry hp
  refine ⟨h, le_rfl, rfl, ⟨List.nil_prefix, nofun⟩, _, hcall, Or.inr ⟨rfl, ⟨rfl, rfl⟩, fun _ =>
    ⟨⟨[], _, hentry, rfl, rfl, rfl⟩, ?_, nofun⟩⟩⟩
  rw [stdOutSince, List.drop_length]
  rfl

/-! ## What the caller reads -/

/-- **Every run of a connection is a run of one exchange**, seen from a call on it: while the
application writes `stdout` to its request and the connection is not lost before the END_REQUEST. -/
theorem run_serves {evs₀ : List Event} {s₀ : Connection} (hruns : Runs http maxReqPerCon evs₀ s₀)
    (hins : s₀.Inserted j k) {st : Watched}
    (hrun : Run (Watched.Step http s₀.log.length j k stdout) ⟨s₀, [], false, none⟩ evs st) :
    ∃ exEvs ex, Run (Exchange.Step http k stdout) (.start k s₀.inner) exEvs ex ∧
      Serves maxReqPerCon.toNat s₀.log.length j k stdout st ex :=
  hrun.simulates (hins.serves (slots_run hruns))
    fun _ _ _ _ h hs => h.step maxReqPerCon.toNat_lt hs

/-- An exchange whose caller has seen the end: its body is done, and what was read. -/
theorem finished_placed {block body : Bytes} {ex : Exchange}
    (hplaced : Exchange.Placed k block (block ++ body) ex) (hfin : ex.finished = true) :
    ex.resp.fcgibody.done = true ∧ ∃ rest queued tail, body = rest ++ queued ++ tail ∧
      ex.frames.flatten = queued ++ rest ++ tail ∧
      (ex.back = some (rest, queued) ∨ (ex.back = none ∧ rest = [] ∧ queued = [])) := by
  unfold Exchange.Placed at hplaced
  cases hr : ex.resp with
  | reading fcgibody buf rheaders =>
    rw [hr] at hplaced
    rw [hplaced.1.finished] at hfin
    cases hfin
  | putting fcgibody bodydata rheaders =>
    rw [hr] at hplaced
    rw [hplaced.1.finished] at hfin
    cases hfin
  | returned fcgibody status rheaders =>
    rw [hr] at hplaced
    obtain ⟨rest, queued, tail, ho⟩ := hplaced
    have hdone : fcgibody.done = true := by
      by_contra hd
      rw [(ho.open_ (Bool.eq_false_iff.mpr hd)).1] at hfin
      cases hfin
    obtain ⟨harr, hfr⟩ := ho.done hdone
    refine ⟨hdone, rest, queued, tail, ?_, hfr, ho.back⟩
    have hall := ho.arrived.symm.trans harr
    rw [List.append_assoc, List.append_assoc, List.append_cancel_left_eq] at hall
    rw [← hall, List.append_assoc]

/-- Every run of a connection is a run of an exchange that has its bytes in place. -/
theorem run_placed (hstable : http.PrefixStable) {block body : Bytes} (hblock : http.Block block)
    {evs₀ : List Event} {s₀ : Connection} (hruns : Runs http maxReqPerCon evs₀ s₀)
    (hins : s₀.Inserted j k) {st : Watched}
    (hrun : Run (Watched.Step http s₀.log.length j k (block ++ body)) ⟨s₀, [], false, none⟩ evs
      st) :
    ∃ ex, Serves maxReqPerCon.toNat s₀.log.length j k (block ++ body) st ex ∧
      Exchange.Placed k block (block ++ body) ex := by
  obtain ⟨exEvs, ex, hexrun, hserves⟩ := run_serves hruns hins hrun
  exact ⟨ex, hserves, hexrun.inv (Exchange.placed_start hins.entry) fun _ _ _ h hstep =>
    Exchange.placed_step hstable hblock (List.prefix_append block body) h hstep⟩

/-- The event finds the connection open. -/
def Stays (self : Connection) : Event → Prop
  | .shutdown _ => False
  | .check _ sock cx _ | .respond _ sock cx | .read _ sock cx =>
    ¬ self.inner.inner.Closes sock cx
  | _ => True

instance (self : Connection) (ev : Event) : Decidable (self.Stays ev) := by
  unfold Stays
  cases ev <;> exact inferInstance

theorem Stays.not_loses (h : self.Stays ev) : ¬ self.Loses ev := by
  rintro (⟨i, rfl⟩ | ⟨sock, cx, ⟨i, key, rfl⟩ | ⟨i, call, body, hev, -⟩, hcl⟩)
  · exact h
  · exact h hcl
  · cases ev <;> cases hev <;> exact h hcl

/-- The STDOUT that was processed is a part of `stdout`, and all of it behind the END_REQUEST. -/
def Fitting (self : Connection) (n k : ℕ) (stdout : Bytes) : Prop :=
  self.stdOutSince n k <+: stdout ∧ (self.EndedSince n k → self.stdOutSince n k = stdout)

instance (self : Connection) (n k : ℕ) (stdout : Bytes) : Decidable (self.Fitting n k stdout) :=
  inferInstanceAs (Decidable (_ ∧ _))

/-- The state behind an event that keeps the connection. -/
def Watched.tick (http : Http) (n j k : ℕ) (stdout : Bytes) (st : Watched) (ev : Event) :
    Option Watched :=
  (st.con.tick http ev).bind fun con =>
    if st.con.Stays ev ∧ con.Fitting n k stdout then some ⟨con, st.con.see j k st.seen ev⟩
    else none

theorem Watched.step_of_tick (st : Watched) (ev : Event) (st' : Watched)
    (h : Watched.tick http n j k stdout st ev = some st') :
    Watched.Step http n j k stdout st ev st' := by
  obtain ⟨con, hcon, h⟩ := Option.bind_eq_some_iff.mp h
  split at h
  · rename_i hok
    cases h
    exact ⟨Connection.step_of_tick _ _ _ hcon, rfl, fun hno => hok.1.not_loses hno.1,
      fun _ _ _ => hok.2⟩
  · cases h

end Connection

end AsyncFcgi
