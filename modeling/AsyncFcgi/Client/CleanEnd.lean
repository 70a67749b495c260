import AsyncFcgi.Client.Exchange
import AsyncFcgi.Client.Lock
import AsyncFcgi.Client.Release

/-!
# What the end of a response means (`src/client/connection.rs`)

A request ends with its END_REQUEST, or because `notify_everyone` was called when the connection
was lost. `poll_frame` and `create_response` see only that it ended.

* `Slots.heard_other`: what a step of another call does to a request.
* `whole_truthful`: while no loss of the connection cuts the request off, and its header block
  comes in front of its END_REQUEST, an end is reported for its END_REQUEST only, and a response
  is handed over with its headers only.
-/

namespace AsyncFcgi

open Lib

/-- The request runs in another table that has the same entry. -/
theorem InnerConnection.Running.of_get? {inner inner' : InnerConnection} {k : ℕ} {unread : Bytes}
    {ended : Bool} (h : inner.Running k unread ended)
    (hq : inner'.runningRequests.get? k = inner.runningRequests.get? k) :
    inner'.Running k unread ended := by
  obtain ⟨m, hm, hm'⟩ := h
  exact ⟨m, hq.trans hm, hm'⟩

/-- Another request is put into the table. -/
theorem InnerConnection.Running.insert {inner : InnerConnection} {k key : ℕ} {unread : Bytes}
    {ended : Bool} (h : inner.Running k unread ended)
    (hcan : inner.runningRequests.CanInsert key) (permit : Permit) :
    (Connection.insert inner key permit).Running k unread ended := by
  refine h.of_get? ?_
  show (inner.runningRequests.insertAt key (.new permit)).get? k = _
  rw [Slab.get?_insertAt hcan, if_neg]
  rintro rfl
  obtain ⟨m, hm, -⟩ := h
  rw [Slab.get?_of_canInsert hcan] at hm
  cases hm

/-- Another request of the table changes. -/
theorem InnerConnection.Running.set {inner : InnerConnection} {k key : ℕ} {unread : Bytes}
    {ended : Bool} {mpxs mpxs' : FCGIRequest} (h : inner.Running k unread ended)
    (hq : inner.runningRequests.get? key = some mpxs) (hne : k ≠ key) :
    { inner with runningRequests := inner.runningRequests.set key mpxs' }.Running k unread
      ended := by
  refine h.of_get? ?_
  show (inner.runningRequests.set key mpxs').get? k = _
  rw [Slab.get?_set hq, if_neg hne]

namespace Connection

variable {http : Http} {maxReqPerCon : UInt16} {max : ℕ} {evs : List Event}
  {self self' : Connection} {ev : Event} {eff : Effects} {j k n : ℕ}

/-- The event calls `poll_resp` with what the socket gives. -/
def Drives (self : Connection) (ev : Event) (sock : SocketRead) (cx : Waker) : Prop :=
  (∃ i key, ev = .check i sock cx key) ∨
    ∃ i call body, ev.poll? = some (i, sock, cx) ∧ self.calls[i]? = some call ∧
      Forward.polled? call = some body ∧ body.done = false ∧ self.inner.waiters = none

/-- The connection is lost: a `poll_resp` takes it for closed, or a call shuts it down. -/
def Loses (self : Connection) (ev : Event) : Prop :=
  (∃ i, ev = .shutdown i) ∨
    ∃ sock cx, self.Drives ev sock cx ∧ self.inner.inner.Closes sock cx

/-- Since the log was of length `n`, this STDOUT of the request at `k` was processed. -/
def stdOutSince (self : Connection) (n k : ℕ) : Bytes :=
  ((self.log.drop n).map (InnerConnection.stdOutOf k)).flatten

theorem stdOutSince_append {recs : List Record} (hlog : self'.log = self.log ++ recs)
    (hn : n ≤ self.log.length) : self'.stdOutSince n k =
      self.stdOutSince n k ++ (recs.map (InnerConnection.stdOutOf k)).flatten := by
  rw [stdOutSince, stdOutSince, hlog, List.drop_append_of_le_length hn, List.map_append,
    List.flatten_append]

/-! ## Requests of other calls -/

/-- The request at `k`, with `unread` in its buffer, behind a step: what the step read for it is
in the buffer too, and it ended before, or with its END_REQUEST, or the connection was lost. -/
def Heard (self : Connection) (ev : Event) (self' : Connection) (k : ℕ) (unread : Bytes)
    (ended : Bool) : Prop :=
  ∃ recs ended', self'.log = self.log ++ recs ∧
    self'.inner.inner.Running k (unread ++ (recs.map (InnerConnection.stdOutOf k)).flatten) ended' ∧
    (ended' = true →
      ended = true ∨ (∃ rec ∈ recs, InnerConnection.EndOf k rec) ∨ self.Loses ev)

/-- A step that leaves the request alone. -/
theorem heard_same {unread : Bytes} {ended : Bool} (hlog : self'.log = self.log)
    (hrun : self'.inner.inner.Running k unread ended) : Heard self ev self' k unread ended :=
  ⟨[], ended, by rw [hlog, List.append_nil], by simpa using hrun, Or.inl⟩

/-- A step that calls `poll_resp`. -/
theorem heard_drives {sock : SocketRead} {cx : Waker} (hdrives : self.Drives ev sock cx)
    {unread : Bytes} {ended : Bool} (hlog : self'.log = self.log ++ self.inner.inner.records sock cx)
    (hrun : self'.inner.inner.Running k (unread ++ self.inner.inner.stdOutRead sock cx k)
      (ended || decide (self.inner.inner.Ends sock cx k))) : Heard self ev self' k unread ended := by
  refine ⟨_, _, hlog, hrun, fun hend => ?_⟩
  rcases Bool.or_eq_true_iff.mp hend with hend | hend
  · exact Or.inl hend
  · exact Or.inr ((of_decide_eq_true hend).imp_right fun hcl => Or.inr ⟨sock, cx, hdrives, hcl⟩)

theorem Slots.heard_other (h : Slots max self) (hs : Stepped self ev self' eff) {unread : Bytes}
    {ended : Bool} (hrun : self.inner.inner.Running k unread ended)
    (howner : ∀ i call, ev.call? = some i → self.calls[i]? = some call → call.key? ≠ some k) :
    Heard self ev self' k unread ended := by
  cases hs with
  | acquired => exact heard_same rfl hrun
  | moved _ _ _ _ hinner => exact heard_same rfl (hrun.of_get? (by rw [move, hinner]))
  | gaveUp _ _ _ _ hinner => exact heard_same rfl (hrun.of_get? (by rw [move, hinner]))
  | refused _ hresp =>
    exact heard_drives (Or.inl ⟨_, _, rfl⟩) rfl (InnerConnection.pollResp_running hresp hrun)
  | dead _ hresp =>
    exact heard_drives (Or.inl ⟨_, _, rfl⟩) rfl (InnerConnection.pollResp_running hresp hrun)
  | alive _ hresp _ hcan =>
    exact heard_drives (Or.inl ⟨_, _, rfl⟩) rfl
      ((InnerConnection.pollResp_running hresp hrun).insert hcan _)
  | notified =>
    obtain ⟨m, hq, hlive, rfl, rfl⟩ := hrun
    refine ⟨[], true, (List.append_nil _).symm, ⟨InnerConnection.notify m, ?_, ?_⟩,
      fun _ => Or.inr (Or.inr (Or.inl ⟨_, rfl⟩))⟩
    · show (InnerConnection.notifyEveryone _).1.get? k = _
      rw [InnerConnection.get?_notifyEveryone, hq, Option.map_some]
    · simp [InnerConnection.notify, hlive]
  | reconnected _ hcan =>
    exact heard_same rfl (InnerConnection.Running.insert (hrun.of_get? rfl) hcan _)
  | @framed _ i sock cx call call' body body' r inner₁ eff₁ res inner₂ eff₂ hev hcall hpolls hd
      hfree hresp hserved hturn hbody =>
    have hkey := hpolls.key_rid hd
    have hne : k ≠ body.rid := by
      rintro rfl
      exact howner i call hev hcall hkey
    exact heard_drives (Or.inr ⟨i, call, body, hturn, hcall, hbody, hd, hfree⟩) rfl
      ((InnerConnection.pollResp_running hresp hrun).of_get? (hserved.other hne))
  | @putBack _ _ _ rid upload body bodydata rheaders _ _ hcall hfree hq =>
    refine heard_same rfl (hrun.set hq ?_)
    rintro rfl
    exact howner _ _ rfl hcall (h.putting_key hcall)
  | dropped hcall _ _ hkey _ hq =>
    refine heard_same rfl (hrun.set hq ?_)
    rintro rfl
    exact howner _ _ rfl hcall hkey

/-! ## What was parsed -/

/-- `httparse` has something to read, and does not ask for more. -/
def HeaderSeen (http : Http) (stdOut : Bytes) : Prop :=
  stdOut ≠ [] ∧ http.parseHeaders maxHeaders stdOut ≠ .ok .more

/-- A complete header block at the start of `stdOut` was parsed into `rheaders`. -/
def HeadersOf (http : Http) (stdOut : Bytes) (rheaders : HeaderMap) : Prop :=
  ∃ b rest, b <+: stdOut ∧ parse http b [] = .ok (.ok rest, rheaders)

theorem HeadersOf.mono {stdOut stdOut' : Bytes} {rheaders : HeaderMap}
    (h : HeadersOf http stdOut rheaders) (hpre : stdOut <+: stdOut') :
    HeadersOf http stdOut' rheaders := by
  obtain ⟨b, rest, hb, hparse⟩ := h
  exact ⟨b, rest, hb.trans hpre, hparse⟩

/-- What `create_response` made of `stdOut`, of which `unread` is still in the buffer. -/
def Parsed (http : Http) (stdOut unread : Bytes) : CreateResponse → Prop
  | .reading _ buf rheaders => buf.getD [] ++ unread = stdOut ∧ rheaders = [] ∧
      ∀ b, buf = some b → http.parseHeaders maxHeaders b = .ok .more
  | .putting _ _ rheaders => HeadersOf http stdOut rheaders
  | .returned _ status rheaders => status = 200 → HeadersOf http stdOut rheaders

/-- The same for a call of `forward`; behind its return there is nothing to parse. -/
def ParsedBy (http : Http) (stdOut unread : Bytes) : Forward → Prop
  | .sending _ | .exchanging _ _ none => unread = stdOut
  | .exchanging _ _ (some resp) => Parsed http stdOut unread resp
  | _ => True

/-- Bytes that arrive go behind the unread ones. -/
theorem ParsedBy.arrive {stdOut unread : Bytes} {call : Forward}
    (h : ParsedBy http stdOut unread call) (new : Bytes) :
    ParsedBy http (stdOut ++ new) (unread ++ new) call := by
  cases call with
  | sending rid => exact congrArg (· ++ new) h
  | exchanging rid upload resp =>
    cases resp with
    | none => exact congrArg (· ++ new) h
    | some resp =>
      cases resp with
      | reading body buf rheaders =>
        obtain ⟨hbuf, hmap, hmore⟩ := h
        exact ⟨by rw [← List.append_assoc, hbuf], hmap, hmore⟩
      | putting body bodydata rheaders => exact HeadersOf.mono h (List.prefix_append _ _)
      | returned body status rheaders =>
        exact fun hstatus => HeadersOf.mono (h hstatus) (List.prefix_append _ _)
  | _ => trivial

/-- A frame in the loop of `create_response`. -/
theorem parsed_receive {body : FCGIBody} {left : Option Bytes} {b rest : Bytes}
    {stdOut : Bytes} {resp : CreateResponse} (h : CreateResponse.receive http body left [] b = .ok resp)
    (hout : left.getD [] ++ (b ++ rest) = stdOut) : Parsed http stdOut rest resp := by
  unfold CreateResponse.receive at h
  obtain ⟨⟨res, rheaders⟩, hparse, h⟩ := bind_eq_ok.mp h
  rw [← List.append_assoc] at hout
  have hpre : left.getD [] ++ b <+: stdOut := ⟨rest, hout⟩
  cases res with
  | ok bodydata =>
    simp only at h
    split at h
    · cases h
      exact fun _ => ⟨_, _, hpre, hparse⟩
    · cases h
      exact ⟨_, _, hpre, hparse⟩
  | pending =>
    cases h
    have hmore : http.parseHeaders maxHeaders (left.getD [] ++ b) = .ok .more ∧ rheaders = [] := by
      unfold parse at hparse
      split at hparse
      · cases hparse
      · cases hparse
        exact ⟨‹_›, rfl⟩
      · obtain ⟨map, -, hparse⟩ := bind_eq_ok.mp hparse
        obtain ⟨bytes, -, hparse⟩ := bind_eq_ok.mp hparse
        cases hparse
    refine ⟨hout, hmore.2, fun b' hb' => ?_⟩
    cases hb'
    exact hmore.1
  | err =>
    cases h
    exact fun h500 => absurd h500 (by decide)

/-! ## Runs in which the request is not cut off -/

/-- The step loses the connection while the request of the call at `j` is neither ended nor
aborted. -/
def Interrupts (self : Connection) (ev : Event) (j k : ℕ) : Prop :=
  self.Loses ev ∧ ∃ m, self.inner.inner.runningRequests.get? k = some m ∧ m.permit = j ∧
    m.aborted = false ∧ m.ended = false

/-- A step that does not cut off the request which the call at `j` inserted at `k` when the log
was of length `n`; and its END_REQUEST does not come in front of its headers. -/
def WholeStep (http : Http) (n j k : ℕ) (self : Connection) (ev : Event) (self' : Connection) :
    Prop :=
  Step http self ev self' ∧ ¬ self.Interrupts ev j k ∧
    (self'.EndedSince n k → HeaderSeen http (self'.stdOutSince n k))

/-- The request at `k` runs: if it ended, its END_REQUEST was processed, and its STDOUT is with
the call, or in its buffer. -/
def Accounts (http : Http) (n k : ℕ) (con : Connection) (call : Forward) : Prop :=
  ∃ unread ended, con.inner.inner.Running k unread ended ∧ (ended = true → con.EndedSince n k) ∧
    ParsedBy http (con.stdOutSince n k) unread call

/-- The request which the call at `j` inserted at `k`, and what was reported of it. -/
structure Truthful (http : Http) (max n j k : ℕ) (con : Connection) : Prop where
  slots : Slots max con
  since : n ≤ con.log.length
  spent : con.Spent j
  place : ∀ call k', con.calls[j]? = some call → Forward.key? call = some k' → k' = k
  running : ∀ call, con.calls[j]? = some call → Forward.key? call = some k →
    Accounts http n k con call
  done : ∀ body, con.calls[j]? = some (.returned body) → body.done = true → con.EndedSince n k

/-- An END_REQUEST stays processed. -/
theorem endedSince_append {recs : List Record} (hlog : self'.log = self.log ++ recs)
    (hn : n ≤ self.log.length) : self'.EndedSince n k ↔
      self.EndedSince n k ∨ ∃ rec ∈ recs, InnerConnection.EndOf k rec := by
  rw [EndedSince, EndedSince, hlog, List.drop_append_of_le_length hn]
  simp only [List.mem_append, or_and_right, exists_or]

/-- A step in which the call does not consume its buffer. -/
theorem Accounts.heard {call : Forward} {unread : Bytes} {ended : Bool}
    (hended : ended = true → self.EndedSince n k)
    (hparsed : ParsedBy http (self.stdOutSince n k) unread call) (hn : n ≤ self.log.length)
    (hcut : self.Loses ev → ended = true) (h : Heard self ev self' k unread ended) :
    Accounts http n k self' call := by
  obtain ⟨recs, ended', hlog, hrun', hend⟩ := h
  refine ⟨_, _, hrun', fun he => ?_, ?_⟩
  · rw [endedSince_append hlog hn]
    rcases hend he with he | hrec | hloses
    · exact Or.inl (hended he)
    · exact Or.inr hrec
    · exact Or.inl (hended (hcut hloses))
  · rw [stdOutSince_append hlog hn]
    exact hparsed.arrive _

/-- A request that is not cut off ended before the connection is lost. -/
theorem ended_of_loses {unread : Bytes} {ended : Bool} {call : Forward} (h : Slots max self)
    (hcall : self.calls[j]? = some call) (hkey : Forward.key? call = some k)
    (hcut : ¬ self.Interrupts ev j k) (hrun : self.inner.inner.Running k unread ended)
    (hloses : self.Loses ev) : ended = true := by
  obtain ⟨m, hq, hlive, -, rfl⟩ := hrun
  obtain ⟨m', hq', hp, -⟩ := h.owns j call k hcall hkey
  rw [hq] at hq'
  cases hq'
  by_contra hend
  exact hcut ⟨hloses, m, hq, hp, hlive, Bool.eq_false_iff.mpr hend⟩

/-- A poll that finds the request ended finds its END_REQUEST processed. -/
theorem endedSince_of_poll {sock : SocketRead} {cx : Waker} {ended : Bool}
    (hdrives : self.Drives ev sock cx)
    (hended : ended = true → self.EndedSince n k) (hn : n ≤ self.log.length)
    (hcut : self.Loses ev → ended = true)
    (hlog : self'.log = self.log ++ self.inner.inner.records sock cx)
    (he : (ended || decide (self.inner.inner.Ends sock cx k)) = true) : self'.EndedSince n k := by
  rw [endedSince_append hlog hn]
  rcases Bool.or_eq_true_iff.mp he with he | he
  · exact Or.inl (hended he)
  · rcases of_decide_eq_true he with hrec | hcl
    · exact Or.inr hrec
    · exact Or.inl (hended (hcut (Or.inr ⟨sock, cx, hdrives, hcl⟩)))

/-- A turn of `create_response`. -/
theorem Truthful.respond (h : Truthful http max n j k self) {rid : UInt16} {upload : Upload}
    {resp : Option CreateResponse} {sock : SocketRead} {cx : Waker}
    (hcall : self.calls[j]? = some (.exchanging rid upload resp))
    (hnext : self.nextRespond http j rid upload resp sock cx = .ok (some (self', eff)))
    (hcut : ¬ self.Interrupts (.respond j sock cx) j k)
    (hwhole : self'.EndedSince n k → HeaderSeen http (self'.stdOutSince n k)) :
    ∃ resp', self'.calls[j]? = some (.exchanging rid upload (some resp')) ∧
      Accounts http n k self' (.exchanging rid upload (some resp')) := by
  obtain ⟨hrid, hkey⟩ := (h.slots.open_ j _ hcall).key? rfl
  obtain rfl := h.place _ _ hcall hkey
  obtain ⟨unread, ended, hrun, hended, hparsed⟩ := h.running _ hcall hkey
  have hloses := ended_of_loses h.slots hcall hkey hcut hrun
  have hset : ∀ {call : Forward}, (self.calls.set j call)[j]? = some call :=
    List.getElem?_set_self (List.getElem?_eq_some_iff.mp hcall).1
  obtain ⟨resp₀, resp', inner, hresp₀, hpoll, hnext⟩ := nextRespond_ok hnext
  obtain ⟨-, hopen, hsome⟩ := responseOf_cases hresp₀ upload
  have hof := (hopen (h.slots.open_ j _ hcall)).2
  replace hparsed : Parsed http (self.stdOutSince n (rid.toNat - 1)) unread resp₀ := by
    rcases hsome with rfl | ⟨rfl, rfl⟩
    · exact hparsed
    · exact ⟨hparsed, rfl, nofun⟩
  cases resp₀ with
  | reading body buf rheaders =>
    obtain ⟨hbuf, rfl, hmore⟩ := hparsed
    obtain rfl : body = ⟨rid.toNat - 1, false, false⟩ := hof
    have hpolled : (Forward.exchanging rid upload resp).polled? =
        some ⟨rid.toNat - 1, false, false⟩ := by
      rcases hsome with rfl | ⟨rfl, -⟩ <;> rfl
    simp only at hnext
    obtain ⟨res, body', hframe, hcases⟩ := CreateResponse.poll_reading hpoll
    rcases FCGIBody.pollFrame_running rfl hrun hframe with
      ⟨hheld, rfl, rfl, rfl⟩ | ⟨hfree, unread', ended', hu', he', hframed⟩
    · -- the connection is locked
      rcases hcases with ⟨-, rfl⟩ | ⟨hres, -⟩ | ⟨b, hres, -⟩
      · rw [hearBody, if_neg (by simp [hheld])] at hnext
        subst hnext
        exact ⟨_, hset, unread, ended, hrun, hended, hbuf, rfl, hmore⟩
      · cases hres
      · cases hres
    · rw [hearBody, if_pos ⟨rfl, hfree⟩] at hnext
      subst hnext
      have hdrives : self.Drives (.respond j sock cx) sock cx :=
        Or.inr ⟨j, _, _, rfl, hcall, hpolled, rfl, hfree⟩
      have hend : ended' = true → ((self.hear j sock cx).move j
          (.exchanging rid upload (some resp')) inner eff).EndedSince n (rid.toNat - 1) := fun he =>
        endedSince_of_poll hdrives hended h.since hloses rfl (he' ▸ he)
      have hout : ((self.hear j sock cx).move j (.exchanging rid upload (some resp')) inner
          eff).stdOutSince n (rid.toNat - 1) = buf.getD [] ++ unread' := by
        rw [stdOutSince_append rfl h.since, ← hbuf, hu', List.append_assoc]
        rfl
      refine ⟨resp', hset, ?_⟩
      rcases hframed with ⟨rfl, rfl, hrun'⟩ | ⟨b, rest, rfl, rfl, hb, hrun'⟩ | ⟨b, -, -, hret, -⟩ |
          ⟨rfl, hnil, he, ⟨hret, -⟩ | ⟨-, rfl, hrun'⟩⟩
      · rcases hcases with ⟨-, rfl⟩ | ⟨hres, -⟩ | ⟨b, hres, -⟩
        · exact ⟨_, _, hrun', hend, hout.symm, rfl, hmore⟩
        · cases hres
        · cases hres
      · rcases hcases with ⟨hres, -⟩ | ⟨hres, -⟩ | ⟨b', hres, hreceive⟩
        · cases hres
        · cases hres
        · cases hres
          exact ⟨_, _, hrun', hend, parsed_receive hreceive (by rw [hout, hb])⟩
      · cases hret
      · cases hret
      · -- the request ended in front of its headers
        obtain ⟨hne, hseen⟩ := hwhole (hend he)
        rw [hout, hnil, List.append_nil] at hne hseen
        cases buf with
        | none => exact absurd rfl hne
        | some b => exact absurd (hmore b rfl) hseen
  | putting body bodydata rheaders =>
    subst hnext
    obtain rfl : body = ⟨rid.toNat - 1, false, false⟩ := hof
    refine ⟨resp', hset, ?_⟩
    rw [CreateResponse.poll] at hpoll
    cases hw : self.inner.waiters with
    | some q =>
      simp only [hw, Except.ok.injEq, Prod.mk.injEq] at hpoll
      obtain ⟨rfl, rfl, rfl⟩ := hpoll
      exact ⟨unread, ended, hrun, hended, hparsed⟩
    | none =>
      obtain ⟨m, hq, hlive, hbuf, hend⟩ := hrun
      simp only [hw, CreateResponse.putBack, hq, ok_bind, Except.ok.injEq, Prod.mk.injEq] at hpoll
      obtain ⟨rfl, rfl, rfl⟩ := hpoll
      refine ⟨unread ++ bodydata, ended, ⟨{ m with buf := m.buf.push bodydata }, ?_, hlive, ?_,
        hend⟩, hended, fun _ => hparsed⟩
      · show (self.inner.inner.runningRequests.set (rid.toNat - 1) _).get? _ = _
        rw [Slab.get?_set hq, if_pos rfl]
      · show (m.buf.push bodydata).flatten = _
        rw [BufList.flatten_push, hbuf]
  | returned body status rheaders =>
    subst hnext
    cases hpoll
    exact ⟨_, hset, unread, ended, hrun, hended, hparsed⟩

/-- The caller polls the body. -/
theorem Truthful.read (h : Truthful http max n j k self) {body : FCGIBody} {sock : SocketRead}
    {cx : Waker} (hcall : self.calls[j]? = some (.returned body))
    (hnext : self.nextRead j body sock cx = .ok (some (self', eff)))
    (hcut : ¬ self.Interrupts (.read j sock cx) j k) :
    ∃ body', self'.calls[j]? = some (.returned body') ∧
      (body'.done = false → body'.rid = k → Accounts http n k self' (.returned body')) ∧
      (body'.done = true → self'.EndedSince n k) := by
  have hset : ∀ {call : Forward}, (self.calls.set j call)[j]? = some call :=
    List.getElem?_set_self (List.getElem?_eq_some_iff.mp hcall).1
  obtain ⟨res, body', inner, hframe, hnext⟩ := nextRead_ok hnext
  cases hd : body.done with
  | true =>
    rw [hearBody, if_neg (by simp [hd])] at hnext
    subst hnext
    cases FCGIBody.pollFrame_framed hframe with
    | done => exact ⟨body, hset, fun hno => absurd hd (by simp [hno]), fun _ => h.done body hcall hd⟩
    | contended hno => exact absurd hd (by simp [hno])
    | served hno => exact absurd hd (by simp [hno])
  | false =>
    have hkey : (Forward.returned body).key? = some body.rid := Forward.key?_of_body? rfl hd
    obtain rfl := h.place _ _ hcall hkey
    obtain ⟨unread, ended, hrun, hended, -⟩ := h.running _ hcall hkey
    have hloses := ended_of_loses h.slots hcall hkey hcut hrun
    rcases FCGIBody.pollFrame_running hd hrun hframe with
      ⟨hheld, rfl, rfl, rfl⟩ | ⟨hfree, unread', ended', hu', he', hframed⟩
    · rw [hearBody, if_neg (by simp [hheld])] at hnext
      subst hnext
      exact ⟨_, hset, fun _ _ => ⟨unread, ended, hrun, hended, trivial⟩,
        fun hno => absurd hd (by simp [hno])⟩
    · rw [hearBody, if_pos ⟨hd, hfree⟩] at hnext
      subst hnext
      have hdrives : self.Drives (.read j sock cx) sock cx :=
        Or.inr ⟨j, _, _, rfl, hcall, rfl, hd, hfree⟩
      have hend : ended' = true → ((self.hear j sock cx).move j (.returned body') inner
          eff).EndedSince n body.rid := fun he =>
        endedSince_of_poll hdrives hended h.since hloses rfl (he' ▸ he)
      refine ⟨body', hset, ?_⟩
      rcases hframed with ⟨rfl, rfl, hrun'⟩ | ⟨b, rest, rfl, rfl, hb, hrun'⟩ |
          ⟨b, rfl, rfl, -, -, he⟩ | ⟨rfl, -, he, ⟨-, rfl⟩ | ⟨-, rfl, hrun'⟩⟩
      · exact ⟨fun _ _ => ⟨_, _, hrun', hend, trivial⟩, fun hno => absurd hd (by simp [hno])⟩
      · exact ⟨fun _ _ => ⟨_, _, hrun', hend, trivial⟩, fun hno => absurd hd (by simp [hno])⟩
      · exact ⟨fun hno => (by cases hno), fun _ => hend he⟩
      · exact ⟨fun hno => (by cases hno), fun _ => hend he⟩
      · exact ⟨fun _ _ => ⟨_, _, hrun', hend, trivial⟩, fun hno => absurd hd (by simp [hno])⟩

/-- A step of the call itself. -/
theorem Truthful.own (h : Truthful http max n j k self)
    (hs : WholeStep http n j k self ev self') (hev : ev.call? = some j) :
    ∃ call', self'.calls[j]? = some call' ∧
      (Forward.key? call' = some k → Accounts http n k self' call') ∧
      ∀ body, call' = .returned body → body.done = true → self'.EndedSince n k := by
  obtain ⟨⟨eff, hnext⟩, hcut, hwhole⟩ := hs
  obtain ⟨call, hcall, hno⟩ := h.spent
  have hset : ∀ {call' : Forward}, (self.calls.set j call')[j]? = some call' :=
    List.getElem?_set_self (List.getElem?_eq_some_iff.mp hcall).1
  -- the call goes on with its request, which stays as it is
  have hkeeps : ∀ {call' : Forward} {inner : Mutex InnerConnection}, call'.key? = call.key? →
      inner.inner = self.inner.inner → (∀ stdOut unread, ParsedBy http stdOut unread call →
        ParsedBy http stdOut unread call') → call'.key? = some k →
      Accounts http n k (self.move j call' inner .none) call' := by
    intro call' inner hkey hinner hparsed hk
    obtain ⟨unread, ended, hrun, hended, hp⟩ := h.running call hcall (hkey ▸ hk)
    exact ⟨unread, ended, hrun.of_get? (by rw [move, hinner]), hended, hparsed _ _ hp⟩
  -- a call with its permit has no request yet
  have hsame : ∀ {i : ℕ} {call' : Forward}, i = j → self.calls[i]? = some call' → call' = call :=
    fun hi hcall' => Option.some.inj ((hi ▸ hcall').symm.trans hcall)
  have hspent : ∀ {i : ℕ} {call' : Forward}, i = j → self.calls[i]? = some call' →
      Forward.HoldsPermit call' = true → False := by
    intro i call' hi hcall' hholds
    rw [hsame hi hcall', hno] at hholds
    cases hholds
  cases next_branch hnext with
  | acquire => cases hev
  | respond hcall' hrespond =>
    cases hev
    obtain ⟨resp', hcall', hacc⟩ := h.respond hcall' hrespond hcut hwhole
    exact ⟨_, hcall', fun _ => hacc, fun body hbody => by cases hbody⟩
  | read hcall' hread =>
    cases hev
    obtain ⟨body', hcall', hacc, hdone⟩ := h.read hcall' hread hcut
    refine ⟨_, hcall', fun hkey => ?_, ?_⟩
    · rw [Forward.key?, FCGIBody.key?] at hkey
      split at hkey
      · cases hkey
      · exact hacc (Bool.eq_false_iff.mpr ‹_›) (Option.some.inj hkey)
    · intro body hbody
      cases hbody
      exact hdone
  | @head _ _ res hcall' =>
    cases hev
    obtain rfl := hsame rfl hcall'
    refine ⟨_, hset, ?_, ?_⟩
    · cases res with
      | body => exact hkeeps rfl rfl fun _ _ hp => hp
      | noBody => exact hkeeps rfl rfl fun _ _ hp => hp
      | _ =>
        intro hkey
        cases hkey
    · intro body hbody
      cases res <;> cases hbody
  | @uploadLock _ _ resp hcall' =>
    cases hev
    obtain rfl := hsame rfl hcall'
    refine ⟨_, hset, hkeeps ?_ rfl fun _ _ hp => ?_, fun body hbody => by cases hbody⟩
    · cases resp <;> rfl
    · cases resp <;> exact hp
  | @upload _ _ resp res hcall' =>
    cases hev
    obtain rfl := hsame rfl hcall'
    refine ⟨_, hset, hkeeps ?_ rfl fun _ _ hp => ?_, ?_⟩
    · cases resp <;> cases res <;> rfl
    · cases resp <;> cases res <;> first | exact hp | trivial
    · intro body hbody
      cases res <;> cases hbody
  | @finish _ rid body status rheaders hcall' =>
    cases hev
    obtain rfl := hsame rfl hcall'
    obtain rfl : body = ⟨rid.toNat - 1, false, true⟩ := (h.slots.open_ j _ hcall).2
    refine ⟨_, hset, hkeeps rfl rfl fun _ _ _ => trivial, fun body hbody hd => ?_⟩
    cases hbody
    cases hd
  | drop =>
    cases hev
    exact ⟨_, hset, fun hkey => (by cases hkey), fun body hbody => by cases hbody⟩
  | dropUnpolled =>
    cases hev
    exact ⟨_, hset, fun hkey => (by cases hkey), fun body hbody => by cases hbody⟩
  | cancelSending =>
    cases hev
    exact ⟨_, hset, fun hkey => (by cases hkey), fun body hbody => by cases hbody⟩
  | @cancelUpload _ _ resp hcall' =>
    cases hev
    obtain rfl := hsame rfl hcall'
    refine ⟨_, hset, hkeeps ?_ rfl fun _ _ _ => trivial,
      fun body hbody => by cases hbody⟩
    cases resp <;> rfl
  | @cancelExchange _ _ _ resp hcall' =>
    cases hev
    obtain rfl := hsame rfl hcall'
    refine ⟨_, hset, hkeeps ?_ rfl fun _ _ _ => trivial,
      fun body hbody => by cases hbody⟩
    cases resp <;> rfl
  -- only a call with its permit makes the other steps
  | cancelLocked hcall' hholds => exact (hspent (Option.some.inj hev) hcall' hholds).elim
  | lock hcall' | check hcall' | shutdown hcall' | reconnect hcall' | unreachable hcall'
  | cancelWaiting hcall' => exact (hspent (Option.some.inj hev) hcall' rfl).elim

theorem Truthful.step (hmax : max < 2 ^ 16) (h : Truthful http max n j k self)
    (hs : WholeStep http n j k self ev self') : Truthful http max n j k self' := by
  obtain ⟨⟨eff, hnext⟩, hcut, -⟩ := id hs
  have hstep := next_stepped hnext
  obtain ⟨⟨recs, hlog⟩, -⟩ := hstep.grows
  obtain ⟨call, hcall, hno⟩ := id h.spent
  refine ⟨h.slots.step hmax hstep, by rw [hlog, List.length_append]; exact h.since.trans (Nat.le_add_right _ _),
    h.spent.step hstep, fun call' k' hcall' hkey => ?_, fun call' hcall' hkey => ?_,
    fun body hcall' hd => ?_⟩
  · exact h.place call k' hcall (hstep.key_back hcall hno hcall' hkey)
  · by_cases hev : ev.call? = some j
    · obtain ⟨call₁, hcall₁, hacc, -⟩ := h.own hs hev
      cases hcall'.symm.trans hcall₁
      exact hacc hkey
    · cases hcall'.symm.trans (calls_other hstep hev hcall)
      obtain ⟨unread, ended, hrun, hended, hparsed⟩ := h.running _ hcall hkey
      refine .heard hended hparsed h.since (ended_of_loses h.slots hcall hkey hcut hrun)
        (h.slots.heard_other hstep hrun fun i c hev' hc hk => hev ?_)
      rw [hev', h.slots.eq_of_key? hcall hc hkey hk]
  · by_cases hev : ev.call? = some j
    · obtain ⟨call₁, hcall₁, -, hdone⟩ := h.own hs hev
      cases hcall'.symm.trans hcall₁
      exact hdone body rfl hd
    · cases hcall'.symm.trans (calls_other hstep hev hcall)
      exact (endedSince_append hlog h.since).mpr (Or.inl (h.done body hcall hd))

/-! ## What is reported -/

/-- The request was just inserted at `k` by the call at `j`. -/
structure Inserted (con : Connection) (j k : ℕ) : Prop where
  call : ∃ rid, con.calls[j]? = some (.sending rid)
  entry : con.inner.inner.runningRequests.get? k = some (.new j)

/-- In the event the call at `j` polls its body, which returns `res`. -/
def Reports (self : Connection) (ev : Event) (j : ℕ) (res : FramePoll) : Prop :=
  ∃ sock cx call body body' inner eff, ev.poll? = some (j, sock, cx) ∧
    self.calls[j]? = some call ∧ Forward.polled? call = some body ∧
    body.pollFrame self.inner sock cx = .ok (res, body', inner, eff)

/-- In the event the connection is polled, and then the request at `k` is ended and has nothing
to return. -/
def Over (self : Connection) (ev : Event) (k : ℕ) : Prop :=
  ∃ sock cx res inner eff m, self.Drives ev sock cx ∧
    self.inner.inner.pollResp sock cx = .ok (res, inner, eff) ∧
    inner.runningRequests.get? k = some m ∧ m.ended = true ∧ m.buf.flatten = []

/-- A truncated response does not look complete: the body reports a clean end only behind the
END_REQUEST, and an error where the request is over without it; and a response with the default
status is handed over only with its headers. -/
structure TellsEnd (http : Http) (n j k : ℕ) (con : Connection) (ev : Event)
    (con' : Connection) : Prop where
  clean : con.Reports ev j (.ready none) → con'.EndedSince n k
  lost : ∀ res, con.Reports ev j res → con.Over ev k → ¬ con'.EndedSince n k →
    ∃ e, res = .ready (some (.error e))
  headers : ∀ rid upload body rheaders,
    con'.calls[j]? = some (.exchanging rid upload (some (.returned body 200 rheaders))) →
      HeadersOf http (con'.stdOutSince n k) rheaders

theorem Inserted.truthful {k : ℕ} (h : Slots max self) (hins : self.Inserted j k) :
    Truthful http max self.log.length j k self := by
  obtain ⟨⟨rid, hcall⟩, hentry⟩ := hins
  have hplace : ∀ call k', self.calls[j]? = some call → Forward.key? call = some k' → k' = k := by
    intro call k' hcall' hkey
    obtain ⟨m, hq, hp, -⟩ := h.owns j call k' hcall' hkey
    exact h.unique k' k m (.new j) hq hentry hp
  refine ⟨h, le_rfl, ⟨_, hcall, rfl⟩, hplace, fun call hcall' _ => ?_, fun body hcall' => ?_⟩
  · cases hcall.symm.trans hcall'
    refine ⟨[], false, ⟨_, hentry, rfl, rfl, rfl⟩, nofun, ?_⟩
    rw [stdOutSince, List.drop_length]
    rfl
  · cases hcall.symm.trans hcall'

/-- Only the caller polls a body that is done. -/
theorem Slots.returned_of_done (h : Slots max self) {call : Forward} {body : FCGIBody}
    (hcall : self.calls[j]? = some call) (hbody : Forward.polled? call = some body)
    (hd : body.done = true) : call = .returned body := by
  cases call with
  | exchanging rid upload resp =>
    have hof := h.open_ j _ hcall
    cases resp with
    | none =>
      cases hbody
      cases hd
    | some resp =>
      cases resp with
      | reading fcgibody buf rheaders =>
        cases hbody
        rw [show body = ⟨rid.toNat - 1, false, false⟩ from hof.2] at hd
        cases hd
      | _ => cases hbody
  | returned body₀ =>
    cases hbody
    rfl
  | _ => cases hbody

/-- A step behind a run in which the request was not cut off. -/
theorem Truthful.tells (hmax : max < 2 ^ 16) (h : Truthful http max n j k self)
    (hs : WholeStep http n j k self ev self') : TellsEnd http n j k self ev self' := by
  have h' := h.step hmax hs
  obtain ⟨⟨eff, hnext⟩, hcut, -⟩ := id hs
  obtain ⟨recs, hlog⟩ := (next_stepped hnext).grows.1
  refine ⟨?_, ?_, fun rid upload body rheaders hcall => ?_⟩
  · rintro ⟨sock, cx, call, body, body', inner, eff', hev, hcall, hbody, hframe⟩
    obtain ⟨res₁, body₁, inner₁, call', hframe₁, rfl⟩ := next_polls hnext hev hcall hbody
    rw [hframe] at hframe₁
    cases hframe₁
    cases hd : body.done with
    | true =>
      have hret := h.slots.returned_of_done hcall hbody hd
      exact (endedSince_append hlog h.since).mpr (Or.inl (h.done body (hret ▸ hcall) hd))
    | false =>
      have hkey := Forward.key?_of_body? (Forward.body?_of_polled? hbody) hd
      obtain rfl := h.place _ _ hcall hkey
      obtain ⟨unread, ended, hrun, hended, -⟩ := h.running _ hcall hkey
      rcases FCGIBody.pollFrame_running hd hrun hframe with
        ⟨-, hres, -⟩ | ⟨hfree, unread', ended', hu', he', hframed⟩
      · cases hres
      · rcases hframed with ⟨hres, -⟩ | ⟨b, rest, hres, -⟩ | ⟨b, hres, -⟩ | ⟨-, -, he, -⟩
        · cases hres
        · cases hres
        · cases hres
        · rw [hearBody, if_pos ⟨hd, hfree⟩]
          exact endedSince_of_poll (Or.inr ⟨j, _, _, hev, hcall, hbody, hd, hfree⟩) hended h.since
            (ended_of_loses h.slots hcall hkey hcut hrun) rfl (he' ▸ he)
  · rintro res ⟨sock, cx, call, body, body', inner, eff', hev, hcall, hbody, hframe⟩
      ⟨sock₁, cx₁, res₁, inner₁, eff₁, m, hdrives, hresp, hq, hend, -⟩ hno
    rcases id hdrives with ⟨i, key, rfl⟩ | ⟨i, call₁, body₁, hev₁, hcall₁, hbody₁, hd, hfree⟩
    · cases hev
    cases hev.symm.trans hev₁
    cases hcall.symm.trans hcall₁
    cases hbody.symm.trans hbody₁
    have hkey := Forward.key?_of_body? (Forward.body?_of_polled? hbody) hd
    obtain rfl := h.place _ _ hcall hkey
    obtain ⟨unread, ended, hrun, hended, -⟩ := h.running _ hcall hkey
    obtain ⟨m', hq', -, -, he⟩ := InnerConnection.pollResp_running hresp hrun
    cases hq.symm.trans hq'
    obtain ⟨res₂, body₂, inner₂, call₂, -, rfl⟩ := next_polls hnext hev hcall hbody
    rw [hearBody, if_pos ⟨hd, hfree⟩] at hno
    exact absurd (endedSince_of_poll hdrives hended h.since
      (ended_of_loses h.slots hcall hkey hcut hrun) rfl (he ▸ hend)) hno
  · have hkey := ((h'.slots.open_ j _ hcall).key? rfl).2
    obtain rfl := h'.place _ _ hcall hkey
    obtain ⟨unread, ended, -, -, hparsed⟩ := h'.running _ hcall hkey
    exact hparsed rfl

/-- **A response that is not cut off.** A call has just inserted its request, and any other
steps of it and other calls follow. As long as no step loses the connection while the request is
neither ended nor aborted, and its END_REQUEST does not come in front of its headers, every step
tells the end of the response as it is. -/
theorem whole_truthful {evs₀ : List Event} {s₀ : Connection}
    (hruns : Runs http maxReqPerCon evs₀ s₀) (hins : s₀.Inserted j k)
    (hrun : Run (WholeStep http s₀.log.length j k) s₀ evs self)
    (hs : WholeStep http s₀.log.length j k self ev self') :
    TellsEnd http s₀.log.length j k self ev self' := by
  have hmax := maxReqPerCon.toNat_lt
  have hstart := (hins.truthful (slots_run hruns) : Truthful http _ _ _ _ _)
  exact (hrun.inv (I := Truthful http maxReqPerCon.toNat s₀.log.length j k) hstart
    fun _ _ _ h hs => h.step hmax hs).tells hmax hs

/-! ## Two runs -/

/-- A call inserts its request. -/
def inserting : List Event := [.acquire, .lock 0, .check 0 .pending 7 0]

/-- The application answers with a header block of one byte, and ends the request. -/
def answer : Bytes :=
  WireRecord.encode { InnerConnection.greeting with content := [65], content_le := by decide } ++
    WireRecord.encode { endTwo with requestId := 1 }

/-- A step that does not poll the connection does not lose it, except for its shutdown. -/
theorem not_loses (hev : ev.poll? = none) (hcheck : ∀ i sock cx key, ev ≠ .check i sock cx key)
    (hshut : ∀ i, ev ≠ .shutdown i) : ¬ self.Loses ev := by
  rintro (⟨i, h⟩ | ⟨sock, cx, ⟨i, key, h⟩ | ⟨i, call, body, h, -⟩, -⟩)
  · exact hshut i h
  · exact hcheck i sock cx key h
  · rw [hev] at h
    cases h

/-- A turn that finds the connection open does not lose it. -/
theorem not_loses_poll {i : ℕ} {sock : SocketRead} {cx : Waker}
    (hev : ev.poll? = some (i, sock, cx)) (hno : ¬ self.inner.inner.Closes sock cx) :
    ¬ self.Loses ev := by
  rintro (⟨i', rfl⟩ | ⟨sock', cx', ⟨i', key, rfl⟩ | ⟨i', call, body, h, -⟩, hcl⟩)
  · cases hev
  · cases hev
  · cases hev.symm.trans h
    exact hno hcl

/-- The request ends with its END_REQUEST, and the caller reads its end. -/
theorem whole_truthful_answer : ∃ evs₀ s₀ evs self self',
    Runs (onlyBlock [65]) 2 evs₀ s₀ ∧ s₀.Inserted 0 0 ∧
    Run (WholeStep (onlyBlock [65]) s₀.log.length 0 0) s₀ evs self ∧
    Step (onlyBlock [65]) self (.read 0 .pending 7) self' ∧
    self.Reports (.read 0 .pending 7) 0 (.ready none) ∧ self'.EndedSince s₀.log.length 0 := by
  have hcomp : ((replay (tick (onlyBlock [65])) (connect 2) inserting).bind fun s₀ =>
      (tick (onlyBlock [65]) s₀ (.head 0 .noBody)).bind fun s₁ =>
      (tick (onlyBlock [65]) s₁ (.respond 0 (.ready answer) 7)).bind fun s₂ =>
      (tick (onlyBlock [65]) s₂ (.finish 0)).bind fun s₃ =>
      (tick (onlyBlock [65]) s₃ (.read 0 .pending 7)).map fun s₄ =>
        decide ((s₀.calls = [.sending 1] ∧
            s₀.inner.inner.runningRequests.get? 0 = some (.new 0) ∧ s₀.log = []) ∧
          (¬ s₁.EndedSince 0 0 ∧ ¬ s₁.inner.inner.Closes (.ready answer) 7) ∧
          (s₂.stdOutSince 0 0 = [65] ∧ s₃.stdOutSince 0 0 = [65] ∧ s₄.stdOutSince 0 0 = [65]) ∧
          s₃.calls = [.returned ⟨0, false, true⟩] ∧ ¬ s₃.inner.inner.Closes .pending 7 ∧
          (FCGIBody.pollFrame ⟨0, false, true⟩ s₃.inner .pending 7).toOption.map Prod.fst =
            some (.ready none))) = some true := by
    decide +kernel
  obtain ⟨s₀, h₀, hcomp⟩ := Option.bind_eq_some_iff.mp hcomp
  obtain ⟨s₁, h₁, hcomp⟩ := Option.bind_eq_some_iff.mp hcomp
  obtain ⟨s₂, h₂, hcomp⟩ := Option.bind_eq_some_iff.mp hcomp
  obtain ⟨s₃, h₃, hcomp⟩ := Option.bind_eq_some_iff.mp hcomp
  obtain ⟨s₄, h₄, hcomp⟩ := Option.map_eq_some_iff.mp hcomp
  obtain ⟨⟨hcalls, hentry, hlog⟩, ⟨hend₁, hcl₁⟩, ⟨hout₂, hout₃, hout₄⟩, hcalls₃, hcl₃, hframe⟩ :=
    of_decide_eq_true hcomp
  have hn : s₀.log.length = 0 := by rw [hlog]; rfl
  have hins : s₀.Inserted 0 0 := ⟨⟨1, by rw [hcalls]; rfl⟩, hentry⟩
  have hseen : HeaderSeen (onlyBlock [65]) [65] := ⟨by decide, by decide⟩
  have hruns : Runs (onlyBlock [65]) 2 inserting s₀ := run_of_replay step_of_tick _ h₀
  have hhead : ¬ s₀.Loses (.head 0 .noBody) := not_loses rfl nofun nofun
  have hfinish : ¬ s₂.Loses (.finish 0) := not_loses rfl nofun nofun
  have hrun : Run (WholeStep (onlyBlock [65]) s₀.log.length 0 0) s₀
      ([.head 0 .noBody] ++ [.respond 0 (.ready answer) 7] ++ [.finish 0]) s₃ := by
    rw [hn]
    exact .snoc (.snoc (.snoc .nil
      ⟨step_of_tick _ _ _ h₁, fun h => hhead h.1, fun h => absurd h hend₁⟩)
      ⟨step_of_tick _ _ _ h₂, fun h => not_loses_poll rfl hcl₁ h.1, fun _ => hout₂ ▸ hseen⟩)
      ⟨step_of_tick _ _ _ h₃, fun h => hfinish h.1, fun _ => hout₃ ▸ hseen⟩
  have hlast : WholeStep (onlyBlock [65]) s₀.log.length 0 0 s₃ (.read 0 .pending 7) s₄ := by
    rw [hn]
    exact ⟨step_of_tick _ _ _ h₄, fun h => not_loses_poll rfl hcl₃ h.1, fun _ => hout₄ ▸ hseen⟩
  have hreports : s₃.Reports (.read 0 .pending 7) 0 (.ready none) := by
    rcases hpoll : FCGIBody.pollFrame ⟨0, false, true⟩ s₃.inner .pending 7 with
      e | ⟨res, body', inner, eff⟩
    · rw [hpoll] at hframe
      cases hframe
    · rw [hpoll] at hframe
      obtain rfl : res = .ready none := Option.some.inj hframe
      exact ⟨.pending, 7, _, _, body', inner, eff, rfl, by rw [hcalls₃]; rfl, rfl, hpoll⟩
  exact ⟨inserting, s₀, _, s₃, s₄, hruns, hins, hrun, hlast.1, hreports,
    (whole_truthful hruns hins hrun hlast).clean hreports⟩

/-- The connection ends before anything of the response came: the body ends cleanly, and the
response is handed over with the status 200. -/
theorem whole_truthful_truncated : ¬ ∀ http maxReqPerCon evs₀ s₀ evs self ev self' j k,
    Runs http maxReqPerCon evs₀ s₀ → s₀.Inserted j k → Run (Step http) s₀ evs self →
      Step http self ev self' → TellsEnd http s₀.log.length j k self ev self' := by
  intro h
  have hcomp : ((replay (tick (onlyBlock [65])) (connect 2) inserting).bind fun s₀ =>
      (tick (onlyBlock [65]) s₀ (.head 0 .noBody)).bind fun s₁ =>
      (tick (onlyBlock [65]) s₁ (.respond 0 (.ready []) 7)).map fun s₂ =>
        decide ((s₀.calls = [.sending 1] ∧
            s₀.inner.inner.runningRequests.get? 0 = some (.new 0) ∧ s₀.log = []) ∧
          s₁.calls = [.exchanging 1 .done none] ∧
          (FCGIBody.pollFrame ⟨0, false, false⟩ s₁.inner (.ready []) 7).toOption.map Prod.fst =
            some (.ready none) ∧ s₂.log = [])) = some true := by
    decide +kernel
  obtain ⟨s₀, h₀, hcomp⟩ := Option.bind_eq_some_iff.mp hcomp
  obtain ⟨s₁, h₁, hcomp⟩ := Option.bind_eq_some_iff.mp hcomp
  obtain ⟨s₂, h₂, hcomp⟩ := Option.map_eq_some_iff.mp hcomp
  obtain ⟨⟨hcalls, hentry, hlog⟩, hcalls₁, hframe, hlog₂⟩ := of_decide_eq_true hcomp
  have htells := h _ _ _ _ _ _ _ _ 0 0 (run_of_replay step_of_tick _ h₀)
    ⟨⟨1, by rw [hcalls]; rfl⟩, hentry⟩ (.snoc .nil (step_of_tick _ _ _ h₁)) (step_of_tick _ _ _ h₂)
  have hreports : s₁.Reports (.respond 0 (.ready []) 7) 0 (.ready none) := by
    rcases hpoll : FCGIBody.pollFrame ⟨0, false, false⟩ s₁.inner (.ready []) 7 with
      e | ⟨res, body', inner, eff⟩
    · rw [hpoll] at hframe
      cases hframe
    · rw [hpoll] at hframe
      obtain rfl : res = .ready none := Option.some.inj hframe
      exact ⟨.ready [], 7, _, _, body', inner, eff, rfl, by rw [hcalls₁]; rfl, rfl, hpoll⟩
  obtain ⟨rec, hmem, -⟩ := htells.clean hreports
  rw [hlog₂, List.drop_nil] at hmem
  cases hmem

end Connection

end AsyncFcgi
