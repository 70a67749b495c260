import AsyncFcgi.Client.Slots
import AsyncFcgi.Client.Turn

/-!
# Stored wakers (`src/client/connection.rs`)

A waker in the table of requests belongs to a body that found nothing. `parse_and_distribute` and
`notify_everyone` call it when they change that; `create_response`, which pushes the rest of a
frame back, does not, and need not: between the frame and the push nobody else stores one.

* `Stored.step`: every step keeps `Stored`, with or without a waker.
* `waker_waits`: where a waker is stored, and when it is called.
-/

namespace AsyncFcgi

open Lib

namespace InnerConnection

/-- Behind a call of `poll_resp`, an entry is as it was, or has no waker. -/
theorem pollResp_spares {self self' : InnerConnection} {sock : SocketRead} {cx : Waker}
    {res : Poll (Option (Except IoError Unit))} {eff : Effects}
    (h : self.pollResp sock cx = .ok (res, self', eff)) {key : ℕ} {mpxs' : FCGIRequest}
    (hq' : self'.runningRequests.get? key = some mpxs') :
    mpxs'.waker = none ∨ self.runningRequests.get? key = some mpxs' := by
  obtain ⟨mpxs, hq, -⟩ := (driven_pollResp h).back key mpxs' hq'
  by_cases ha : self.Answers sock cx key mpxs.aborted
  · exact Or.inl ((pollResp_answers h hq ha).1 mpxs' hq').2
  · rcases pollResp_unanswered h hq ha with hkeep | ⟨-, hkeep⟩
    · rw [hq'] at hkeep
      cases hkeep
      exact Or.inr hq
    · rw [hq'] at hkeep
      cases hkeep
      exact Or.inl rfl

end InnerConnection

namespace Connection

variable {http : Http} {maxReqPerCon : UInt16} {max : ℕ} {evs : List Event}
  {self self' : Connection} {ev : Event} {eff : Effects} {j k : ℕ} {rid : UInt16}
  {upload : Upload} {body : FCGIBody} {bodydata : Bytes} {rheaders : HeaderMap}

/-- A turn of `create_response` behind which bytes are to be pushed back. -/
theorem respond_putting {sock : SocketRead} {cx : Waker} {resp : Option CreateResponse}
    {upload' : Upload} (hcall : self.calls[j]? = some (.exchanging rid upload resp))
    (h : self.nextRespond http j rid upload resp sock cx = .ok (some (self', eff)))
    (hput : self'.calls[j]? =
      some (.exchanging rid upload' (some (.putting body bodydata rheaders)))) :
    resp = some (.putting body bodydata rheaders) ∨
      ∃ (body₀ : FCGIBody) (b : Bytes), body₀.pollFrame self.inner sock cx =
          .ok (.ready (some (.ok b)), body, self'.inner, eff) ∧ bodydata ≠ [] := by
  obtain ⟨resp₀, resp', inner, hresp₀, hpoll, rfl⟩ := nextRespond_ok h
  obtain ⟨-, -, hsome⟩ := responseOf_cases hresp₀ upload
  have hlt := (List.getElem?_eq_some_iff.mp hcall).1
  cases resp₀ with
  | reading body₀ left rheaders₀ =>
    simp only [move, hearBody_calls, List.getElem?_set_self hlt, Option.some.injEq,
      Forward.exchanging.injEq, true_and] at hput
    obtain ⟨-, rfl⟩ := hput
    obtain ⟨res, body₁, hframe, ⟨-, hcases⟩ | ⟨-, hcases⟩ | ⟨b, rfl, hreceive⟩⟩ :=
      CreateResponse.poll_reading hpoll
    · cases hcases
    · cases hcases
    · obtain ⟨rfl, hne⟩ := CreateResponse.receive_putting hreceive
      exact Or.inr ⟨body₀, b, hframe, hne⟩
  | putting body₀ bodydata₀ rheaders₀ =>
    simp only [move, List.getElem?_set_self hlt, Option.some.injEq, Forward.exchanging.injEq,
      true_and] at hput
    obtain ⟨-, rfl⟩ := hput
    rw [CreateResponse.poll] at hpoll
    split at hpoll
    · cases hpoll
      rcases hsome with rfl | ⟨-, hnew⟩
      · exact Or.inl rfl
      · cases hnew
    · obtain ⟨inner₁, -, hpoll⟩ := bind_eq_ok.mp hpoll
      cases hpoll
  | returned body₀ status rheaders₀ =>
    simp only [move, List.getElem?_set_self hlt, Option.some.injEq, Forward.exchanging.injEq,
      true_and] at hput
    obtain ⟨-, rfl⟩ := hput
    cases hpoll

/-- A call that is about to push bytes back was so before, or its poll got a frame. -/
theorem next_putting (h : self.next http ev = .ok (some (self', eff)))
    (hput : self'.calls[j]? =
      some (.exchanging rid upload (some (.putting body bodydata rheaders)))) :
    (∃ upload₀, self.calls[j]? =
        some (.exchanging rid upload₀ (some (.putting body bodydata rheaders)))) ∨
      ∃ (sock : SocketRead) (cx : Waker) (body₀ : FCGIBody) (b : Bytes),
        body₀.pollFrame self.inner sock cx =
          .ok (.ready (some (.ok b)), body, self'.inner, eff) ∧ bodydata ≠ [] := by
  by_cases hev : ev.call? = some j
  · rcases next_turn h with ⟨rfl, -⟩ | ⟨i, call, call', hev', hcall, hcalls, hturn⟩
    · cases hev
    obtain rfl : j = i := Option.some.inj (hev.symm.trans hev')
    have hcall' := hput
    rw [hcalls, List.getElem?_set_self (List.getElem?_eq_some_iff.mp hcall).1,
      Option.some.injEq] at hcall'
    generalize hgoal : Forward.exchanging rid upload _ = goal at hcall'
    cases hturn with
    | head => rename_i res; cases res <;> cases hcall' <;> cases hgoal
    | uploadLock =>
      cases hcall'
      cases hgoal
      exact Or.inl ⟨_, hcall⟩
    | @upload _ _ _ res =>
      cases res <;> cases hcall' <;> cases hgoal <;> exact Or.inl ⟨_, hcall⟩
    | @respond _ sock cx rid₀ upload₀ resp =>
      cases hcall'
      cases hgoal
      cases hev
      simp only [next, hcall] at h
      rcases respond_putting hcall h hput with rfl | ⟨body₀, b, hframe, hne⟩
      · exact Or.inl ⟨_, hcall⟩
      · exact Or.inr ⟨sock, cx, body₀, b, hframe, hne⟩
    | _ => cases hcall'; cases hgoal
  · rcases next_turn h with ⟨-, hcalls⟩ | ⟨i, call, call', hev', hcall, hcalls, -⟩
    · rw [hcalls, List.getElem?_append] at hput
      split at hput
      · exact Or.inl ⟨_, hput⟩
      · cases List.mem_singleton.mp (List.mem_of_getElem? hput)
    · have hij : i ≠ j := fun hij => hev (hij ▸ hev')
      rw [hcalls, List.getElem?_set_ne hij] at hput
      exact Or.inl ⟨_, hput⟩

/-- A waker is stored for requests that wait; and none for a request to which bytes are to be
pushed back. -/
structure Stored (con : Connection) : Prop where
  waits : ∀ k m w, con.inner.inner.runningRequests.get? k = some m → m.waker = some w →
    m.Waits ∧ m.aborted = false
  putting : ∀ (j : ℕ) rid upload body bodydata rheaders m,
    con.calls[j]? = some (.exchanging rid upload (some (.putting body bodydata rheaders))) →
    con.inner.inner.runningRequests.get? body.rid = some m → m.waker = none

theorem stored_connect (maxReqPerCon : UInt16) : Stored (connect maxReqPerCon) where
  waits _ _ _ h := by simp [connect, InnerConnection.fresh] at h
  putting _ _ _ _ _ _ _ h := by simp [connect] at h

/-- The call at `j` polls the body of the request at `k`. -/
def PollsAt (self : Connection) (ev : Event) (k : ℕ) : Prop :=
  ∃ (j : ℕ) (call : Forward) (body : FCGIBody), ev.call? = some j ∧ self.calls[j]? = some call ∧
    call.polled? = some body ∧ body.done = false ∧ body.rid = k

/-- Behind a call of `poll_resp`, an entry with bytes has no waker. -/
theorem Stored.waker_of_bytes (hst : Stored self) {sock : SocketRead} {cx : Waker}
    {r : Poll (Option (Except IoError Unit))} {inner : InnerConnection} {eff₁ : Effects}
    (hr : self.inner.inner.pollResp sock cx = .ok (r, inner, eff₁)) {m : FCGIRequest}
    (hq : inner.runningRequests.get? k = some m) (hrem : 0 < m.buf.remaining) :
    m.waker = none := by
  rcases InnerConnection.pollResp_spares hr hq with hnone | hsame
  · exact hnone
  · cases hw : m.waker with
    | none => rfl
    | some w =>
      have hnil := (hst.waits _ _ w hsame hw).1.1
      rw [BufList.remaining_eq, hnil] at hrem
      cases hrem

/-- An entry behind a step: it has no waker, or is as it was, or its own body found nothing. -/
theorem Stored.entry (h : Slots max self) (hst : Stored self) (hs : Stepped self ev self' eff)
    {m' : FCGIRequest} (hq' : self'.inner.inner.runningRequests.get? k = some m') :
    m'.waker = none ∨ self.inner.inner.runningRequests.get? k = some m' ∨
      (m'.Waits ∧ m'.aborted = false ∧ self.PollsAt ev k) := by
  have hresp : ∀ {sock cx r inner eff₁},
      self.inner.inner.pollResp sock cx = .ok (r, inner, eff₁) →
      inner.runningRequests.get? k = some m' → m'.waker = none ∨
        self.inner.inner.runningRequests.get? k = some m' ∨
          (m'.Waits ∧ m'.aborted = false ∧ self.PollsAt ev k) := fun hresp hq =>
    (InnerConnection.pollResp_spares hresp hq).imp_right Or.inl
  cases hs with
  | acquired hsem => exact Or.inr (Or.inl hq')
  | moved hev hcall hmoves _ hinner => exact Or.inr (Or.inl (hinner ▸ hq'))
  | gaveUp hev hcall hholds _ hinner => exact Or.inr (Or.inl (hinner ▸ hq'))
  | refused hcall hr => exact hresp hr hq'
  | dead hcall hr => exact hresp hr hq'
  | @alive j _ _ key _ inner _ hcall hr hres hcan =>
    replace hq' : (inner.runningRequests.insertAt key (.new j)).get? k = some m' := hq'
    rw [Slab.get?_insertAt hcan] at hq'
    split at hq'
    · cases hq'
      exact Or.inl rfl
    · exact hresp hr hq'
  | notified hcall =>
    obtain ⟨m, -, rfl⟩ := Option.map_eq_some_iff.mp
      ((InnerConnection.get?_notifyEveryone _ k).symm.trans hq')
    left
    unfold InnerConnection.notify
    split <;> rfl
  | @reconnected j key hcall hcan =>
    replace hq' : (self.inner.inner.runningRequests.insertAt key (.new j)).get? k = some m' := hq'
    rw [Slab.get?_insertAt hcan] at hq'
    split at hq'
    · cases hq'
      exact Or.inl rfl
    · exact Or.inr (Or.inl hq')
  | @framed _ j sock cx call call' body body' _ inner₁ eff₁ _ inner₂ eff₂ hev hcall hpolls hd hfree
      hr hserved hturn hbody =>
    replace hq' : inner₂.runningRequests.get? k = some m' := hq'
    obtain ⟨⟨m₁, hq₁, -, hlive⟩, -⟩ := h.driven_framed hcall (hpolls.key_rid hd) hr hserved
    have hother : ∀ {t : Slab FCGIRequest}, t.get? k =
        (if k = body.rid then none else inner₁.runningRequests.get? k) → t.get? k = some m' →
        inner₁.runningRequests.get? k = some m' := by
      intro t hget hq
      rw [hget] at hq
      split at hq
      · cases hq
      · exact hq
    cases hserved with
    | vanished hq => cases hq₁.symm.trans hq
    | @frame slab front rest hq hbuf hrem hkeep =>
      rw [Slab.get?_set hq] at hq'
      split at hq'
      · have hnone := hst.waker_of_bytes hr hq hrem
        cases hq'
        exact Or.inl hnone
      · exact hresp hr hq'
    | last => exact hresp hr (hother (Slab.get?_remove _ _ _) hq')
    | finished => exact hresp hr (hother (Slab.get?_remove _ _ _) hq')
    | early => exact hresp hr hq'
    | @waits slab hq hbuf hend =>
      rw [Slab.get?_set hq] at hq'
      split at hq'
      · rename_i hk
        cases hq'
        cases hq₁.symm.trans hq
        exact Or.inr (Or.inr ⟨⟨hbuf, hend⟩, hlive, j, call, body, hev, hcall, hbody, hd, hk.symm⟩)
      · exact hresp hr hq'
  | @putBack _ _ _ _ _ body bodydata _ mpxs _ hcall hfree hq =>
    replace hq' : (self.inner.inner.runningRequests.set body.rid
      { mpxs with buf := mpxs.buf.push bodydata }).get? k = some m' := hq'
    rw [Slab.get?_set hq] at hq'
    split at hq'
    · cases hq'
      exact Or.inl (hst.putting _ _ _ _ _ _ mpxs hcall hq)
    · exact Or.inr (Or.inl hq')
  | @dropped _ _ body mpxs hcall hholds _ hkey hfree hq =>
    replace hq' : (self.inner.inner.runningRequests.set body.rid
      { mpxs with aborted := true, waker := none }).get? k = some m' := hq'
    rw [Slab.get?_set hq] at hq'
    split at hq'
    · cases hq'
      exact Or.inl rfl
    · exact Or.inr (Or.inl hq')

/-- One step. -/
theorem Stored.step (h : Slots max self) (hst : Stored self)
    (hnext : self.next http ev = .ok (some (self', eff))) : Stored self' where
  waits k m w hq hw := by
    rcases hst.entry h (next_stepped hnext) hq with hnone | hsame | ⟨hwaits, hlive, -⟩
    · cases hnone.symm.trans hw
    · exact hst.waits k m w hsame hw
    · exact ⟨hwaits, hlive⟩
  putting j rid upload body bodydata rheaders m hput hq := by
    rcases next_putting hnext hput with ⟨upload₀, hcall⟩ | ⟨sock, cx, body₀, b, hframe, -⟩
    · rcases hst.entry h (next_stepped hnext) hq with
        hnone | hsame | ⟨-, -, i, call, body', -, hcall', hpolled, hd, hrid⟩
      · exact hnone
      · exact hst.putting j rid upload₀ body bodydata rheaders m hcall hsame
      · -- only the own call polls the body, and it is about to push
        have hkey := h.putting_key hcall
        have hkey' := Forward.key?_of_body? (Forward.body?_of_polled? hpolled) hd
        obtain rfl := h.eq_of_key? hcall hcall' hkey (hrid ▸ hkey')
        cases hcall.symm.trans hcall'
        cases hpolled
    · generalize hres : Poll.ready (some (Except.ok b)) = res at hframe
      generalize self'.inner = inner' at hframe hq
      cases FCGIBody.pollFrame_framed hframe with
      | done => cases hres
      | contended => cases hres
      | served hd hfree hr hserved =>
        cases hserved with
        | @frame slab front rest hq₁ hbuf hrem hkeep =>
          have hnone := hst.waker_of_bytes hr hq₁ hrem
          rw [Slab.get?_set hq₁, if_pos rfl] at hq
          cases hq
          exact hnone
        | last hq₁ =>
          rw [Slab.get?_remove, if_pos rfl] at hq
          cases hq
        | _ => cases hres

/-- A step behind which a request with a waker does not wait any more has called it. -/
theorem Stored.wakes (hst : Stored self) (hs : Stepped self ev self' eff)
    {m m' : FCGIRequest} {w : Waker} (hq : self.inner.inner.runningRequests.get? k = some m)
    (hw : m.waker = some w) (hq' : self'.inner.inner.runningRequests.get? k = some m')
    (hout : ¬ m'.Waits) : w ∈ eff.woken := by
  obtain ⟨hwaits, hlive⟩ := hst.waits k m w hq hw
  have hsame : ∀ {t : Slab FCGIRequest}, t.get? k = some m → t.get? k = some m' → False := by
    intro t ht ht'
    rw [ht] at ht'
    cases ht'
    exact hout hwaits
  have hresp : ∀ {sock cx r inner eff₁},
      self.inner.inner.pollResp sock cx = .ok (r, inner, eff₁) →
      w ∈ eff₁.woken ∨ inner.runningRequests.get? k = some m := by
    intro sock cx r inner eff₁ hr
    by_cases ha : self.inner.inner.Answers sock cx k m.aborted
    · exact Or.inl ((InnerConnection.pollResp_answers hr hq ha).2 w hw)
    · rcases InnerConnection.pollResp_unanswered hr hq ha with hkeep | ⟨hab, -⟩
      · exact Or.inr hkeep
      · cases hlive.symm.trans hab
  have hinsert : ∀ {t : Slab FCGIRequest} {key j : ℕ}, t.CanInsert key → t.get? k = some m →
      (t.insertAt key (.new j)).get? k = some m' → False := by
    intro t key j hcan ht ht'
    rw [Slab.get?_insertAt hcan] at ht'
    split at ht'
    · rename_i hk
      rw [hk, Slab.get?_of_canInsert hcan] at ht
      cases ht
    · exact hsame ht ht'
  cases hs with
  | acquired hsem => exact (hsame hq hq').elim
  | moved hev hcall hmoves _ hinner => exact (hsame hq (hinner ▸ hq')).elim
  | gaveUp hev hcall hholds _ hinner => exact (hsame hq (hinner ▸ hq')).elim
  | refused hcall hr =>
    exact (hresp hr).elim (List.mem_append_left _) fun hkeep => (hsame hkeep hq').elim
  | dead hcall hr => exact (hresp hr).elim id fun hkeep => (hsame hkeep hq').elim
  | alive hcall hr hres hcan =>
    exact (hresp hr).elim id fun hkeep => (hinsert hcan hkeep hq').elim
  | notified hcall => exact InnerConnection.mem_woken_notifyEveryone hq hw
  | reconnected hcall hcan => exact (hinsert hcan hq hq').elim
  | @framed _ j sock cx call call' body body' _ inner₁ eff₁ _ inner₂ eff₂ hev hcall hpolls hd hfree
      hr hserved hturn hbody =>
    rcases hresp hr with hwoken | hkeep
    · exact List.mem_append_left _ hwoken
    · -- nothing was read for it, and its own body finds nothing
      exfalso
      replace hq' : inner₂.runningRequests.get? k = some m' := hq'
      by_cases hk : k = body.rid
      · subst hk
        cases hserved with
        | vanished hq₁ => cases hkeep.symm.trans hq₁
        | frame hq₁ hbuf hrem =>
          cases hkeep.symm.trans hq₁
          rw [BufList.remaining_eq, hwaits.1] at hrem
          cases hrem
        | last => simp at hq'
        | finished => simp at hq'
        | early hq₁ hbuf hend =>
          cases hkeep.symm.trans hq₁
          cases hwaits.2.symm.trans hend
        | waits hq₁ hbuf hend =>
          rw [Slab.get?_set hq₁, if_pos rfl] at hq'
          cases hq'
          exact hout ⟨hbuf, hend⟩
      · exact hsame hkeep ((hserved.other hk).symm.trans hq')
  | @putBack _ _ _ _ _ body bodydata _ mpxs _ hcall hfree hq₁ =>
    exfalso
    replace hq' : (self.inner.inner.runningRequests.set body.rid
      { mpxs with buf := mpxs.buf.push bodydata }).get? k = some m' := hq'
    rw [Slab.get?_set hq₁] at hq'
    split at hq'
    · rename_i hk
      rw [hk, hq₁] at hq
      cases hq
      cases (hst.putting _ _ _ _ _ _ m hcall hq₁).symm.trans hw
    · exact hsame hq hq'
  | @dropped _ _ body mpxs hcall hholds _ hkey hfree hq₁ =>
    exfalso
    replace hq' : (self.inner.inner.runningRequests.set body.rid
      { mpxs with aborted := true, waker := none }).get? k = some m' := hq'
    rw [Slab.get?_set hq₁] at hq'
    split at hq'
    · rename_i hk
      rw [hk, hq₁] at hq
      cases hq
      cases hq'
      exact hout hwaits
    · exact hsame hq hq'

theorem stored_run (hrun : Runs http maxReqPerCon evs self) : Stored self := by
  have hboth : Slots maxReqPerCon.toNat self ∧ Stored self := by
    refine hrun.inv (I := fun s => Slots maxReqPerCon.toNat s ∧ Stored s)
      ⟨slots_connect maxReqPerCon, stored_connect maxReqPerCon⟩ ?_
    rintro s ev s' ⟨h, hst⟩ ⟨eff, hnext⟩
    exact ⟨h.step maxReqPerCon.toNat_lt (next_stepped hnext), hst.step h hnext⟩
  exact hboth.2

/-- **A stored waker means that there is nothing to deliver.** In every reachable state, a
request with a waker has an empty buffer and is neither ended nor aborted; and a step that gives
such a request bytes or its end calls the waker. -/
theorem waker_waits (hrun : Runs http maxReqPerCon evs self) :
    (∀ k m w, self.inner.inner.runningRequests.get? k = some m → m.waker = some w →
      m.buf.flatten = [] ∧ m.ended = false ∧ m.aborted = false) ∧
    ∀ ev self' eff, self.next http ev = .ok (some (self', eff)) → ∀ k m w m',
      self.inner.inner.runningRequests.get? k = some m → m.waker = some w →
      self'.inner.inner.runningRequests.get? k = some m' →
      m'.buf.flatten ≠ [] ∨ m'.ended = true → w ∈ eff.woken := by
  have hst := stored_run hrun
  refine ⟨fun k m w hq hw => ?_, fun ev self' eff hnext k m w m' hq hw hq' hout => ?_⟩
  · obtain ⟨⟨hbuf, hend⟩, hlive⟩ := hst.waits k m w hq hw
    exact ⟨hbuf, hend, hlive⟩
  · refine hst.wakes (next_stepped hnext) hq hw hq' ?_
    rintro ⟨hbuf, hend⟩
    rcases hout with hne | hended
    · exact hne hbuf
    · cases hend.symm.trans hended

/-- The first of two calls waits for its response, with its waker in the entry. -/
theorem waker_waits_twoCalls : ∃ self m, Runs (onlyBlock []) 2 twoCalls self ∧
    self.inner.inner.runningRequests.get? 0 = some m ∧ m.waker = some 7 ∧
    m.buf.flatten = [] ∧ m.ended = false ∧ m.aborted = false := by
  have hrun : ((replay (tick (onlyBlock [])) (connect 2) twoCalls).bind fun self =>
      (self.inner.inner.runningRequests.get? 0).map FCGIRequest.waker) = some (some 7) := by
    decide +kernel
  obtain ⟨self, hreplay, hentry⟩ := Option.bind_eq_some_iff.mp hrun
  obtain ⟨m, hq, hw⟩ := Option.map_eq_some_iff.mp hentry
  have hruns : Runs (onlyBlock []) 2 twoCalls self := run_of_replay step_of_tick _ hreplay
  exact ⟨self, m, hruns, hq, hw, (waker_waits hruns).1 0 m 7 hq hw⟩

end Connection

end AsyncFcgi
