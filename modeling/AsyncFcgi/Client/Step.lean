import AsyncFcgi.Client.Connection

/-!
# What a step of a connection can do (`src/client/connection.rs`)

The steps of `Connection.next`, by their branches and by what they do to the table of requests,
the lock and the permits.

* `next_branch`: which branch a step takes.
* `next_stepped`: what a step can do.
-/

namespace AsyncFcgi

open Lib

/-- The call still has the permit itself, its request is not in the slab yet. -/
def Forward.HoldsPermit : Forward → Bool
  | .waiting | .checking | .shutting | .connecting => true
  | _ => false

/-- The body a call of `create_response` or the caller polls. -/
def FCGIBody.key? (body : FCGIBody) : Option ℕ := if body.done then none else some body.rid

/-- The key of the request the call is the consumer of. -/
def Forward.key? : Forward → Option ℕ
  | .sending rid | .exchanging rid _ none | .failed rid none => some (rid.toNat - 1)
  | .exchanging _ _ (some resp) | .failed _ (some resp) => resp.fcgibody.key?
  | .returned body => body.key?
  | _ => none

/-- The body of the call: the one `create_response` polls, or will make, or that of the
caller. -/
def Forward.body? : Forward → Option FCGIBody
  | .exchanging rid _ none => some ⟨rid.toNat - 1, false, false⟩
  | .exchanging _ _ (some resp) | .failed _ (some resp) => some resp.fcgibody
  | .returned body => some body
  | _ => none

/-- The body the next turn of the call polls. -/
def Forward.polled? : Forward → Option FCGIBody
  | .exchanging rid _ none => some ⟨rid.toNat - 1, false, false⟩
  | .exchanging _ _ (some (.reading fcgibody _ _)) => some fcgibody
  | .returned body => some body
  | _ => none

/-- The turns that may poll a body. -/
def Connection.Event.poll? : Connection.Event → Option (ℕ × SocketRead × Waker)
  | .respond j sock cx | .read j sock cx => some (j, sock, cx)
  | _ => none

/-- The id `forward` works with, until it returns. -/
def Forward.rid? : Forward → Option UInt16
  | .sending rid | .exchanging rid _ _ => some rid
  | _ => none

/-- `create_response` for the request at `key`, whose body is not done. -/
def CreateResponse.Of (key : ℕ) : CreateResponse → Prop
  | .reading fcgibody _ _ | .putting fcgibody _ _ => fcgibody = ⟨key, false, false⟩
  | .returned fcgibody _ _ => fcgibody = ⟨key, false, true⟩

/-- Until `forward` returns, its body is that of its id, and not done. -/
def Forward.Open : Forward → Prop
  | .sending rid | .exchanging rid _ none => rid ≠ 0
  | .exchanging rid _ (some resp) => rid ≠ 0 ∧ resp.Of (rid.toNat - 1)
  | _ => True

/-- The call has the lock. -/
def Forward.Locks : Forward → Bool
  | .checking | .shutting | .connecting | .sending _ | .exchanging _ .locked _ => true
  | _ => false

/-- The lock, when a call goes on: it is as before, or taken, or given back. -/
inductive Forward.Relocks (call call' : Forward) (w w' : Option (List Waker)) : Prop
  | keeps (h : call'.Locks = call.Locks) (hw : w' = w)
  | takes (h : call.Locks = false) (h' : call'.Locks = true) (hw : w = none) (hw' : w' ≠ none)
  | gives (h : call.Locks = true) (h' : call'.Locks = false) (hw' : w' = none)

/-- The call goes on with its permit, or with its request, unless it leaves. -/
structure Forward.Moves (call call' : Forward) : Prop where
  holds : call'.HoldsPermit = call.HoldsPermit
  key : call' = .left ∨ call'.key? = call.key?
  open_ : call.Open → call'.Open

/-- The call goes on with the body `body'` it had polled as `body`. -/
structure Forward.Polls (call : Forward) (body : FCGIBody) (call' : Forward) (body' : FCGIBody) :
    Prop where
  holds : call.HoldsPermit = false
  key : call.key? = body.key?
  holds' : call'.HoldsPermit = false
  key' : call'.key? = body'.key?
  unreturned : call.Open → call.rid? ≠ none → body.wasReturned = false
  locks : call'.Locks = call.Locks
  rid : call'.rid? = call.rid?
  open_ : call.Open → call.rid? = none ∨ body' = body → call'.Open

theorem Forward.Polls.key_rid {call call' : Forward} {body body' : FCGIBody}
    (h : call.Polls body call' body') (hd : body.done = false) : call.key? = some body.rid := by
  rw [h.key, FCGIBody.key?, if_neg (by simp [hd])]

theorem CreateResponse.Of.key? {key : ℕ} {resp : CreateResponse} (h : resp.Of key) :
    resp.fcgibody.key? = some key := by
  cases resp <;> (rw [Of] at h; subst h; rfl)

/-- While `forward` works with an id, the request is its own. -/
theorem Forward.Open.key? {call : Forward} (h : call.Open) {rid : UInt16}
    (hrid : call.rid? = some rid) : rid ≠ 0 ∧ call.key? = some (rid.toNat - 1) := by
  cases call with
  | sending rid' =>
    cases hrid
    exact ⟨h, rfl⟩
  | exchanging rid' upload resp =>
    cases hrid
    cases resp with
    | none => exact ⟨h, rfl⟩
    | some resp => exact ⟨h.1, h.2.key?⟩
  | _ => cases hrid

theorem Forward.key?_eq_body {call : Forward} {body : FCGIBody} (h : call.body? = some body) :
    call.key? = body.key? := by
  cases call with
  | exchanging rid upload resp =>
    cases resp with
    | none =>
      cases h
      rfl
    | some resp =>
      cases h
      rfl
  | failed rid resp =>
    cases resp with
    | none => cases h
    | some resp =>
      cases h
      rfl
  | returned body' =>
    cases h
    rfl
  | _ => cases h

theorem Forward.key?_of_body? {call : Forward} {body : FCGIBody} (h : call.body? = some body)
    (hd : body.done = false) : call.key? = some body.rid := by
  rw [Forward.key?_eq_body h, FCGIBody.key?, hd, if_neg (by decide)]

theorem Forward.body?_of_polled? {call : Forward} {body : FCGIBody}
    (h : call.polled? = some body) : call.body? = some body := by
  cases call with
  | exchanging rid upload resp =>
    cases resp with
    | none => exact h
    | some resp =>
      cases resp with
      | reading fcgibody buf rheaders => exact h
      | _ => cases h
  | returned body' => exact h
  | _ => cases h

/-- A call that has a request left its permit in it. -/
theorem Forward.holdsPermit_of_key? {call : Forward} {key : ℕ} (h : call.key? = some key) :
    call.HoldsPermit = false := by
  cases call <;> first | rfl | cases h

/-- Where a call is behind the head of its request. -/
def Forward.afterHead (rid : UInt16) : HeadResult → Forward
  | .body => .exchanging rid .idle none
  | .noBody => .exchanging rid .done none
  | .writeFailed | .headerRejected => .left

/-- Where a call is behind an upload. -/
def Forward.afterUpload (rid : UInt16) (resp : Option CreateResponse) : UploadResult → Forward
  | .chunk => .exchanging rid .idle resp
  | .last => .exchanging rid .done resp
  | .writeFailed | .tooShort => .failed rid resp

/-- `forward` returned or failed, and a body or a `create_response` is left of it. -/
inductive Forward.Over : Forward → Prop
  | returned {body} : Over (.returned body)
  | failed {rid resp} : Over (.failed rid resp)

namespace CreateResponse

variable {http : Http}

theorem receive_fcgibody {body : FCGIBody} {left : Option Bytes} {rheaders : HeaderMap} {b : Bytes}
    {resp : CreateResponse} (h : receive http body left rheaders b = .ok resp) :
    resp.fcgibody.key? = body.key? ∧
      ∀ key, body = ⟨key, false, false⟩ → resp.Of key := by
  unfold receive at h
  obtain ⟨⟨res, rheaders'⟩, -, h⟩ := bind_eq_ok.mp h
  cases res with
  | ok bodydata =>
    simp only at h
    split at h <;> (cases h; exact ⟨rfl, fun key hb => by subst hb; rfl⟩)
  | pending => cases h; exact ⟨rfl, fun key hb => hb⟩
  | err => cases h; exact ⟨rfl, fun key hb => by subst hb; rfl⟩

end CreateResponse

namespace Connection

variable {http : Http}

/-- The branches of `next`: where the call stands, and what it does at the event. -/
inductive Branch (http : Http) (self : Connection) : Event → Connection → Effects → Prop
  | acquire (hsem : 0 < self.sem) :
      Branch http self .acquire
        { self with sem := self.sem - 1, calls := self.calls ++ [.waiting] } .none
  | lock {j} (hcall : self.calls[j]? = some .waiting) (hfree : self.inner.waiters = none) :
      Branch http self (.lock j)
        (self.move j .checking { self.inner with waiters := some [] } .none) .none
  | check {j sock cx key self' eff} (hcall : self.calls[j]? = some .checking)
      (hcheck : self.nextCheck j sock cx key = .ok (some (self', eff))) :
      Branch http self (.check j sock cx key) self' eff
  | shutdown {j} (hcall : self.calls[j]? = some .shutting) :
      Branch http self (.shutdown j)
        (self.move j .connecting
          { self.inner with
            inner := { self.inner.inner with
              runningRequests :=
                (InnerConnection.notifyEveryone self.inner.inner.runningRequests).1 } }
          (InnerConnection.notifyEveryone self.inner.inner.runningRequests).2)
        (InnerConnection.notifyEveryone self.inner.inner.runningRequests).2
  | reconnect {j key} (hcall : self.calls[j]? = some .connecting)
      (hcan : self.inner.inner.runningRequests.CanInsert key) :
      Branch http self (.connect j true key)
        ({ self with reader := none }.move j (.sending (ridOf key))
          { self.inner with
            inner := insert { self.inner.inner with io := .new, fcgiParser := .new } key j }
          .none) .none
  | unreachable {j key} (hcall : self.calls[j]? = some .connecting) :
      Branch http self (.connect j false key)
        (self.move j .left (unlocked self.inner.inner) (.release j)) (.release j)
  | head {j rid res} (hcall : self.calls[j]? = some (.sending rid)) :
      Branch http self (.head j res)
        (self.move j (.afterHead rid res) (unlocked self.inner.inner) .none) .none
  | uploadLock {j rid resp} (hcall : self.calls[j]? = some (.exchanging rid .idle resp))
      (hfree : self.inner.waiters = none) :
      Branch http self (.uploadLock j)
        (self.move j (.exchanging rid .locked resp) { self.inner with waiters := some [] } .none)
        .none
  | upload {j rid resp res} (hcall : self.calls[j]? = some (.exchanging rid .locked resp)) :
      Branch http self (.upload j res)
        (self.move j (.afterUpload rid resp res) (unlocked self.inner.inner) .none) .none
  | respond {j sock cx rid upload resp self' eff}
      (hcall : self.calls[j]? = some (.exchanging rid upload resp))
      (hrespond : self.nextRespond http j rid upload resp sock cx = .ok (some (self', eff))) :
      Branch http self (.respond j sock cx) self' eff
  | finish {j rid body status rheaders}
      (hcall : self.calls[j]? =
        some (.exchanging rid .done (some (.returned body status rheaders)))) :
      Branch http self (.finish j) (self.move j (.returned body) self.inner .none) .none
  | read {j sock cx body self' eff} (hcall : self.calls[j]? = some (.returned body))
      (hread : self.nextRead j body sock cx = .ok (some (self', eff))) :
      Branch http self (.read j sock cx) self' eff
  | drop {j call body} (hcall : self.calls[j]? = some call) (hover : call.Over)
      (hbody : call.body? = some body) :
      Branch http self (.drop j) (self.move j .left (body.drop self.inner) .none) .none
  | dropUnpolled {j rid} (hcall : self.calls[j]? = some (.failed rid none)) :
      Branch http self (.drop j) (self.move j .left self.inner .none) .none
  | cancelWaiting {j} (hcall : self.calls[j]? = some .waiting) :
      Branch http self (.cancel j) (self.move j .left self.inner (.release j)) (.release j)
  | cancelLocked {j call} (hcall : self.calls[j]? = some call) (hholds : call.HoldsPermit = true)
      (hlocks : call.Locks = true) :
      Branch http self (.cancel j)
        (self.move j .left (unlocked self.inner.inner) (.release j)) (.release j)
  | cancelSending {j rid} (hcall : self.calls[j]? = some (.sending rid)) :
      Branch http self (.cancel j) (self.move j .left (unlocked self.inner.inner) .none) .none
  | cancelUpload {j rid resp} (hcall : self.calls[j]? = some (.exchanging rid .locked resp)) :
      Branch http self (.cancel j)
        (self.move j (.failed rid resp) (unlocked self.inner.inner) .none) .none
  | cancelExchange {j rid upload resp}
      (hcall : self.calls[j]? = some (.exchanging rid upload resp)) (hupload : upload ≠ .locked) :
      Branch http self (.cancel j) (self.move j (.failed rid resp) self.inner .none) .none

theorem next_branch {self self' : Connection} {ev : Event} {eff : Effects}
    (h : self.next http ev = .ok (some (self', eff))) : Branch http self ev self' eff := by
  cases ev with
  | acquire =>
    simp only [next] at h
    split at h
    · cases h
      exact .acquire ‹_›
    · cases h
  | lock j =>
    simp only [next] at h
    split at h
    · rename_i hcall hfree
      cases h
      exact .lock hcall hfree
    · cases h
  | check j sock cx key =>
    simp only [next] at h
    split at h
    · exact .check ‹_› h
    · cases h
  | shutdown j =>
    simp only [next] at h
    split at h
    · cases h
      exact .shutdown ‹_›
    · cases h
  | connect j ok key =>
    simp only [next] at h
    split at h
    · rename_i hcall
      cases ok with
      | true =>
        simp only [if_true] at h
        split at h
        · cases h
          exact .reconnect hcall ‹_›
        · cases h
      | false =>
        cases h
        exact .unreachable hcall
    · cases h
  | head j res =>
    simp only [next] at h
    split at h
    · rename_i rid hcall
      have hafter : self.step j (.afterHead rid res) (unlocked self.inner.inner) .none =
          .ok (some (self', eff)) := by
        rw [← h]
        cases res <;> rfl
      cases hafter
      exact .head hcall
    · cases h
  | uploadLock j =>
    simp only [next] at h
    split at h
    · rename_i hcall hfree
      cases h
      exact .uploadLock hcall hfree
    · cases h
  | upload j res =>
    simp only [next] at h
    split at h
    · rename_i rid resp hcall
      have hafter : self.step j (.afterUpload rid resp res) (unlocked self.inner.inner) .none =
          .ok (some (self', eff)) := by
        rw [← h]
        cases res <;> rfl
      cases hafter
      exact .upload hcall
    · cases h
  | respond j sock cx =>
    simp only [next] at h
    split at h
    · exact .respond ‹_› h
    · cases h
  | finish j =>
    simp only [next] at h
    split at h
    · cases h
      exact .finish ‹_›
    · cases h
  | read j sock cx =>
    simp only [next] at h
    split at h
    · exact .read ‹_› h
    · cases h
  | drop j =>
    simp only [next] at h
    split at h
    · cases h
      exact .drop ‹_› .returned rfl
    · cases h
      exact .drop ‹_› .failed rfl
    · cases h
      exact .dropUnpolled ‹_›
    · cases h
  | cancel j =>
    simp only [next] at h
    split at h
    · cases h
      exact .cancelWaiting ‹_›
    · cases h
      exact .cancelLocked ‹_› rfl rfl
    · cases h
      exact .cancelLocked ‹_› rfl rfl
    · cases h
      exact .cancelLocked ‹_› rfl rfl
    · cases h
      exact .cancelSending ‹_›
    · cases h
      exact .cancelUpload ‹_›
    · rename_i hno hcall
      cases h
      exact .cancelExchange hcall fun hlocked => hno (hlocked ▸ rfl)
    · cases h

/-- What one step can do: a new call; a call goes on and leaves the table of requests alone
(`moved`) or gives up with its permit (`gaveUp`); the outcomes of `check_alive` and of the
reconnect; a `poll_frame` with the lock (`framed`); the push of `create_response`; and the drop
of a body with the lock free. -/
inductive Stepped (self : Connection) : Event → Connection → Effects → Prop
  | acquired (hsem : 0 < self.sem) :
      Stepped self .acquire
        { self with sem := self.sem - 1, calls := self.calls ++ [.waiting] } .none
  | moved {ev j call call'} {inner : Mutex InnerConnection} (hev : ev.call? = some j)
      (hcall : self.calls[j]? = some call) (hmoves : call.Moves call')
      (hlock : call.Relocks call' self.inner.waiters inner.waiters)
      (hinner : inner.inner = self.inner.inner) :
      Stepped self ev (self.move j call' inner .none) .none
  | gaveUp {ev j call} {inner : Mutex InnerConnection} (hev : ev.call? = some j)
      (hcall : self.calls[j]? = some call)
      (hholds : call.HoldsPermit) (hlock : call.Relocks .left self.inner.waiters inner.waiters)
      (hinner : inner.inner = self.inner.inner) :
      Stepped self ev (self.move j .left inner (.release j)) (.release j)
  | refused {j sock cx key res inner eff e} (hcall : self.calls[j]? = some .checking)
      (hresp : self.inner.inner.pollResp sock cx = .ok (res, inner, eff))
      (hres : InnerConnection.checkAlive res = .error e) :
      Stepped self (.check j sock cx key)
        ((self.hear j sock cx).move j .left ⟨inner, none⟩ (eff ++ .release j)) (eff ++ .release j)
  | dead {j sock cx key res inner eff} (hcall : self.calls[j]? = some .checking)
      (hresp : self.inner.inner.pollResp sock cx = .ok (res, inner, eff))
      (hres : InnerConnection.checkAlive res = .ok false) :
      Stepped self (.check j sock cx key)
        ((self.hear j sock cx).move j .shutting { self.inner with inner } eff) eff
  | alive {j sock cx key res inner eff} (hcall : self.calls[j]? = some .checking)
      (hresp : self.inner.inner.pollResp sock cx = .ok (res, inner, eff))
      (hres : InnerConnection.checkAlive res = .ok true)
      (hcan : inner.runningRequests.CanInsert key) :
      Stepped self (.check j sock cx key)
        ((self.hear j sock cx).move j (.sending (ridOf key))
          { self.inner with inner := insert inner key j } eff) eff
  | notified {j} (hcall : self.calls[j]? = some .shutting) :
      Stepped self (.shutdown j)
        (self.move j .connecting
          { self.inner with
            inner := { self.inner.inner with
              runningRequests :=
                (InnerConnection.notifyEveryone self.inner.inner.runningRequests).1 } }
          (InnerConnection.notifyEveryone self.inner.inner.runningRequests).2)
        (InnerConnection.notifyEveryone self.inner.inner.runningRequests).2
  | reconnected {j key} (hcall : self.calls[j]? = some .connecting)
      (hcan : self.inner.inner.runningRequests.CanInsert key) :
      Stepped self (.connect j true key)
        ({ self with reader := none }.move j (.sending (ridOf key))
          { self.inner with
            inner := insert { self.inner.inner with io := .new, fcgiParser := .new } key j }
          .none) .none
  | framed {ev j sock cx call call'} {body body' : FCGIBody} {r inner₁ eff₁ res inner₂ eff₂}
      (hev : ev.call? = some j) (hcall : self.calls[j]? = some call) (hpolls : call.Polls body call' body')
      (hd : body.done = false) (hfree : self.inner.waiters = none)
      (hresp : self.inner.inner.pollResp sock cx = .ok (r, inner₁, eff₁))
      (hserved : FCGIBody.Served body inner₁ cx res body' inner₂ eff₂)
      (hturn : ev.poll? = some (j, sock, cx)) (hbody : call.polled? = some body) :
      Stepped self ev ((self.hear j sock cx).move j call' ⟨inner₂, none⟩ (eff₁ ++ eff₂))
        (eff₁ ++ eff₂)
  | putBack {j sock cx rid upload} {body : FCGIBody} {bodydata rheaders mpxs status}
      (hcall : self.calls[j]? =
        some (.exchanging rid upload (some (.putting body bodydata rheaders))))
      (hfree : self.inner.waiters = none)
      (hq : self.inner.inner.runningRequests.get? body.rid = some mpxs) :
      Stepped self (.respond j sock cx)
        (self.move j
          (.exchanging rid upload (some (CreateResponse.handOver body status rheaders)))
          { waiters := none
            inner := { self.inner.inner with
              runningRequests := self.inner.inner.runningRequests.set body.rid
                { mpxs with buf := mpxs.buf.push bodydata } } }
          .none) .none
  | dropped {j call} {body : FCGIBody} {mpxs} (hcall : self.calls[j]? = some call)
      (hholds : call.HoldsPermit = false) (hlocks : call.Locks = false)
      (hkey : call.key? = some body.rid) (hfree : self.inner.waiters = none)
      (hq : self.inner.inner.runningRequests.get? body.rid = some mpxs) :
      Stepped self (.drop j)
        (self.move j .left
          { waiters := none
            inner := { self.inner.inner with
              runningRequests := self.inner.inner.runningRequests.set body.rid
                { mpxs with aborted := true, waker := none } } }
          .none) .none

/-- The permit is in the table. -/
def Has (self : Connection) (p : Permit) : Prop :=
  ∃ k m, self.inner.inner.runningRequests.get? k = some m ∧ m.permit = p

variable {self self' : Connection} {ev : Event} {eff : Effects}

/-- The history grows by the records that were processed and the permits that were dropped. -/
theorem Stepped.grows (hs : Stepped self ev self' eff) :
    (∃ recs, self'.log = self.log ++ recs) ∧ self'.released = self.released ++ eff.released := by
  cases hs with
  | acquired => exact ⟨⟨[], (List.append_nil _).symm⟩, (List.append_nil _).symm⟩
  | moved => exact ⟨⟨[], (List.append_nil _).symm⟩, rfl⟩
  | gaveUp => exact ⟨⟨[], (List.append_nil _).symm⟩, rfl⟩
  | refused => exact ⟨⟨_, rfl⟩, rfl⟩
  | dead => exact ⟨⟨_, rfl⟩, rfl⟩
  | alive => exact ⟨⟨_, rfl⟩, rfl⟩
  | notified => exact ⟨⟨[], (List.append_nil _).symm⟩, rfl⟩
  | reconnected => exact ⟨⟨[], (List.append_nil _).symm⟩, rfl⟩
  | framed => exact ⟨⟨_, rfl⟩, rfl⟩
  | putBack => exact ⟨⟨[], (List.append_nil _).symm⟩, rfl⟩
  | dropped => exact ⟨⟨[], (List.append_nil _).symm⟩, rfl⟩

theorem nextCheck_stepped {j : ℕ} {sock : SocketRead} {cx : Waker} {key : ℕ}
    (hcall : self.calls[j]? = some .checking)
    (h : self.nextCheck j sock cx key = .ok (some (self', eff))) :
    Stepped self (.check j sock cx key) self' eff := by
  unfold nextCheck at h
  obtain ⟨⟨res, inner, eff₁⟩, hresp, h⟩ := bind_eq_ok.mp h
  simp only at h
  split at h
  · rename_i e hres
    cases h
    exact .refused hcall hresp hres
  · rename_i hres
    cases h
    exact .dead hcall hresp hres
  · rename_i hres
    split at h
    · cases h
      exact .alive hcall hresp hres ‹_›
    · cases h

/-- A `poll_frame` from a call that goes on with the same body. -/
theorem framed_stepped {j : ℕ} {sock : SocketRead} {cx : Waker} {call call' : Forward}
    {body body' : FCGIBody} {res : FramePoll} {inner : Mutex InnerConnection}
    (hev : ev.call? = some j) (hturn : ev.poll? = some (j, sock, cx))
    (hcall : self.calls[j]? = some call) (hbody : call.polled? = some body)
    (hpolls : call.Polls body call' body')
    (hframe : body.pollFrame self.inner sock cx = .ok (res, body', inner, eff)) :
    Stepped self ev ((self.hearBody body j sock cx).move j call' inner eff) eff := by
  have hmoves : body' = body → call.Moves call' := by
    rintro rfl
    exact ⟨hpolls.holds'.trans hpolls.holds.symm, Or.inr (hpolls.key'.trans hpolls.key.symm),
      fun h => hpolls.open_ h (Or.inr rfl)⟩
  have hlock : call.Relocks call' self.inner.waiters self.inner.waiters :=
    .keeps hpolls.locks rfl
  cases FCGIBody.pollFrame_framed hframe with
  | done hd =>
    rw [hearBody, if_neg (by simp [hd])]
    exact .moved hev hcall (hmoves rfl) hlock rfl
  | contended hd hq =>
    rw [hearBody, if_neg (by simp [hq])]
    exact .moved hev hcall (hmoves rfl) hlock rfl
  | served hd hfree hresp hserved =>
    rw [hearBody, if_pos ⟨hd, hfree⟩]
    exact .framed hev hcall hpolls hd hfree hresp hserved hturn hbody

/-- The body of a `create_response` that was just made, or was there. -/
theorem responseOf_cases {rid : UInt16} {resp : Option CreateResponse} {resp₀ : CreateResponse}
    (h : responseOf rid resp = .ok resp₀) (upload : Upload) :
    (Forward.exchanging rid upload resp).key? = resp₀.fcgibody.key? ∧
      ((Forward.exchanging rid upload resp).Open → rid ≠ 0 ∧ resp₀.Of (rid.toNat - 1)) ∧
      (resp = some resp₀ ∨ (resp = none ∧ resp₀ = .new (rid.toNat - 1))) := by
  cases resp with
  | some resp =>
    cases h
    exact ⟨rfl, id, Or.inl rfl⟩
  | none =>
    rw [responseOf] at h
    split at h
    · cases h
    · rename_i hrid
      cases h
      exact ⟨rfl, fun _ => ⟨hrid, rfl⟩, Or.inr ⟨rfl, rfl⟩⟩

theorem nextRead_ok {j : ℕ} {body : FCGIBody} {sock : SocketRead} {cx : Waker}
    (h : self.nextRead j body sock cx = .ok (some (self', eff))) :
    ∃ res body' inner, body.pollFrame self.inner sock cx = .ok (res, body', inner, eff) ∧
      self' = (self.hearBody body j sock cx).move j (.returned body') inner eff := by
  unfold nextRead at h
  obtain ⟨⟨res, body', inner, eff₁⟩, hframe, h⟩ := bind_eq_ok.mp h
  cases h
  exact ⟨res, body', inner, hframe, rfl⟩

theorem nextRespond_ok {j : ℕ} {rid : UInt16} {upload : Upload} {resp : Option CreateResponse}
    {sock : SocketRead} {cx : Waker}
    (h : self.nextRespond http j rid upload resp sock cx = .ok (some (self', eff))) :
    ∃ resp₀ resp' inner, responseOf rid resp = .ok resp₀ ∧
      resp₀.poll http self.inner sock cx = .ok (resp', inner, eff) ∧
      self' = Connection.move
        (match resp₀ with
          | .reading body _ _ => self.hearBody body j sock cx
          | _ => self)
        j (.exchanging rid upload (some resp')) inner eff := by
  unfold nextRespond at h
  obtain ⟨resp₀, hresp₀, h⟩ := bind_eq_ok.mp h
  obtain ⟨⟨resp', inner, eff₁⟩, hpoll, h⟩ := bind_eq_ok.mp h
  cases h
  exact ⟨resp₀, resp', inner, hresp₀, hpoll, rfl⟩

theorem nextRespond_stepped {j : ℕ} {rid : UInt16} {upload : Upload}
    {resp : Option CreateResponse} {sock : SocketRead} {cx : Waker}
    (hcall : self.calls[j]? = some (.exchanging rid upload resp))
    (h : self.nextRespond http j rid upload resp sock cx = .ok (some (self', eff))) :
    Stepped self (.respond j sock cx) self' eff := by
  obtain ⟨resp₀, resp', inner, hresp₀, hpoll, rfl⟩ := nextRespond_ok h
  obtain ⟨hkey, hopen, hsome⟩ := responseOf_cases hresp₀ upload
  cases resp₀ with
  | reading body buf rheaders =>
    obtain ⟨res, body', hframe, hcases⟩ := CreateResponse.poll_reading hpoll
    have hbody : (Forward.exchanging rid upload resp).polled? = some body := by
      rcases hsome with rfl | ⟨rfl, hnew⟩
      · rfl
      · cases hnew
        rfl
    refine framed_stepped rfl rfl hcall hbody
      ⟨rfl, hkey, rfl, ?_, fun ho _ => ?_, by cases upload <;> rfl, rfl, fun ho hsame => ?_⟩ hframe
    · rcases hcases with ⟨-, rfl⟩ | ⟨-, rfl⟩ | ⟨b, -, hreceive⟩
      · rfl
      · rfl
      · exact (CreateResponse.receive_fcgibody hreceive).1
    · exact congrArg FCGIBody.wasReturned (hopen ho).2
    · obtain ⟨hrid, hof⟩ := hopen ho
      obtain rfl := hsame.resolve_left nofun
      refine ⟨hrid, ?_⟩
      rcases hcases with ⟨-, rfl⟩ | ⟨-, rfl⟩ | ⟨b, -, hreceive⟩
      · exact hof
      · rw [CreateResponse.Of] at hof
        subst hof
        rfl
      · exact (CreateResponse.receive_fcgibody hreceive).2 _ hof
  | putting body bodydata rheaders =>
    rw [CreateResponse.poll] at hpoll
    cases hw : self.inner.waiters with
    | some q =>
      simp only [hw, Except.ok.injEq, Prod.mk.injEq] at hpoll
      obtain ⟨rfl, rfl, rfl⟩ := hpoll
      exact .moved rfl hcall ⟨rfl, Or.inr hkey.symm, hopen⟩
        (.keeps (by cases upload <;> rfl) rfl) rfl
    | none =>
      simp only [hw] at hpoll
      obtain ⟨inner₁, hput, hpoll⟩ := bind_eq_ok.mp hpoll
      unfold CreateResponse.putBack at hput
      split at hput
      · cases hput
      · rename_i mpxs hq
        cases hput
        cases hpoll
        rcases hsome with rfl | ⟨-, hnew⟩
        · exact .putBack hcall hw hq
        · cases hnew
  | returned body status rheaders =>
    cases hpoll
    exact .moved rfl hcall ⟨rfl, Or.inr hkey.symm, hopen⟩
        (.keeps (by cases upload <;> rfl) rfl) rfl

/-- The drop of a body by a call that ends with it. -/
theorem drop_stepped {j : ℕ} {call : Forward} {body : FCGIBody}
    (hcall : self.calls[j]? = some call) (hholds : call.HoldsPermit = false)
    (hlocks : call.Locks = false) (hkey : call.key? = body.key?) :
    Stepped self (.drop j) (self.move j .left (body.drop self.inner) .none) .none := by
  have hmoves : call.Moves .left := ⟨hholds.symm, Or.inl rfl, fun _ => trivial⟩
  have hlock : call.Relocks .left self.inner.waiters self.inner.waiters := .keeps hlocks.symm rfl
  unfold FCGIBody.drop
  cases hd : body.done with
  | true => exact .moved rfl hcall hmoves hlock rfl
  | false =>
    rw [if_neg (by decide)]
    cases hw : self.inner.waiters with
    | some q => exact .moved rfl hcall hmoves hlock rfl
    | none =>
      cases hq : self.inner.inner.runningRequests.get? body.rid with
      | none => exact .moved rfl hcall hmoves hlock rfl
      | some mpxs =>
        simp only
        refine .dropped hcall hholds hlocks ?_ hw hq
        rw [hkey, FCGIBody.key?, hd, if_neg (by decide)]

theorem next_stepped (h : self.next http ev = .ok (some (self', eff))) :
    Stepped self ev self' eff := by
  cases next_branch h with
  | acquire hsem => exact .acquired hsem
  | lock hcall hfree =>
    exact .moved rfl hcall ⟨rfl, Or.inr rfl, fun _ => trivial⟩ (.takes rfl rfl hfree nofun) rfl
  | check hcall hcheck => exact nextCheck_stepped hcall hcheck
  | shutdown hcall => exact .notified hcall
  | reconnect hcall hcan => exact .reconnected hcall hcan
  | unreachable hcall => exact .gaveUp rfl hcall rfl (.gives rfl rfl rfl) rfl
  | @head _ _ res hcall =>
    cases res with
    | body => exact .moved rfl hcall ⟨rfl, Or.inr rfl, id⟩ (.gives rfl rfl rfl) rfl
    | noBody => exact .moved rfl hcall ⟨rfl, Or.inr rfl, id⟩ (.gives rfl rfl rfl) rfl
    | writeFailed =>
      exact .moved rfl hcall ⟨rfl, Or.inl rfl, fun _ => trivial⟩ (.gives rfl rfl rfl) rfl
    | headerRejected =>
      exact .moved rfl hcall ⟨rfl, Or.inl rfl, fun _ => trivial⟩ (.gives rfl rfl rfl) rfl
  | @uploadLock _ _ resp hcall hfree =>
    cases resp with
    | none => exact .moved rfl hcall ⟨rfl, Or.inr rfl, id⟩ (.takes rfl rfl hfree nofun) rfl
    | some resp => exact .moved rfl hcall ⟨rfl, Or.inr rfl, id⟩ (.takes rfl rfl hfree nofun) rfl
  | @upload _ _ resp res hcall =>
    refine .moved rfl hcall ⟨by cases res <;> rfl, Or.inr ?_, ?_⟩
      (.gives rfl (by cases res <;> rfl) rfl) rfl
    · cases resp <;> cases res <;> rfl
    · cases resp <;> cases res <;> first | exact id | exact fun _ => trivial
  | respond hcall hrespond => exact nextRespond_stepped hcall hrespond
  | finish hcall =>
    exact .moved rfl hcall ⟨rfl, Or.inr rfl, fun _ => trivial⟩ (.keeps rfl rfl) rfl
  | read hcall hread =>
    obtain ⟨res, body', inner, hframe, rfl⟩ := nextRead_ok hread
    exact framed_stepped rfl rfl hcall rfl
      ⟨rfl, rfl, rfl, rfl, fun _ hno => absurd rfl hno, rfl, rfl, fun _ _ => trivial⟩ hframe
  | drop hcall hover hbody =>
    have hkey := Forward.key?_eq_body hbody
    cases hover with
    | returned => exact drop_stepped hcall rfl rfl hkey
    | failed => exact drop_stepped hcall rfl rfl hkey
  | dropUnpolled hcall =>
    exact .moved rfl hcall ⟨rfl, Or.inl rfl, fun _ => trivial⟩ (.keeps rfl rfl) rfl
  | cancelWaiting hcall => exact .gaveUp rfl hcall rfl (.keeps rfl rfl) rfl
  | cancelLocked hcall hholds hlocks => exact .gaveUp rfl hcall hholds (.gives hlocks rfl rfl) rfl
  | cancelSending hcall =>
    exact .moved rfl hcall ⟨rfl, Or.inl rfl, fun _ => trivial⟩ (.gives rfl rfl rfl) rfl
  | @cancelUpload _ _ resp hcall =>
    exact .moved rfl hcall ⟨rfl, Or.inr (by cases resp <;> rfl), fun _ => trivial⟩
      (.gives rfl rfl rfl) rfl
  | @cancelExchange _ _ upload resp hcall hupload =>
    refine .moved rfl hcall ⟨rfl, Or.inr (by cases resp <;> rfl), fun _ => trivial⟩
      (.keeps ?_ rfl) rfl
    cases upload with
    | locked => exact absurd rfl hupload
    | _ => rfl

/-- A call that left does nothing any more. -/
theorem next_left {j : ℕ} (hcall : self.calls[j]? = some .left) (hev : ev.call? = some j) :
    self.next http ev = .ok none := by
  cases ev with
  | acquire => cases hev
  | _ => cases hev; simp only [next, hcall]

/-- A drop calls no waker and frees no permit. -/
theorem next_drop {j : ℕ} (h : self.next http (.drop j) = .ok (some (self', eff))) :
    eff = .none := by
  cases next_branch h with
  | drop => rfl
  | dropUnpolled => rfl

/-- A turn that polls a body is a `poll_frame` of it. -/
theorem next_polls {j : ℕ} {sock : SocketRead} {cx : Waker} {call : Forward} {body : FCGIBody}
    (h : self.next http ev = .ok (some (self', eff))) (hev : ev.poll? = some (j, sock, cx))
    (hcall : self.calls[j]? = some call) (hbody : call.polled? = some body) :
    ∃ res body' inner call', body.pollFrame self.inner sock cx = .ok (res, body', inner, eff) ∧
      self' = (self.hearBody body j sock cx).move j call' inner eff := by
  cases next_branch h with
  | @respond _ _ _ rid upload resp _ _ hcall' hrespond =>
    cases hev
    cases hcall.symm.trans hcall'
    obtain ⟨resp₀, resp', inner, hresp₀, hpoll, rfl⟩ := nextRespond_ok hrespond
    obtain ⟨-, -, hsome⟩ := responseOf_cases hresp₀ upload
    have hreading : ∃ buf rheaders, resp₀ = .reading body buf rheaders := by
      rcases hsome with rfl | ⟨rfl, rfl⟩
      · cases resp₀ with
        | reading fcgibody buf rheaders =>
          cases hbody
          exact ⟨_, _, rfl⟩
        | _ => cases hbody
      · cases hbody
        exact ⟨_, _, rfl⟩
    obtain ⟨buf, rheaders, rfl⟩ := hreading
    obtain ⟨res, body', hframe, -⟩ := CreateResponse.poll_reading hpoll
    exact ⟨res, body', inner, _, hframe, rfl⟩
  | read hcall' hread =>
    cases hev
    cases hcall.symm.trans hcall'
    cases hbody
    obtain ⟨res, body', inner, hframe, rfl⟩ := nextRead_ok hread
    exact ⟨res, body', inner, _, hframe, rfl⟩
  | _ => cases hev

end Connection

end AsyncFcgi
