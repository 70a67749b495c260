import AsyncFcgi.Client.Response
import AsyncFcgi.Lib.Run

/-!
# From the STDOUT of a request to its response body (`src/client/connection.rs`)

One request from the first poll of `create_response` to the end of the body its caller reads,
with other tasks that drive the connection, take its lock and change other requests between any
two steps (`Exchange`). What the application writes is a header block and a body, in any
records.

`create_response` puts the rest of a frame back behind what has been queued since.

* `pollFrame_running`: what one `poll_frame` of a running request returns and leaves.
* `frames_eq_body_iff`: the frames are the body exactly if what was put back and what was
  queued can change places.
-/

namespace AsyncFcgi

open Lib

namespace FCGIBody

/-- What one `poll_frame` makes of the unread bytes of its running request. -/
theorem pollFrame_running {self self' : FCGIBody} {con con' : Mutex InnerConnection}
    {sock : SocketRead} {cx : Waker} {res : FramePoll} {eff : Effects} {unread : Bytes}
    {ended : Bool} (hd : self.done = false) (hrun : con.inner.Running self.rid unread ended)
    (h : self.pollFrame con sock cx = .ok (res, self', con', eff)) :
    (con.waiters ≠ none ∧ res = .pending ∧ self' = self ∧ con' = con) ∨
      (con.waiters = none ∧ ∃ unread' ended',
        unread' = unread ++ con.inner.stdOutRead sock cx self.rid ∧
        ended' = (ended || decide (con.inner.Ends sock cx self.rid)) ∧
        ((res = .pending ∧ self' = self ∧ con'.inner.Running self.rid unread' ended') ∨
          (∃ b rest, res = .ready (some (.ok b)) ∧ self' = self ∧ unread' = b ++ rest ∧
            con'.inner.Running self.rid rest ended') ∨
          (∃ b, res = .ready (some (.ok b)) ∧ self' = { self with done := true } ∧
            self.wasReturned = true ∧ unread' = b ∧ ended' = true) ∨
          (res = .ready none ∧ unread' = [] ∧ ended' = true ∧
            ((self.wasReturned = true ∧ self' = { self with done := true }) ∨
              (self.wasReturned = false ∧ self' = self ∧
                con'.inner.Running self.rid [] ended'))))) := by
  cases pollFrame_framed h with
  | done hd' => rw [hd] at hd'; cases hd'
  | contended _ hq => exact Or.inl ⟨by simp [hq], rfl, rfl, rfl⟩
  | served _ hfree hresp hserved =>
    obtain ⟨mpxs, hq, hlive, hbuf, hend⟩ := InnerConnection.pollResp_running hresp hrun
    refine Or.inr ⟨hfree, _, _, rfl, rfl, ?_⟩
    rw [← hbuf, ← hend]
    cases hserved with
    | vanished hq' => rw [hq] at hq'; cases hq'
    | @frame slab front rest hq' hb hrem hkeep =>
      rw [hq] at hq'
      cases hq'
      refine Or.inr (Or.inl ⟨front, rest.flatten, rfl, rfl, by simp [BufList.flatten, hb], ?_⟩)
      exact ⟨{ mpxs with buf := ⟨rest⟩ }, by simp [Slab.get?_set hq], hlive, rfl, rfl⟩
    | @last slab front rest hq' hb hrem hret hend' hrest =>
      rw [hq] at hq'
      cases hq'
      exact Or.inr (Or.inr (Or.inl ⟨front, rfl, rfl, hret, by simp [BufList.flatten, hb, hrest],
        hend'⟩))
    | @finished slab hq' hb hend' hret =>
      rw [hq] at hq'
      cases hq'
      exact Or.inr (Or.inr (Or.inr ⟨rfl, hb, hend', Or.inl ⟨hret, rfl⟩⟩))
    | @early slab hq' hb hend' hret =>
      rw [hq] at hq'
      cases hq'
      exact Or.inr (Or.inr (Or.inr ⟨rfl, hb, hend', Or.inr ⟨hret, rfl, mpxs, hq, hlive, hb,
        rfl⟩⟩))
    | @waits slab hq' hb hend' =>
      rw [hq] at hq'
      cases hq'
      exact Or.inl ⟨rfl, rfl, { mpxs with waker := some cx }, by simp [Slab.get?_set hq], hlive,
        rfl, rfl⟩

/-- A running request with a frame has unread bytes. -/
theorem unread_of_frame {self self' : FCGIBody} {con con' : Mutex InnerConnection}
    {sock : SocketRead} {cx : Waker} {b : Bytes} {eff : Effects} {unread : Bytes} {ended : Bool}
    (hrun : con.inner.Running self.rid unread ended)
    (h : self.pollFrame con sock cx = .ok (.ready (some (.ok b)), self', con', eff)) :
    unread ++ con.inner.stdOutRead sock cx self.rid ≠ [] := by
  cases pollFrame_framed h with
  | served _ hfree hresp hserved =>
    obtain ⟨mpxs, hq, -, hbuf, -⟩ := InnerConnection.pollResp_running hresp hrun
    rw [← hbuf, ← List.length_pos_iff]
    cases hserved with
    | @frame slab front rest hq' hb hrem =>
      rw [hq] at hq'
      cases hq'
      rwa [BufList.remaining_eq] at hrem
    | @last slab front rest hq' hb hrem =>
      rw [hq] at hq'
      cases hq'
      rwa [BufList.remaining_eq] at hrem

end FCGIBody

/-- One request and the connection it runs on. Behind `resp` stand the frames the caller was
given and whether it saw the end; the last three fields are history: the STDOUT of the request
that was processed until its body was done, whether it was ended, and what was put back with
what was in the buffer then. -/
structure Exchange where
  con : Mutex InnerConnection
  resp : CreateResponse
  frames : List Bytes
  finished : Bool
  arrived : Bytes
  ended : Bool
  back : Option (Bytes × Bytes)

namespace Exchange

/-- The request at `key` before the first poll of `create_response`. -/
def start (key : ℕ) (con : Mutex InnerConnection) : Exchange where
  con := con
  resp := .new key
  frames := []
  finished := false
  arrived := []
  ended := false
  back := none

/-- What happens: a turn of `create_response`, a `poll_frame` of the caller, a `poll_resp` of
another task, or anything else other tasks do to the connection. -/
inductive Event
  | respond (sock : SocketRead) (cx : Waker)
  | read (sock : SocketRead) (cx : Waker)
  | drive (sock : SocketRead) (cx : Waker)
  | others (con : Mutex InnerConnection)

/-- The unread bytes of the request at `key`. -/
def unread (ex : Exchange) (key : ℕ) : Bytes :=
  match ex.con.inner.runningRequests.get? key with
  | none => []
  | some mpxs => mpxs.buf.flatten

/-- The history after a call of `poll_resp`. -/
def heard (ex : Exchange) (key : ℕ) (sock : SocketRead) (cx : Waker) : Exchange :=
  if ex.resp.fcgibody.done then ex
  else
    { ex with
      arrived := ex.arrived ++ ex.con.inner.stdOutRead sock cx key
      ended := ex.ended || decide (ex.con.inner.Ends sock cx key) }

/-- The history after a `poll_frame`, which calls `poll_resp` if it gets the lock. -/
def heardFree (ex : Exchange) (key : ℕ) (sock : SocketRead) (cx : Waker) : Exchange :=
  if ex.con.waiters = none then ex.heard key sock cx else ex

variable (http : Http) (key : ℕ)

/-- The state after an event. -/
def next (ex : Exchange) : Event → Except Fault Exchange
  | .respond sock cx => do
    let (resp, con, _) ← ex.resp.poll http ex.con sock cx
    match ex.resp with
    | .reading _ _ _ => .ok { ex.heardFree key sock cx with resp, con }
    | .putting _ bodydata _ =>
      if ex.con.waiters = none then
        .ok { ex with resp, con, back := some (bodydata, ex.unread key) }
      else .ok { ex with resp, con }
    | .returned _ _ _ => .ok { ex with resp, con }
  | .read sock cx =>
    match ex.resp with
    | .returned fcgibody status rheaders => do
      let (res, fcgibody, con, _) ← fcgibody.pollFrame ex.con sock cx
      let ex := { ex.heardFree key sock cx with con, resp := .returned fcgibody status rheaders }
      match res with
      | .ready (some (.ok b)) => .ok { ex with frames := ex.frames ++ [b] }
      | .ready none => .ok { ex with finished := true }
      | _ => .ok ex
    | _ => .ok ex
  | .drive sock cx => do
    let (_, inner, _) ← ex.con.inner.pollResp sock cx
    .ok { ex.heard key sock cx with con := { ex.con with inner } }
  | .others con => .ok { ex with con }

/-- What others do leaves the entry of the request as it is, but for its waker, until its body
is done. -/
def Untouched (ex : Exchange) : Event → Prop
  | .others con => ex.resp.fcgibody.done = false →
    ∀ unread ended, ex.con.inner.Running key unread ended → con.inner.Running key unread ended
  | _ => True

/-- The application writes `stdout` and then ends the request. -/
def Fits (stdout : Bytes) (ex : Exchange) : Prop :=
  ex.arrived <+: stdout ∧ (ex.ended = true → ex.arrived = stdout)

/-- A step while the application writes `stdout`. -/
def Step (stdout : Bytes) (ex : Exchange) (ev : Event) (ex' : Exchange) : Prop :=
  ex.next http key ev = .ok ex' ∧ ex.Untouched key ev ∧ ex'.Fits stdout

/-! ## The invariant -/

variable {http key} {block stdout : Bytes}

/-- The request runs with `unread` in its buffer. -/
def Unread (key : ℕ) (ex : Exchange) (unread : Bytes) : Prop :=
  ex.con.inner.Running key unread ex.ended

/-! ### The steps -/

/-- What the steps of other tasks do to the exchange: nothing but that bytes arrive, behind those
that are unread, until its body is done. -/
structure Passed (key : ℕ) (ex ex' : Exchange) : Prop where
  resp : ex'.resp = ex.resp
  frames : ex'.frames = ex.frames
  finished : ex'.finished = ex.finished
  back : ex'.back = ex.back
  done : ex.resp.fcgibody.done = true → ex'.arrived = ex.arrived
  arrive : ex.resp.fcgibody.done = false → ∃ new, ex'.arrived = ex.arrived ++ new ∧
    ∀ unread, Unread key ex unread → Unread key ex' (unread ++ new)

theorem passed_drive {ex ex' : Exchange} {sock : SocketRead} {cx : Waker}
    (hnext : ex.next http key (.drive sock cx) = .ok ex') : Passed key ex ex' := by
  rw [next] at hnext
  obtain ⟨⟨res, inner, eff⟩, hresp, hnext⟩ := bind_eq_ok.mp hnext
  simp only [Except.ok.injEq] at hnext
  subst hnext
  cases hd : ex.resp.fcgibody.done with
  | true =>
    rw [heard, if_pos hd]
    exact ⟨rfl, rfl, rfl, rfl, fun _ => rfl, fun hd' => absurd hd (by rw [hd']; decide)⟩
  | false =>
    rw [heard, if_neg (by simp [hd])]
    exact ⟨rfl, rfl, rfl, rfl, fun hd' => absurd hd (by rw [hd']; decide), fun _ =>
      ⟨_, rfl, fun unread hu => InnerConnection.pollResp_running hresp hu⟩⟩

theorem passed_others {ex ex' : Exchange} {con : Mutex InnerConnection}
    (hun : ex.Untouched key (.others con)) (hnext : ex.next http key (.others con) = .ok ex') :
    Passed key ex ex' := by
  cases hnext
  refine ⟨rfl, rfl, rfl, rfl, fun _ => rfl, fun hd =>
    ⟨[], (List.append_nil _).symm, fun unread hu => ?_⟩⟩
  rw [List.append_nil]
  exact hun hd unread _ hu

/-- A turn of `create_response` in its loop, with the bytes it kept and those that are unread:
it waits for the lock or for bytes; it is given a frame; or the request is over. -/
theorem next_reading {ex ex' : Exchange} {buf : Option Bytes} {rheaders : HeaderMap}
    (hr : ex.resp = .reading ⟨key, false, false⟩ buf rheaders) {unread : Bytes}
    (hunread : Unread key ex unread) (harr : ex.arrived = buf.getD [] ++ unread)
    {sock : SocketRead} {cx : Waker} (hnext : ex.next http key (.respond sock cx) = .ok ex') :
    ex' = ex ∨ (ex'.frames = ex.frames ∧ ex'.finished = ex.finished ∧ ex'.back = ex.back ∧
      ((ex'.resp = ex.resp ∧ ∃ unread', Unread key ex' unread' ∧
          ex'.arrived = buf.getD [] ++ unread') ∨
        (∃ b rest, b ++ rest ≠ [] ∧
          CreateResponse.receive http ⟨key, false, false⟩ buf rheaders b = .ok ex'.resp ∧
          Unread key ex' rest ∧ ex'.arrived = buf.getD [] ++ b ++ rest) ∨
        (ex'.ended = true ∧ Unread key ex' [] ∧ ex'.arrived = buf.getD [] ∧
          ex'.resp = CreateResponse.handOver ⟨key, false, false⟩ 200 rheaders))) := by
  rw [next, hr] at hnext
  obtain ⟨⟨resp', con', eff⟩, hpoll, hex⟩ := bind_eq_ok.mp hnext
  clear hnext
  simp only [Except.ok.injEq] at hex
  obtain ⟨res, fcgibody', hframe, hcases⟩ := CreateResponse.poll_reading hpoll
  have hd : FCGIBody.done ⟨key, false, false⟩ = false := rfl
  rcases FCGIBody.pollFrame_running hd hunread hframe with
    ⟨hheld, rfl, rfl, rfl⟩ | ⟨hfree, unread', ended', hu', he', hframed⟩
  · -- the connection is locked
    rw [heardFree, if_neg hheld] at hex
    rcases hcases with ⟨-, rfl⟩ | ⟨h, -⟩ | ⟨b, h, -⟩
    · left
      rw [← hex, ← hr]
    · cases h
    · cases h
  · rw [heardFree, if_pos hfree, heard, if_neg (by simp [hr, CreateResponse.fcgibody])] at hex
    have harr' : ex'.arrived = buf.getD [] ++ unread' := by
      rw [← hex, hu', ← List.append_assoc, ← harr]
    have hend' : ex'.ended = ended' := by rw [← hex, he']
    have hrun' : ∀ u, con'.inner.Running key u ended' → Unread key ex' u := by
      intro u hu
      rw [Unread, hend', ← hex]
      exact hu
    have hresp' : ex'.resp = resp' := by rw [← hex]
    refine Or.inr ⟨by rw [← hex], by rw [← hex], by rw [← hex], ?_⟩
    rw [hresp', hr]
    rcases hframed with ⟨rfl, rfl, hrun⟩ | ⟨b, rest, rfl, rfl, hb, hrun⟩ | ⟨b, -, -, hret, -⟩ |
        ⟨rfl, hnil, hended, ⟨hret, -⟩ | ⟨-, rfl, hrun⟩⟩
    · -- nothing yet
      rcases hcases with ⟨-, rfl⟩ | ⟨h, -⟩ | ⟨b, h, -⟩
      · exact Or.inl ⟨rfl, unread', hrun' _ hrun, harr'⟩
      · cases h
      · cases h
    · -- a frame
      rcases hcases with ⟨h, -⟩ | ⟨h, -⟩ | ⟨b', h, hreceive⟩
      · cases h
      · cases h
      obtain rfl : b = b' := by simpa using h
      have hrunning : ex.con.inner.Running (FCGIBody.rid ⟨key, false, false⟩) unread ex.ended :=
        hunread
      have hsome := FCGIBody.unread_of_frame hrunning hframe
      rw [← hu', hb] at hsome
      rw [hb, ← List.append_assoc] at harr'
      exact Or.inr (Or.inl ⟨b, rest, hsome, hreceive, hrun' _ hrun, harr'⟩)
    · cases hret
    · cases hret
    · -- the request ended before its headers did
      rcases hcases with ⟨h, -⟩ | ⟨-, rfl⟩ | ⟨b, h, -⟩
      · cases h
      · rw [hnil, List.append_nil] at harr'
        exact Or.inr (Or.inr ⟨hend'.trans hended, hrun' _ hrun, harr', rfl⟩)
      · cases h

/-- A turn of `create_response` in front of the lock: it waits for it, or puts back what is left
of the frame. -/
theorem next_putting {ex ex' : Exchange} {fcgibody : FCGIBody} {bodydata : Bytes}
    {rheaders : HeaderMap} (hr : ex.resp = .putting fcgibody bodydata rheaders) {sock : SocketRead}
    {cx : Waker} (hnext : ex.next http key (.respond sock cx) = .ok ex') :
    ex' = ex ∨ ∃ inner, CreateResponse.putBack fcgibody bodydata ex.con.inner = .ok inner ∧
      ex' = { ex with
        resp := CreateResponse.handOver fcgibody (CreateResponse.statusOf http rheaders) rheaders
        con := { ex.con with inner }
        back := some (bodydata, ex.unread key) } := by
  rw [next, hr] at hnext
  obtain ⟨⟨resp', con', eff⟩, hpoll, hex⟩ := bind_eq_ok.mp hnext
  rw [CreateResponse.poll] at hpoll
  cases hw : ex.con.waiters with
  | some q =>
    simp only [hw, Except.ok.injEq, Prod.mk.injEq] at hpoll
    obtain ⟨rfl, rfl, -⟩ := hpoll
    simp only [hw, reduceCtorEq, if_false, Except.ok.injEq] at hex
    left
    rw [← hex, ← hr]
  | none =>
    simp only [hw] at hpoll
    obtain ⟨inner, hput, hpoll⟩ := bind_eq_ok.mp hpoll
    cases hpoll
    simp only [hw, if_true, Except.ok.injEq] at hex
    refine Or.inr ⟨inner, hput, ?_⟩
    rw [← hex]
    simp only [hw]

/-! ### Where the bytes are -/

/-- Before the caller has the body. -/
structure Unreturned (key : ℕ) (ex : Exchange) (fcgibody : FCGIBody) : Prop where
  body : fcgibody = ⟨key, false, false⟩
  frames : ex.frames = []
  finished : ex.finished = false
  back : ex.back = none

/-- Behind the header block came `rest`, then `queued`, then `tail`; the caller is given
`queued` before `rest`. -/
structure HandedOver (key : ℕ) (block stdout : Bytes) (ex : Exchange) (fcgibody : FCGIBody)
    (rest queued tail : Bytes) : Prop where
  rid : fcgibody.rid = key
  wasReturned : fcgibody.wasReturned = true
  back : ex.back = some (rest, queued) ∨ (ex.back = none ∧ rest = [] ∧ queued = [])
  arrived : ex.arrived = block ++ rest ++ queued ++ tail
  open_ : fcgibody.done = false → ex.finished = false ∧
    ∃ unread, Unread key ex unread ∧ ex.frames.flatten ++ unread = queued ++ rest ++ tail
  done : fcgibody.done = true → ex.arrived = stdout ∧
    ex.frames.flatten = queued ++ rest ++ tail

/-- Where the bytes of the request are. -/
def Placed (key : ℕ) (block stdout : Bytes) (ex : Exchange) : Prop :=
  match ex.resp with
  | .reading fcgibody buf _ => Unreturned key ex fcgibody ∧
      (∀ b, buf = some b → b.length < block.length) ∧
      ∃ unread, Unread key ex unread ∧ ex.arrived = buf.getD [] ++ unread
  | .putting fcgibody bodydata _ => Unreturned key ex fcgibody ∧
      ∃ unread, Unread key ex unread ∧ ex.arrived = block ++ bodydata ++ unread
  | .returned fcgibody _ _ => ∃ rest queued tail,
      HandedOver key block stdout ex fcgibody rest queued tail

/-- Bytes that arrive while nothing else happens go behind the unread ones. -/
theorem Placed.arrive {ex ex' : Exchange} (h : Placed key block stdout ex)
    (hopen : ex.resp.fcgibody.done = false) (hresp : ex'.resp = ex.resp)
    (hframes : ex'.frames = ex.frames) (hfin : ex'.finished = ex.finished)
    (hback : ex'.back = ex.back) (new : Bytes) (harr : ex'.arrived = ex.arrived ++ new)
    (hunread : ∀ unread, Unread key ex unread → Unread key ex' (unread ++ new)) :
    Placed key block stdout ex' := by
  unfold Placed at h ⊢
  rw [hresp]
  cases hr : ex.resp with
  | reading fcgibody buf rheaders =>
    rw [hr] at h
    obtain ⟨hun, hbuf, unread, hu, ha⟩ := h
    exact ⟨⟨hun.body, hframes.trans hun.frames, hfin.trans hun.finished, hback.trans hun.back⟩,
      hbuf, _, hunread _ hu, by rw [harr, ha, List.append_assoc]⟩
  | putting fcgibody bodydata rheaders =>
    rw [hr] at h
    obtain ⟨hun, unread, hu, ha⟩ := h
    exact ⟨⟨hun.body, hframes.trans hun.frames, hfin.trans hun.finished, hback.trans hun.back⟩,
      _, hunread _ hu, by rw [harr, ha, List.append_assoc]⟩
  | returned fcgibody status rheaders =>
    rw [hr] at h hopen
    obtain ⟨rest, queued, tail, ho⟩ := h
    refine ⟨rest, queued, tail ++ new, ho.rid, ho.wasReturned, hback ▸ ho.back, ?_, fun hd => ?_,
      fun hd => absurd hd (by rw [show fcgibody.done = false from hopen]; decide)⟩
    · rw [harr, ho.arrived]
      simp only [List.append_assoc]
    · obtain ⟨hf, unread, hu, hfr⟩ := ho.open_ hd
      refine ⟨hfin.trans hf, _, hunread _ hu, ?_⟩
      rw [hframes, ← List.append_assoc, hfr]
      simp only [List.append_assoc]

/-- Once the body is done, only its history counts. -/
theorem Placed.keep {ex ex' : Exchange} (h : Placed key block stdout ex)
    (hdone : ex.resp.fcgibody.done = true) (hresp : ex'.resp = ex.resp)
    (hframes : ex'.frames = ex.frames) (hback : ex'.back = ex.back)
    (harr : ex'.arrived = ex.arrived) : Placed key block stdout ex' := by
  unfold Placed at h ⊢
  rw [hresp]
  cases hr : ex.resp with
  | reading fcgibody buf rheaders =>
    rw [hr] at h hdone
    rw [h.1.body] at hdone
    cases hdone
  | putting fcgibody bodydata rheaders =>
    rw [hr] at h hdone
    rw [h.1.body] at hdone
    cases hdone
  | returned fcgibody status rheaders =>
    rw [hr] at h hdone
    obtain ⟨rest, queued, tail, ho⟩ := h
    refine ⟨rest, queued, tail, ho.rid, ho.wasReturned, hback ▸ ho.back, harr.trans ho.arrived,
      fun hd => absurd (show fcgibody.done = true from hdone) (by rw [hd]; decide), fun hd => ?_⟩
    exact ⟨harr.trans (ho.done hd).1, hframes ▸ (ho.done hd).2⟩

/-- The steps of other tasks. -/
theorem Placed.pass {ex ex' : Exchange} (h : Placed key block stdout ex) (hp : Passed key ex ex') :
    Placed key block stdout ex' := by
  cases hd : ex.resp.fcgibody.done with
  | true => exact h.keep hd hp.resp hp.frames hp.back (hp.done hd)
  | false =>
    obtain ⟨new, harr, hunread⟩ := hp.arrive hd
    exact h.arrive hd hp.resp hp.frames hp.finished hp.back new harr hunread

/-- A turn of `create_response` in its loop. -/
theorem placed_reading (hs : http.PrefixStable) (hblock : http.Block block)
    (hout : block <+: stdout) {ex ex' : Exchange} {fcgibody : FCGIBody} {buf : Option Bytes}
    {rheaders : HeaderMap} (hr : ex.resp = .reading fcgibody buf rheaders) {sock : SocketRead}
    {cx : Waker} (h : Placed key block stdout ex) (hfits : ex'.Fits stdout)
    (hnext : ex.next http key (.respond sock cx) = .ok ex') : Placed key block stdout ex' := by
  have hplaced := h
  rw [Placed, hr] at h
  obtain ⟨⟨rfl, hframes, hfin, hback⟩, hbuf, unread, hunread, harr⟩ := h
  rcases next_reading hr hunread harr hnext with rfl | ⟨hframes', hfin', hback', hturn⟩
  · exact hplaced
  have hun' : Unreturned key ex' ⟨key, false, false⟩ :=
    ⟨rfl, hframes'.trans hframes, hfin'.trans hfin, hback'.trans hback⟩
  rw [Placed]
  rcases hturn with ⟨hresp, unread', hu, harr'⟩ | ⟨b, rest, -, hreceive, hu, harr'⟩ |
      ⟨hended, hu, harr', hresp⟩
  · -- nothing yet
    rw [hresp, hr]
    exact ⟨hun', hbuf, unread', hu, harr'⟩
  · -- a frame
    have hpre : buf.getD [] ++ b <+: block ∨ block <+: buf.getD [] ++ b := by
      refine List.prefix_or_prefix_of_prefix (List.IsPrefix.trans ?_ hfits.1) hout
      exact ⟨rest, harr'.symm⟩
    rcases CreateResponse.receive_cases hs hblock hreceive hpre with
      ⟨-, hlt, hresp⟩ | ⟨bodydata, rheaders', hcut, ⟨rfl, hresp⟩ | ⟨-, hresp⟩⟩
    · rw [hresp]
      refine ⟨hun', fun b' hb' => ?_, rest, hu, harr'⟩
      rw [← Option.some.inj hb']
      exact hlt
    · rw [hcut, List.append_nil] at harr'
      rw [hresp]
      exact ⟨[], [], rest, rfl, rfl, Or.inr ⟨hun'.back, rfl, rfl⟩, by simpa using harr',
        fun _ => ⟨hun'.finished, rest, hu, by simp [hun'.frames]⟩, nofun⟩
    · rw [hcut] at harr'
      rw [hresp]
      exact ⟨hun', rest, hu, harr'⟩
  · -- the request ended before anything came: there is neither a block nor a body
    have hall := hfits.2 hended
    have hnone : buf = none := by
      cases hb : buf with
      | none => rfl
      | some b =>
        have hlt := hbuf b hb
        have hle := hout.length_le
        rw [← hall, harr', hb, Option.getD_some] at hle
        omega
    rw [hnone, Option.getD_none] at harr'
    have hblocknil : block = [] := by
      rw [← hall, harr'] at hout
      exact List.prefix_nil.mp hout
    rw [hresp]
    exact ⟨[], [], [], rfl, rfl, Or.inr ⟨hun'.back, rfl, rfl⟩, by simp [harr', hblocknil],
      fun _ => ⟨hun'.finished, [], hu, by simp [hun'.frames]⟩, nofun⟩

/-- `create_response` in front of the lock. -/
theorem placed_putting {ex ex' : Exchange} {fcgibody : FCGIBody} {bodydata : Bytes}
    {rheaders : HeaderMap} (hr : ex.resp = .putting fcgibody bodydata rheaders) {sock : SocketRead}
    {cx : Waker} (h : Placed key block stdout ex)
    (hnext : ex.next http key (.respond sock cx) = .ok ex') : Placed key block stdout ex' := by
  have hplaced := h
  rw [Placed, hr] at h
  obtain ⟨⟨rfl, hframes, hfin, hback⟩, unread, ⟨mpxs, hq, hlive, hbuf, hend⟩, harr⟩ := h
  rcases next_putting hr hnext with rfl | ⟨inner, hput, rfl⟩
  · exact hplaced
  simp only [CreateResponse.putBack, hq, Except.ok.injEq] at hput
  subst hput
  have hunread : ex.unread key = unread := by simp only [Exchange.unread, hq, hbuf]
  rw [hunread]
  refine ⟨bodydata, unread, [], rfl, rfl, Or.inl rfl, by simpa using harr,
    fun _ => ⟨hfin, unread ++ bodydata, ?_, by simp [hframes]⟩, nofun⟩
  exact ⟨{ mpxs with buf := mpxs.buf.push bodydata }, by simp [Slab.get?_set hq], hlive,
    by simp [hbuf], hend⟩

theorem placed_respond (hs : http.PrefixStable) (hblock : http.Block block)
    (hout : block <+: stdout) {ex ex' : Exchange} {sock : SocketRead} {cx : Waker}
    (h : Placed key block stdout ex) (hfits : ex'.Fits stdout)
    (hnext : ex.next http key (.respond sock cx) = .ok ex') : Placed key block stdout ex' := by
  cases hr : ex.resp with
  | reading fcgibody buf rheaders => exact placed_reading hs hblock hout hr h hfits hnext
  | putting fcgibody bodydata rheaders => exact placed_putting hr h hnext
  | returned fcgibody status rheaders =>
    simp only [next, hr, CreateResponse.poll, ok_bind, Except.ok.injEq] at hnext
    subst hnext
    rwa [← hr]

/-- A `poll_frame` of the caller. -/
theorem placed_read {ex ex' : Exchange} {sock : SocketRead} {cx : Waker}
    (h : Placed key block stdout ex) (hfits : ex'.Fits stdout)
    (hnext : ex.next http key (.read sock cx) = .ok ex') : Placed key block stdout ex' := by
  have hplaced := h
  rw [next] at hnext
  cases hr : ex.resp with
  | reading fcgibody buf rheaders =>
    simp only [hr, Except.ok.injEq] at hnext
    rwa [← hnext]
  | putting fcgibody bodydata rheaders =>
    simp only [hr, Except.ok.injEq] at hnext
    rwa [← hnext]
  | returned fcgibody status rheaders =>
    rw [hr] at hnext
    obtain ⟨⟨res, fcgibody', con', eff⟩, hframe, hex⟩ := bind_eq_ok.mp hnext
    clear hnext
    simp only at hex
    rw [Placed, hr] at h
    obtain ⟨rest, queued, tail, ho⟩ := h
    obtain rfl := ho.rid
    cases hd : fcgibody.done with
    | true =>
      obtain ⟨harr, hfr⟩ := ho.done hd
      have hdone : ex.resp.fcgibody.done = true := by rw [hr]; exact hd
      cases FCGIBody.pollFrame_framed hframe with
      | done =>
        have hheard : ex.heardFree fcgibody.rid sock cx = ex := by
          rw [heardFree, heard, if_pos hdone, ite_self]
        simp only [hheard, Except.ok.injEq] at hex
        subst hex
        exact ⟨rest, queued, tail, ho.rid, ho.wasReturned, ho.back, ho.arrived,
          fun hd' => absurd hd (by rw [hd']; decide), fun _ => ⟨harr, hfr⟩⟩
      | contended hd' => rw [hd] at hd'; cases hd'
      | served hd' => rw [hd] at hd'; cases hd'
    | false =>
      obtain ⟨hfin, unread, hunread, hfr⟩ := ho.open_ hd
      rcases FCGIBody.pollFrame_running hd hunread hframe with
        ⟨hheld, rfl, rfl, rfl⟩ | ⟨hfree, unread', ended', hu', he', hframed⟩
      · -- another task holds the transport
        rw [heardFree, if_neg hheld] at hex
        simp only [Except.ok.injEq] at hex
        subst hex
        rw [← hr]
        exact hplaced
      · have hopen : ¬ ex.resp.fcgibody.done = true := by
          rw [hr]
          exact (by rw [hd]; decide : ¬ fcgibody.done = true)
        rw [heardFree, if_pos hfree, heard, if_neg hopen] at hex
        have harr' : ex.arrived ++ ex.con.inner.stdOutRead sock cx fcgibody.rid =
            block ++ rest ++ queued ++
              (tail ++ ex.con.inner.stdOutRead sock cx fcgibody.rid) := by
          rw [ho.arrived, List.append_assoc (block ++ rest ++ queued)]
        have hfr' : ex.frames.flatten ++ unread' =
            queued ++ rest ++ (tail ++ ex.con.inner.stdOutRead sock cx fcgibody.rid) := by
          rw [hu', ← List.append_assoc, hfr, List.append_assoc (queued ++ rest)]
        rcases hframed with ⟨rfl, rfl, hrun⟩ | ⟨b, left, rfl, rfl, hb, hrun⟩ |
            ⟨b, rfl, rfl, -, hb, hended⟩ | ⟨rfl, hnil, hended, ⟨-, rfl⟩ | ⟨hret, -⟩⟩
        · -- nothing yet
          simp only [Except.ok.injEq] at hex
          subst hex
          refine ⟨rest, queued, _, rfl, ho.wasReturned, ho.back, harr', fun _ => ?_,
            fun hd' => absurd hd' (by rw [hd]; decide)⟩
          rw [he'] at hrun
          exact ⟨hfin, unread', hrun, hfr'⟩
        · -- a frame, and the entry stays
          simp only [Except.ok.injEq] at hex
          subst hex
          refine ⟨rest, queued, _, rfl, ho.wasReturned, ho.back, harr', fun _ => ?_,
            fun hd' => absurd hd' (by rw [hd]; decide)⟩
          rw [he'] at hrun
          exact ⟨hfin, left, hrun, by rw [← hfr', hb]; simp⟩
        · -- the last frame
          simp only [Except.ok.injEq] at hex
          subst hex
          refine ⟨rest, queued, _, ho.rid, ho.wasReturned, ho.back, harr', nofun, fun _ => ?_⟩
          rw [he'] at hended
          exact ⟨hfits.2 hended, by rw [← hfr', hb]; simp⟩
        · -- the end
          simp only [Except.ok.injEq] at hex
          subst hex
          refine ⟨rest, queued, _, ho.rid, ho.wasReturned, ho.back, harr', nofun, fun _ => ?_⟩
          rw [he'] at hended
          exact ⟨hfits.2 hended, by rw [← hfr', hnil, List.append_nil]⟩
        · rw [ho.wasReturned] at hret
          cases hret

theorem placed_step (hs : http.PrefixStable) (hblock : http.Block block) (hout : block <+: stdout)
    {ex ex' : Exchange} {ev : Event} (h : Placed key block stdout ex)
    (hstep : Step http key stdout ex ev ex') : Placed key block stdout ex' := by
  obtain ⟨hnext, huntouched, hfits⟩ := hstep
  cases ev with
  | respond sock cx => exact placed_respond hs hblock hout h hfits hnext
  | read sock cx => exact placed_read h hfits hnext
  | drive sock cx => exact h.pass (passed_drive hnext)
  | others con => exact h.pass (passed_others huntouched hnext)

theorem placed_start {con : Mutex InnerConnection} {permit : Permit}
    (hnew : con.inner.runningRequests.get? key = some (.new permit)) :
    Placed key block stdout (start key con) :=
  ⟨⟨rfl, rfl, rfl, rfl⟩, nofun, [], ⟨_, hnew, rfl, rfl, rfl⟩, rfl⟩

/-- **What the caller reads.** A new request for which the application writes a header block
and `body`, in any records; any order of turns of `create_response`, reads of the caller and
steps of other tasks. When the caller has seen the end, its frames are `body` exactly if what
`create_response` put back and what was in the buffer then can change places. -/
theorem frames_eq_body_iff (hs : http.PrefixStable) (hblock : http.Block block)
    {body : Bytes} {con : Mutex InnerConnection} {permit : Permit}
    (hnew : con.inner.runningRequests.get? key = some (.new permit)) {evs : List Event}
    {ex : Exchange} (hrun : Run (Step http key (block ++ body)) (start key con) evs ex)
    (hfin : ex.finished = true) :
    ex.frames.flatten = body ↔
      ∀ rest queued, ex.back = some (rest, queued) → queued ++ rest = rest ++ queued := by
  have hplaced : Placed key block (block ++ body) ex :=
    hrun.inv (placed_start hnew) fun _ _ _ h hstep =>
      placed_step hs hblock (List.prefix_append block body) h hstep
  unfold Placed at hplaced
  cases hr : ex.resp with
  | reading fcgibody buf rheaders =>
    rw [hr] at hplaced
    rw [hplaced.1.finished] at hfin
    cases hfin
  | putting fcgibody bodydata rheaders =>
    rw [hr] at hplaced
    rw [hplaced.1.finished] at hfin
    cases hfin
  | returned fcgibody status rheaders =>
    rw [hr] at hplaced
    obtain ⟨rest, queued, tail, ho⟩ := hplaced
    have hdone : fcgibody.done = true := by
      by_contra hd
      rw [(ho.open_ (Bool.eq_false_iff.mpr hd)).1] at hfin
      cases hfin
    obtain ⟨harr, hfr⟩ := ho.done hdone
    have hbody : rest ++ queued ++ tail = body := by
      have h := ho.arrived.symm.trans harr
      rw [List.append_assoc, List.append_assoc, List.append_cancel_left_eq] at h
      rw [List.append_assoc, h]
    rw [hfr, ← hbody, List.append_cancel_right_eq]
    rcases ho.back with hback | ⟨hback, rfl, rfl⟩
    · simp [hback, eq_comm]
    · simp [hback]

/-! ## Two runs -/

instance (stdout : Bytes) (ex : Exchange) : Decidable (ex.Fits stdout) :=
  inferInstanceAs (Decidable (_ ∧ _))

/-- Events without `others` one after the other, while the state fits. -/
def replay (http : Http) (key : ℕ) (stdout : Bytes) (ex : Exchange) :
    List Event → Option Exchange
  | [] => some ex
  | .others _ :: _ => none
  | ev :: evs =>
    match ex.next http key ev with
    | .error _ => none
    | .ok ex' => if ex'.Fits stdout then replay http key stdout ex' evs else none

theorem run_of_replay (evs : List Event) : ∀ {ex ex' : Exchange},
    replay http key stdout ex evs = some ex' → Run (Step http key stdout) ex evs ex' := by
  induction evs with
  | nil =>
    intro ex ex' h
    cases h
    exact .nil
  | cons ev evs ih =>
    intro ex ex' h
    have hev : ∃ ex₁, Step http key stdout ex ev ex₁ ∧
        replay http key stdout ex₁ evs = some ex' := by
      cases ev with
      | others con => cases h
      | _ =>
        simp only [replay] at h
        split at h
        · cases h
        · split at h
          · exact ⟨_, ⟨‹_›, trivial, ‹_›⟩, h⟩
          · cases h
    obtain ⟨ex₁, hstep, h⟩ := hev
    have hfirst : Run (Step http key stdout) ex [ev] ex₁ := .snoc .nil hstep
    exact hfirst.append (ih h)

/-- The shortest header block. -/
def emptyHead : Bytes := [13, 10]

/-- The block with the first half of a body, and the second half. -/
def firstHalf : WireRecord := { InnerConnection.greeting with
  content := [13, 10, 97, 98]
  padding := []
  content_le := by decide
  padding_le := noPadding_le }

def secondHalf : WireRecord := { InnerConnection.greeting with
  content := [99, 100]
  padding := []
  content_le := by decide
  padding_le := noPadding_le }

/-- The end of request 1. -/
def lastRecord : WireRecord := { InnerConnection.greeting with
  rtype := .endRequest
  content := [0, 0, 0, 0, 0, 0, 0, 0]
  padding := []
  content_le := endBody_le
  padding_le := noPadding_le }

/-- The second half comes after the first was put back. -/
theorem frames_eq_body_iff_halves :
    ∃ evs ex, Run (Step (onlyBlock emptyHead) 0 (emptyHead ++ [97, 98, 99, 100]))
        (start 0 FCGIBody.freshCon) evs ex ∧
      ex.finished = true ∧ ex.frames.flatten = [97, 98, 99, 100] := by
  have hrun : (replay (onlyBlock emptyHead) 0 (emptyHead ++ [97, 98, 99, 100])
      (start 0 FCGIBody.freshCon)
      [.respond (.ready firstHalf.encode) 7, .respond .pending 7, .read .pending 7,
        .read (.ready (secondHalf.encode ++ lastRecord.encode)) 7, .read .pending 7]).map
        (fun ex => (ex.finished, ex.back)) = some (true, some ([97, 98], [])) := by
    decide +kernel
  obtain ⟨ex, hreplay, hex⟩ := Option.map_eq_some_iff.mp hrun
  simp only [Prod.mk.injEq] at hex
  refine ⟨_, ex, run_of_replay _ hreplay, hex.1, ?_⟩
  refine (frames_eq_body_iff (onlyBlock_prefixStable _) (onlyBlock_block _) rfl
    (run_of_replay _ hreplay) hex.1).mpr fun rest queued hback => ?_
  rw [hex.2] at hback
  cases hback
  rfl

/-- Both halves are queued before the first poll: `create_response` puts the first one back
behind the second. -/
theorem frames_reordered :
    ¬ ∀ evs ex, Run (Step (onlyBlock emptyHead) 0 (emptyHead ++ [97, 98, 99, 100]))
        (start 0 FCGIBody.freshCon) evs ex → ex.finished = true →
      ex.frames.flatten = [97, 98, 99, 100] := by
  have hrun : (replay (onlyBlock emptyHead) 0 (emptyHead ++ [97, 98, 99, 100])
      (start 0 FCGIBody.freshCon)
      [.drive (.ready (firstHalf.encode ++ secondHalf.encode)) 9, .respond .pending 7,
        .respond .pending 7, .read .pending 7, .read (.ready lastRecord.encode) 7,
        .read .pending 7]).map
        (fun ex => (ex.finished, ex.frames.flatten)) = some (true, [99, 100, 97, 98]) := by
    decide +kernel
  obtain ⟨ex, hreplay, hex⟩ := Option.map_eq_some_iff.mp hrun
  simp only [Prod.mk.injEq] at hex
  intro h
  have hbody := h _ ex (run_of_replay _ hreplay) hex.1
  rw [hex.2] at hbody
  exact absurd hbody (by decide)

end Exchange

end AsyncFcgi
