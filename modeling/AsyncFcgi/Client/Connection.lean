import AsyncFcgi.Client.Table
import AsyncFcgi.Lib.Run

/-!
# A connection and the calls of `forward` on it (`src/client/connection.rs`)

`Connection` with any number of calls of `forward` in flight, from the semaphore to the drop of
the response body. A call is where it stands at an await (`Forward`); an `Event` is what one of
them does next, with the result of the write, the connect or the read it waited for.

The mutex is held from `lock().await` to the end of a request's head, and by `send_body` for
each chunk. Which of the waiting calls gets a free mutex is left open, so its queue stays empty.
What is written to the socket is not part of this model.

* `next`: the state after an event, if the event can happen.
* `Runs`: the runs of a new connection.
-/

namespace AsyncFcgi

open Lib

/-- Where the upload of a request stands: between two chunks, with the lock, or behind the end
of STDIN. -/
inductive Upload
  | idle
  | locked
  | done
  deriving DecidableEq, Repr

/-- Where a call of `forward` (lines 230–406) stands; `none` is a `create_response` that was
not polled yet. A call is its own permit: that of the call at `j` is `j`. -/
inductive Forward
  /-- has a permit, and waits for the lock -/
  | waiting
  /-- has the lock, in front of `check_alive` -/
  | checking
  /-- found the connection dead, and shuts it down -/
  | shutting
  /-- told everyone, and connects again -/
  | connecting
  /-- writes BEGIN_REQUEST, PARAMS and, without a body, the end of STDIN -/
  | sending (rid : UInt16)
  /-- `send_body` and `create_response`, without the lock between two chunks -/
  | exchanging (rid : UInt16) (upload : Upload) (resp : Option CreateResponse)
  /-- `send_body` failed, or the call was dropped; `create_response` is still there -/
  | failed (rid : UInt16) (resp : Option CreateResponse)
  /-- the caller has the response -/
  | returned (body : FCGIBody)
  /-- nothing is left of the call -/
  | left
  deriving DecidableEq, Repr

/-- How the head of a request ends: a body follows, or none, a write failed, or
`HeaderMultilineStrategy::ReturnError` met a line feed and ABORT_REQUEST was sent. -/
inductive HeadResult
  | body
  | noBody
  | writeFailed
  | headerRejected
  deriving DecidableEq, Repr

/-- How `send_body` leaves the lock: a chunk was written, the end of STDIN was, a write failed,
or the body was too short and ABORT_REQUEST was sent. -/
inductive UploadResult
  | chunk
  | last
  | writeFailed
  | tooShort
  deriving DecidableEq, Repr

/-- `Connection` (lines 107–113): the free permits of the semaphore, the connection behind its
mutex, and the calls of `forward`. The last three fields are history: the permits dropped so
far, the records processed so far, and the call whose task the socket remembers. -/
structure Connection where
  sem : ℕ
  inner : Mutex InnerConnection
  calls : List Forward
  released : List Permit
  log : List Record
  reader : Option ℕ
  deriving DecidableEq, Repr

namespace Connection

/-- What happens next; `j` is the call that does it. -/
inductive Event
  /-- a call gets a permit -/
  | acquire
  /-- gets the lock -/
  | lock (j : ℕ)
  /-- `check_alive`; on a live connection the request is inserted at `key` -/
  | check (j : ℕ) (sock : SocketRead) (cx : Waker) (key : ℕ)
  /-- the dead connection is shut down, `notify_everyone` -/
  | shutdown (j : ℕ)
  /-- connects again, or not; the request is inserted at `key` -/
  | connect (j : ℕ) (ok : Bool) (key : ℕ)
  /-- the head of the request is written, or not -/
  | head (j : ℕ) (res : HeadResult)
  /-- `send_body` gets the lock -/
  | uploadLock (j : ℕ)
  /-- and leaves it -/
  | upload (j : ℕ) (res : UploadResult)
  /-- a turn of `create_response` -/
  | respond (j : ℕ) (sock : SocketRead) (cx : Waker)
  /-- both are done: the caller gets the response -/
  | finish (j : ℕ)
  /-- the caller polls the body -/
  | read (j : ℕ) (sock : SocketRead) (cx : Waker)
  /-- the body is dropped: by the caller, or with the `create_response` of a failed call -/
  | drop (j : ℕ)
  /-- the caller drops the call -/
  | cancel (j : ℕ)

/-- The call that does something; a new one is not there yet. -/
def Event.call? : Event → Option ℕ
  | .acquire => none
  | .lock j | .check j _ _ _ | .shutdown j | .connect j _ _ | .head j _ | .uploadLock j
  | .upload j _ | .respond j _ _ | .finish j | .read j _ _ | .drop j | .cancel j => some j

/-- `connect_with_strategy` (lines 148–165). -/
def connect (maxReqPerCon : UInt16) : Connection where
  sem := maxReqPerCon.toNat
  inner := ⟨.fresh .empty, none⟩
  calls := []
  released := []
  log := []
  reader := none

/-- `Connection::is_ready` (lines 169–171). -/
def isReady (self : Connection) : Bool := 0 < self.sem

/-- The id of a request (line 271). -/
def ridOf (key : ℕ) : UInt16 := UInt16.ofNat (key + 1)

/-- The request is inserted into the slab (line 271). -/
def insert (inner : InnerConnection) (key : ℕ) (permit : Permit) : InnerConnection :=
  { inner with runningRequests := inner.runningRequests.insertAt key (.new permit) }

/-- The call at `j` goes on; permits that were dropped are free again. -/
def move (self : Connection) (j : ℕ) (call : Forward) (inner : Mutex InnerConnection)
    (eff : Effects) : Connection :=
  { self with
    sem := self.sem + eff.released.length
    inner := inner
    calls := self.calls.set j call
    released := self.released ++ eff.released }

/-- The history after a call of `poll_resp`. -/
def hear (self : Connection) (j : ℕ) (sock : SocketRead) (cx : Waker) : Connection :=
  { self with
    log := self.log ++ self.inner.inner.records sock cx
    reader := if self.inner.inner.slice sock cx = .pending then some j else self.reader }

/-- The history after a `poll_frame` of `body`, which calls `poll_resp` if the body is not done
and it gets the lock. -/
def hearBody (self : Connection) (body : FCGIBody) (j : ℕ) (sock : SocketRead) (cx : Waker) :
    Connection :=
  if body.done = false ∧ self.inner.waiters = none then self.hear j sock cx else self

/-- The mutex without its guard, over `inner`. -/
def unlocked (inner : InnerConnection) : Mutex InnerConnection :=
  (Mutex.unlock { inner, waiters := some [] }).1

/-- The step to `self.move j call inner eff`. -/
def step (self : Connection) (j : ℕ) (call : Forward) (inner : Mutex InnerConnection)
    (eff : Effects) : Except Fault (Option (Connection × Effects)) :=
  .ok (some (self.move j call inner eff, eff))

variable (http : Http)

/-- The first poll of `create_response` subtracts 1 from the id (line 464). -/
def responseOf (rid : UInt16) : Option CreateResponse → Except Fault CreateResponse
  | some resp => .ok resp
  | none => if rid = 0 then .error .overflow else .ok (.new (rid.toNat - 1))

/-- `check_alive` (lines 259–269): the request is inserted, or the connection is found dead, or
the call returns the error. -/
def nextCheck (self : Connection) (j : ℕ) (sock : SocketRead) (cx : Waker) (key : ℕ) :
    Except Fault (Option (Connection × Effects)) := do
  let (res, inner, eff) ← self.inner.inner.pollResp sock cx
  let heard := self.hear j sock cx
  match InnerConnection.checkAlive res with
  | .error _ => heard.step j .left (unlocked inner) (eff ++ .release j)
  | .ok false => heard.step j .shutting { self.inner with inner } eff
  | .ok true =>
    if inner.runningRequests.CanInsert key then
      heard.step j (.sending (ridOf key)) { self.inner with inner := insert inner key j } eff
    else .ok none

/-- A turn of `create_response` of the call at `j`. -/
def nextRespond (self : Connection) (j : ℕ) (rid : UInt16) (upload : Upload)
    (resp : Option CreateResponse) (sock : SocketRead) (cx : Waker) :
    Except Fault (Option (Connection × Effects)) := do
  let resp ← responseOf rid resp
  let (resp', inner, eff) ← resp.poll http self.inner sock cx
  let heard :=
    match resp with
    | .reading body _ _ => self.hearBody body j sock cx
    | _ => self
  heard.step j (.exchanging rid upload (some resp')) inner eff

/-- The caller polls the body. -/
def nextRead (self : Connection) (j : ℕ) (body : FCGIBody) (sock : SocketRead) (cx : Waker) :
    Except Fault (Option (Connection × Effects)) := do
  let (_, body', inner, eff) ← body.pollFrame self.inner sock cx
  (self.hearBody body j sock cx).step j (.returned body') inner eff

/-- The state after an event, and what else the event does; `none` if it cannot happen. -/
def next (self : Connection) (ev : Event) : Except Fault (Option (Connection × Effects)) :=
  match ev with
  | .acquire =>
    if 0 < self.sem then
      .ok (some ({ self with sem := self.sem - 1, calls := self.calls ++ [.waiting] }, .none))
    else .ok none
  | .lock j =>
    match self.calls[j]?, self.inner.waiters with
    | some .waiting, none => self.step j .checking { self.inner with waiters := some [] } .none
    | _, _ => .ok none
  | .check j sock cx key =>
    match self.calls[j]? with
    | some .checking => self.nextCheck j sock cx key
    | _ => .ok none
  | .shutdown j =>
    match self.calls[j]? with
    | some .shutting =>
      let (runningRequests, eff) :=
        InnerConnection.notifyEveryone self.inner.inner.runningRequests
      self.step j .connecting
        { self.inner with inner := { self.inner.inner with runningRequests } } eff
    | _ => .ok none
  | .connect j ok key =>
    match self.calls[j]? with
    | some .connecting =>
      if ok then
        if self.inner.inner.runningRequests.CanInsert key then
          { self with reader := none }.step j (.sending (ridOf key))
            { self.inner with
              inner := insert { self.inner.inner with io := .new, fcgiParser := .new } key j }
            .none
        else .ok none
      else self.step j .left (unlocked self.inner.inner) (.release j)
    | _ => .ok none
  | .head j res =>
    match self.calls[j]? with
    | some (.sending rid) =>
      let call :=
        match res with
        | .body => .exchanging rid .idle none
        | .noBody => .exchanging rid .done none
        | .writeFailed | .headerRejected => .left
      self.step j call (unlocked self.inner.inner) .none
    | _ => .ok none
  | .uploadLock j =>
    match self.calls[j]?, self.inner.waiters with
    | some (.exchanging rid .idle resp), none =>
      self.step j (.exchanging rid .locked resp) { self.inner with waiters := some [] } .none
    | _, _ => .ok none
  | .upload j res =>
    match self.calls[j]? with
    | some (.exchanging rid .locked resp) =>
      let call :=
        match res with
        | .chunk => .exchanging rid .idle resp
        | .last => .exchanging rid .done resp
        | .writeFailed | .tooShort => .failed rid resp
      self.step j call (unlocked self.inner.inner) .none
    | _ => .ok none
  | .respond j sock cx =>
    match self.calls[j]? with
    | some (.exchanging rid upload resp) => self.nextRespond http j rid upload resp sock cx
    | _ => .ok none
  | .finish j =>
    match self.calls[j]? with
    | some (.exchanging _ .done (some (.returned body _ _))) =>
      self.step j (.returned body) self.inner .none
    | _ => .ok none
  | .read j sock cx =>
    match self.calls[j]? with
    | some (.returned body) => self.nextRead j body sock cx
    | _ => .ok none
  | .drop j =>
    match self.calls[j]? with
    | some (.returned body) => self.step j .left (body.drop self.inner) .none
    | some (.failed _ (some resp)) => self.step j .left (resp.fcgibody.drop self.inner) .none
    | some (.failed _ none) => self.step j .left self.inner .none
    | _ => .ok none
  | .cancel j =>
    match self.calls[j]? with
    | some .waiting => self.step j .left self.inner (.release j)
    | some .checking | some .shutting | some .connecting =>
      self.step j .left (unlocked self.inner.inner) (.release j)
    | some (.sending _) => self.step j .left (unlocked self.inner.inner) .none
    | some (.exchanging rid .locked resp) =>
      self.step j (.failed rid resp) (unlocked self.inner.inner) .none
    | some (.exchanging rid _ resp) => self.step j (.failed rid resp) self.inner .none
    | _ => .ok none

/-- The steps of a connection. -/
def Step (self : Connection) (ev : Event) (self' : Connection) : Prop :=
  ∃ eff, self.next http ev = .ok (some (self', eff))

/-- The state after an event that can happen. -/
def tick (self : Connection) (ev : Event) : Option Connection :=
  match self.next http ev with
  | .ok (some (self', _)) => some self'
  | _ => none

theorem step_of_tick {http : Http} (self : Connection) (ev : Event) (self' : Connection)
    (h : self.tick http ev = some self') : self.Step http ev self' := by
  unfold tick at h
  split at h
  · cases h
    exact ⟨_, ‹_›⟩
  · cases h

/-- The runs of a new connection. -/
def Runs (maxReqPerCon : UInt16) (evs : List Event) (self : Connection) : Prop :=
  Run (Step http) (connect maxReqPerCon) evs self

end Connection

end AsyncFcgi
