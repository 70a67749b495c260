import AsyncFcgi.Client.PollResp

/-!
# Response bodies (`src/client/connection.rs`)

The `tokio` mutex around the connection, `FCGIBody`, `poll_frame` and `Drop for FCGIBody`.

`poll_frame` polls a `lock()` future once and drops it: a body that finds the connection
locked has no place in the queue of the mutex afterwards.

* `pollFrame_framed`, `serve_served`: what one call can do.
* `serve_returns`: looking at the own request never panics.
-/

namespace AsyncFcgi

open Lib

/-- `tokio::sync::Mutex`: `waiters` is `None` while it is free, else the tasks that wait for
it in order. A free mutex has no waiters, since a guard is handed to the first of them. -/
structure Mutex (α : Type*) where
  inner : α
  waiters : Option (List Waker)
  deriving DecidableEq, Repr

namespace Mutex

variable {α : Type*}

/-- The first poll of `lock()`: the guard, or a place at the end of the queue. -/
def pollLock (m : Mutex α) (cx : Waker) : Poll Unit × Mutex α :=
  match m.waiters with
  | none => (.ready (), { m with waiters := some [] })
  | some q => (.pending, { m with waiters := some (q ++ [cx]) })

/-- The drop of the unfinished `lock()` future that came last. -/
def dropLock (m : Mutex α) : Mutex α := { m with waiters := m.waiters.map List.dropLast }

/-- The drop of the guard: the next waiter is woken and has the lock, if there is one. -/
def unlock (m : Mutex α) : Mutex α × Effects :=
  match m.waiters with
  | some (cx :: q) => ({ m with waiters := some q }, .wake (some cx))
  | _ => ({ m with waiters := none }, .none)

end Mutex

/-- `FCGIBody` (lines 76–81); `rid` is the key of its request. -/
structure FCGIBody where
  rid : ℕ
  done : Bool
  wasReturned : Bool
  deriving DecidableEq, Repr

/-- What `poll_frame` returns: a frame of data, the end, or `Pending`. -/
abbrev FramePoll := Poll (Option (Except IoError Bytes))

namespace FCGIBody

/-- `poll_frame` behind `poll_resp` (lines 721–769). -/
def serve (self : FCGIBody) (inner : InnerConnection) (cx : Waker) :
    Except Fault (FramePoll × FCGIBody × InnerConnection × Effects) :=
  match inner.runningRequests.get? self.rid with
  | none => .ok (.ready none, { self with done := true }, inner, .none)
  | some slab =>
    let removed := { inner with runningRequests := inner.runningRequests.remove self.rid }
    if 1 ≤ slab.buf.remaining then
      match slab.buf.oldest with
      | (none, _) => .error .unwrapNone
      | (some retdata, buf) =>
        if self.wasReturned ∧ slab.ended ∧ buf.remaining < 1 then
          .ok (.ready (some (.ok retdata)), { self with done := true }, removed,
            .release slab.permit)
        else
          .ok (.ready (some (.ok retdata)), self,
            { inner with runningRequests := inner.runningRequests.set self.rid { slab with buf } },
            .none)
    else if slab.ended then
      if self.wasReturned then
        .ok (.ready none, { self with done := true }, removed, .release slab.permit)
      else .ok (.ready none, self, inner, .none)
    else
      .ok (.pending, self,
        { inner with
          runningRequests := inner.runningRequests.set self.rid { slab with waker := some cx } },
        .none)

/-- `FCGIBody::poll_frame` (lines 687–772). -/
def pollFrame (self : FCGIBody) (con : Mutex InnerConnection) (sock : SocketRead) (cx : Waker) :
    Except Fault (FramePoll × FCGIBody × Mutex InnerConnection × Effects) :=
  if self.done then .ok (.ready none, self, con, .none)
  else
    match con.pollLock cx with
    | (.pending, con) => .ok (.pending, self, con.dropLock, .none)
    | (.ready (), con) => do
      let (_, inner, eff) ← con.inner.pollResp sock cx
      let (res, self, inner, eff') ← self.serve inner cx
      let (con, eff'') := { con with inner }.unlock
      .ok (res, self, con, eff ++ eff' ++ eff'')

/-- `Drop for FCGIBody` (lines 663–681); a `try_lock` that fails is only logged. -/
def drop (self : FCGIBody) (con : Mutex InnerConnection) : Mutex InnerConnection :=
  if self.done then con
  else
    match con.waiters with
    | some _ => con
    | none =>
      match con.inner.runningRequests.get? self.rid with
      | none => con
      | some req =>
        { con with
          inner.runningRequests :=
            con.inner.runningRequests.set self.rid { req with aborted := true, waker := none } }

/-! ## What one call can do -/

/-- What `serve` can do with the entry of the request: find none, return a frame and keep it,
return the last frame and release it, end and release it, end before the response was handed
over, or store the waker. -/
inductive Served (self : FCGIBody) (inner : InnerConnection) (cx : Waker) :
    FramePoll → FCGIBody → InnerConnection → Effects → Prop
  | vanished (hq : inner.runningRequests.get? self.rid = none) :
      Served self inner cx (.ready none) { self with done := true } inner .none
  | frame {slab front rest} (hq : inner.runningRequests.get? self.rid = some slab)
      (hbuf : slab.buf.bufs = front :: rest) (hrem : 0 < slab.buf.remaining)
      (hkeep : ¬ (self.wasReturned ∧ slab.ended ∧ rest.flatten = [])) :
      Served self inner cx (.ready (some (.ok front))) self
        { inner with
          runningRequests := inner.runningRequests.set self.rid { slab with buf := ⟨rest⟩ } } .none
  | last {slab front rest} (hq : inner.runningRequests.get? self.rid = some slab)
      (hbuf : slab.buf.bufs = front :: rest) (hrem : 0 < slab.buf.remaining)
      (hret : self.wasReturned) (hend : slab.ended) (hrest : rest.flatten = []) :
      Served self inner cx (.ready (some (.ok front))) { self with done := true }
        { inner with runningRequests := inner.runningRequests.remove self.rid }
        (.release slab.permit)
  | finished {slab} (hq : inner.runningRequests.get? self.rid = some slab)
      (hbuf : slab.buf.flatten = []) (hend : slab.ended) (hret : self.wasReturned) :
      Served self inner cx (.ready none) { self with done := true }
        { inner with runningRequests := inner.runningRequests.remove self.rid }
        (.release slab.permit)
  | early {slab} (hq : inner.runningRequests.get? self.rid = some slab)
      (hbuf : slab.buf.flatten = []) (hend : slab.ended) (hret : self.wasReturned = false) :
      Served self inner cx (.ready none) self inner .none
  | waits {slab} (hq : inner.runningRequests.get? self.rid = some slab)
      (hbuf : slab.buf.flatten = []) (hend : slab.ended = false) :
      Served self inner cx .pending self
        { inner with
          runningRequests := inner.runningRequests.set self.rid { slab with waker := some cx } }
        .none

theorem serve_served {self self' : FCGIBody} {inner inner' : InnerConnection} {cx : Waker}
    {res : FramePoll} {eff : Effects} (h : self.serve inner cx = .ok (res, self', inner', eff)) :
    Served self inner cx res self' inner' eff := by
  unfold serve at h
  cases hq : inner.runningRequests.get? self.rid with
  | none =>
    rw [hq] at h
    simp only [Except.ok.injEq, Prod.mk.injEq] at h
    obtain ⟨rfl, rfl, rfl, rfl⟩ := h
    exact .vanished hq
  | some slab =>
    rw [hq] at h
    simp only [BufList.remaining_eq] at h
    split at h
    · rename_i hrem
      cases hb : slab.buf.bufs with
      | nil => simp [BufList.flatten, hb] at hrem
      | cons front rest =>
        simp only [BufList.oldest, hb, List.head?_cons, List.tail_cons] at h
        split at h
        · rename_i hlast
          obtain ⟨hret, hend, hrest⟩ := hlast
          simp only [Except.ok.injEq, Prod.mk.injEq] at h
          obtain ⟨rfl, rfl, rfl, rfl⟩ := h
          exact .last hq hb (by rw [BufList.remaining_eq]; exact hrem) hret hend
            (List.length_eq_zero_iff.mp (Nat.lt_one_iff.mp hrest))
        · rename_i hkeep
          simp only [Except.ok.injEq, Prod.mk.injEq] at h
          obtain ⟨rfl, rfl, rfl, rfl⟩ := h
          refine .frame hq hb (by rw [BufList.remaining_eq]; exact hrem) ?_
          rintro ⟨hret, hend, hrest⟩
          exact hkeep ⟨hret, hend, by simp [BufList.flatten, hrest]⟩
    · rename_i hrem
      have hbuf : slab.buf.flatten = [] := List.length_eq_zero_iff.mp (by omega)
      split at h
      · rename_i hend
        split at h
        · rename_i hret
          simp only [Except.ok.injEq, Prod.mk.injEq] at h
          obtain ⟨rfl, rfl, rfl, rfl⟩ := h
          exact .finished hq hbuf hend hret
        · rename_i hret
          simp only [Except.ok.injEq, Prod.mk.injEq] at h
          obtain ⟨rfl, rfl, rfl, rfl⟩ := h
          exact .early hq hbuf hend (Bool.eq_false_iff.mpr hret)
      · rename_i hend
        simp only [Except.ok.injEq, Prod.mk.injEq] at h
        obtain ⟨rfl, rfl, rfl, rfl⟩ := h
        exact .waits hq hbuf (Bool.eq_false_iff.mpr hend)

/-- `serve` does not panic: the front buffer is there when bytes remain. -/
theorem serve_returns (self : FCGIBody) (inner : InnerConnection) (cx : Waker) :
    ∃ res self' inner' eff, self.serve inner cx = .ok (res, self', inner', eff) := by
  unfold serve
  cases hq : inner.runningRequests.get? self.rid with
  | none => exact ⟨_, _, _, _, rfl⟩
  | some slab =>
    simp only
    split
    · rename_i hrem
      cases hb : slab.buf.bufs with
      | nil => simp [BufList.remaining, hb] at hrem
      | cons front rest =>
        simp only [BufList.oldest, hb, List.head?_cons, List.tail_cons]
        split <;> exact ⟨_, _, _, _, rfl⟩
    · split
      · split <;> exact ⟨_, _, _, _, rfl⟩
      · exact ⟨_, _, _, _, rfl⟩

/-- `serve` looks at its own request only. -/
theorem Served.other {self self' : FCGIBody} {inner inner' : InnerConnection} {cx : Waker}
    {res : FramePoll} {eff : Effects} (h : Served self inner cx res self' inner' eff) {k : ℕ}
    (hne : k ≠ self.rid) : inner'.runningRequests.get? k = inner.runningRequests.get? k := by
  cases h with
  | vanished hq => rfl
  | frame hq => simp [Slab.get?_set hq, hne]
  | last hq => simp [hne]
  | finished hq => simp [hne]
  | early hq => rfl
  | waits hq => simp [Slab.get?_set hq, hne]

/-- What `poll_frame` can do: nothing more, fail to lock the connection, or drive the
connection and look at its own request. -/
inductive Framed (self : FCGIBody) (con : Mutex InnerConnection) (sock : SocketRead)
    (cx : Waker) : FramePoll → FCGIBody → Mutex InnerConnection → Effects → Prop
  | done (hd : self.done) : Framed self con sock cx (.ready none) self con .none
  | contended {q} (hd : self.done = false) (hq : con.waiters = some q) :
      Framed self con sock cx .pending self con .none
  | served {r inner eff res self' inner' eff'} (hd : self.done = false)
      (hfree : con.waiters = none) (hresp : con.inner.pollResp sock cx = .ok (r, inner, eff))
      (hserved : Served self inner cx res self' inner' eff') :
      Framed self con sock cx res self' { inner := inner', waiters := none } (eff ++ eff')

theorem effects_append_none (e : Effects) : e ++ Effects.none = e := by
  show Effects.mk (e.woken ++ []) (e.released ++ []) = e
  rw [List.append_nil, List.append_nil]

theorem pollFrame_framed {self self' : FCGIBody} {con con' : Mutex InnerConnection}
    {sock : SocketRead} {cx : Waker} {res : FramePoll} {eff : Effects}
    (h : self.pollFrame con sock cx = .ok (res, self', con', eff)) :
    Framed self con sock cx res self' con' eff := by
  unfold pollFrame at h
  cases hd : self.done with
  | true =>
    rw [hd, if_pos rfl] at h
    simp only [Except.ok.injEq, Prod.mk.injEq] at h
    obtain ⟨rfl, rfl, rfl, rfl⟩ := h
    exact .done hd
  | false =>
    rw [hd, if_neg (by decide)] at h
    cases hw : con.waiters with
    | some q =>
      simp only [Mutex.pollLock, hw, Mutex.dropLock, Option.map_some, List.dropLast_concat,
        Except.ok.injEq, Prod.mk.injEq] at h
      obtain ⟨rfl, rfl, rfl, rfl⟩ := h
      have hcon : { con with waiters := some q } = con := by rw [← hw]
      rw [hcon]
      exact .contended hd hw
    | none =>
      simp only [Mutex.pollLock, hw] at h
      obtain ⟨⟨r, inner, eff₁⟩, hresp, h⟩ := bind_eq_ok.mp h
      obtain ⟨⟨res₁, self₁, inner₁, eff₂⟩, hserve, h⟩ := bind_eq_ok.mp h
      simp only [Mutex.unlock, effects_append_none, Except.ok.injEq, Prod.mk.injEq] at h
      obtain ⟨rfl, rfl, rfl, rfl⟩ := h
      exact .served hd hw hresp (serve_served hserve)

end FCGIBody

end AsyncFcgi
