import AsyncFcgi.Client.Drain

/-!
# Closing a connection (`src/client/connection.rs`)

`Connection::close` takes the connection by value: no call of `forward` is left that borrows it,
and what remains are the bodies, which share the mutex.

* `close_ends`: `close` does not wait, calls every waker, and no body waits afterwards.
-/

namespace AsyncFcgi

open Lib

namespace Connection

open InnerConnection (HasEntry Remains notifyEveryone get?_notifyEveryone)

variable {http : Http} {maxReqPerCon : UInt16} {max : ℕ} {self self' : Connection} {ev : Event}
  {eff : Effects} {j k : ℕ} {evs : List Event}

/-- `Connection::close` (lines 173–178), if it gets the lock; `shutdown` is what the shutdown of the
transport returns. -/
def close (self : Connection) (shutdown : Except IoError Unit) :
    Option (Except IoError Unit × Connection × Effects) :=
  match self.inner.waiters with
  | some _ => none
  | none =>
    match shutdown with
    | .error e => some (.error e, self, .none)
    | .ok () =>
      let (runningRequests, eff) := notifyEveryone self.inner.inner.runningRequests
      some (.ok (), { self with inner.inner.runningRequests := runningRequests }, eff)

/-- Every call returned its response, or is gone. -/
def Handed (con : Connection) : Prop :=
  ∀ (j : ℕ) call, con.calls[j]? = some call → call = .left ∨ ∃ body, call = .returned body

/-- A step of a body. -/
def BodyStep (http : Http) (self : Connection) (ev : Event) (self' : Connection) : Prop :=
  Step http self ev self' ∧ ((∃ j sock cx, ev = .read j sock cx) ∨ ∃ j, ev = .drop j)

/-- Nobody has the lock, and the requests of the bodies that are not done ended. -/
structure Closed (max : ℕ) (con : Connection) : Prop where
  slots : Slots max con
  free : con.inner.waiters = none
  handed : Handed con
  ended : ∀ (j : ℕ) body, con.calls[j]? = some (.returned body) → body.wasReturned = true ∧
    (body.done = true ∨
      HasEntry (Remains fun _ => True) con.inner.inner.runningRequests body.rid)

/-- `notify_everyone` keeps the requests with their calls. -/
theorem Slots.notified (h : Slots max self) :
    Slots max { self with
      inner.inner.runningRequests := (notifyEveryone self.inner.inner.runningRequests).1 } := by
  have hback : ∀ {k m'}, (notifyEveryone self.inner.inner.runningRequests).1.get? k = some m' →
      ∃ m, self.inner.inner.runningRequests.get? k = some m ∧ m.permit = m'.permit := by
    intro k m' hq
    rw [get?_notifyEveryone] at hq
    obtain ⟨m, hm, rfl⟩ := Option.map_eq_some_iff.mp hq
    exact ⟨m, hm, (InnerConnection.notify_kept m).permit.symm⟩
  refine ⟨h.open_, fun j call k hcall hkey => ?_, fun k m' hq => ?_, fun k k' m m' hq hq' hp => ?_,
    ?_, ?_⟩
  · obtain ⟨m, hq, hp, ha⟩ := h.owns j call k hcall hkey
    refine ⟨InnerConnection.notify m, ?_, (InnerConnection.notify_kept m).permit.trans hp,
      (InnerConnection.notify_kept m).aborted.trans ha⟩
    show (notifyEveryone self.inner.inner.runningRequests).1.get? k = _
    rw [get?_notifyEveryone, hq]
    rfl
  · obtain ⟨m, hm, hp⟩ := hback hq
    rw [← hp]
    exact h.permits k m hm
  · obtain ⟨m₀, hm₀, hp₀⟩ := hback hq
    obtain ⟨m₁, hm₁, hp₁⟩ := hback hq'
    exact h.unique k k' m₀ m₁ hm₀ hm₁ (hp₀.trans (hp.trans hp₁.symm))
  · have hsize := Slab.size_map InnerConnection.notify self.inner.inner.runningRequests
    have hcount := h.count
    show self.sem + self.holding + (notifyEveryone self.inner.inner.runningRequests).1.size = max
    rw [notifyEveryone, hsize, hcount]
  · exact (Slab.length_map InnerConnection.notify _).le.trans h.bound

/-- A step of a body leaves the lock free, and the other callers with their responses. -/
theorem body_step (hfree : self.inner.waiters = none) (hhanded : Handed self)
    (hs : BodyStep http self ev self') : self'.inner.waiters = none ∧ Handed self' := by
  obtain ⟨⟨eff, hnext⟩, hev⟩ := hs
  have hset : ∀ {j : ℕ} {calls : List Forward} {call' : Forward}, calls = self.calls →
      (call' = .left ∨ ∃ body, call' = .returned body) → ∀ (i : ℕ) call,
      (calls.set j call')[i]? = some call → call = .left ∨ ∃ body, call = .returned body := by
    rintro j calls call' rfl hcall' i call hcall
    by_cases hij : j = i
    · subst hij
      have hlt := (List.getElem?_eq_some_iff.mp hcall).1
      rw [List.length_set] at hlt
      rw [List.getElem?_set_self hlt] at hcall
      exact Option.some.inj hcall ▸ hcall'
    · rw [List.getElem?_set_ne hij] at hcall
      exact hhanded i call hcall
  cases next_branch hnext with
  | read hcall hread =>
    obtain ⟨res, body', inner, hframe, rfl⟩ := nextRead_ok hread
    refine ⟨?_, hset (hearBody_calls _ _ _ _ _) (Or.inr ⟨body', rfl⟩)⟩
    show inner.waiters = none
    cases FCGIBody.pollFrame_framed hframe with
    | done => exact hfree
    | contended => exact hfree
    | served => rfl
  | @drop j call body hcall hover hbody =>
    refine ⟨?_, hset rfl (Or.inl rfl)⟩
    show (body.drop self.inner).waiters = none
    unfold FCGIBody.drop
    split
    · exact hfree
    · rw [hfree]
      simp only
      split
      · exact hfree
      · rfl
  | dropUnpolled => exact ⟨hfree, hset rfl (Or.inl rfl)⟩
  | _ => rcases hev with ⟨j, sock, cx, hev⟩ | ⟨j, hev⟩ <;> cases hev

theorem Closed.step (hmax : max < 2 ^ 16) (h : Closed max self) (hs : BodyStep http self ev self') :
    Closed max self' := by
  obtain ⟨⟨eff, hnext⟩, hev⟩ := id hs
  have hstep := next_stepped hnext
  obtain ⟨hfree, hhanded⟩ := body_step h.free h.handed hs
  refine ⟨h.slots.step hmax hstep, hfree, hhanded, fun j body' hcall' => ?_⟩
  -- where the call was, and its request
  obtain ⟨call, hcall⟩ : ∃ call, self.calls[j]? = some call := by
    by_contra hno
    have hnone : self.calls[j]? = none := by
      cases hget : self.calls[j]? with
      | none => rfl
      | some call => exact absurd ⟨call, hget⟩ hno
    have hother : ev.call? ≠ some j := by
      intro hev
      rcases next_turn hnext with ⟨rfl, -⟩ | ⟨i, c, c', hev', hc, -⟩
      · cases hev
      · rw [Option.some.inj (hev'.symm.trans hev), hnone] at hc
        cases hc
    rcases calls_back hstep hother hcall' with hc | hc
    · rw [hnone] at hc
      cases hc
    · cases hc
  have hdraining : ∃ k, self.Draining j k fun _ => True := by
    rcases h.handed j call hcall with rfl | ⟨body, rfl⟩
    · exact ⟨0, Or.inl hcall⟩
    · obtain ⟨hret, hentry⟩ := h.ended j body hcall
      exact ⟨body.rid, Or.inr ⟨body, hcall, rfl, hret, hentry⟩⟩
  obtain ⟨k, hd⟩ := hdraining
  rcases hd.step h.slots hnext (fun _ _ _ _ => InnerConnection.remains_kept_any)
    (fun _ _ _ => trivial) (fun _ _ => trivial) with hleft | ⟨body, hcall₀, hrid, hret, hentry⟩
  · cases hleft.symm.trans hcall'
  · cases hcall₀.symm.trans hcall'
    exact ⟨hret, hrid ▸ hentry⟩

/-- A poll of a body behind `close`. -/
theorem Closed.reads (h : Closed max self) {sock : SocketRead} {cx : Waker} {res : FramePoll}
    (hreports : self.Reports (.read j sock cx) j res) : res ≠ .pending := by
  obtain ⟨sock', cx', call, body, body', inner, eff, hev, hcall, hbody, hframe⟩ := hreports
  cases hev
  rcases h.handed j call hcall with rfl | ⟨body₀, rfl⟩
  · cases hbody
  · cases hbody
    obtain ⟨hret, hentry⟩ := h.ended j body hcall
    cases FCGIBody.pollFrame_framed hframe with
    | done => exact nofun
    | contended _ hq =>
      rw [h.free] at hq
      cases hq
    | served hlive hfree hresp hserved =>
      have hpolled := (hentry.resolve_left (by simp [hlive])).pollResp hresp
        (fun _ _ => InnerConnection.remains_kept_any) fun _ => InnerConnection.remains_notify
      have hserved := Remains.served (fun _ _ => trivial : ∀ _ : ℕ, True → True) hpolled hret hserved
      exact hserved.1

/-- **Closing a connection ends every response.** In any reachable state in which no call of
`forward` is under way, `close` gets the lock at once. If the transport shuts down, every waker
that was stored is called, and whatever the bodies do from then on and whatever still arrives, a
poll of any of them returns a frame or the end. -/
theorem close_ends (hruns : Runs http maxReqPerCon evs self) (hhanded : Handed self) :
    ∃ con eff, self.close (.ok ()) = some (.ok (), con, eff) ∧
      (∀ k m w, self.inner.inner.runningRequests.get? k = some m → m.waker = some w →
        w ∈ eff.woken) ∧
      ∀ evs' con', Run (BodyStep http) con evs' con' → ∀ j sock cx res,
        con'.Reports (.read j sock cx) j res → res ≠ .pending := by
  have hset := settled_run hruns
  have hfree : self.inner.waiters = none := by
    by_contra hlocked
    obtain ⟨i, call, hcall, hlocks⟩ := hset.locked.held hlocked
    rcases hhanded i call hcall with rfl | ⟨body, rfl⟩ <;> cases hlocks
  refine ⟨_, _, by rw [close, hfree], fun k m w hq hw => ?_, fun evs' con' hrun j sock cx res => ?_⟩
  · exact InnerConnection.mem_woken_notifyEveryone hq hw
  · refine (hrun.inv (I := Closed maxReqPerCon.toNat) ?_ fun _ _ _ h hs =>
      h.step maxReqPerCon.toNat_lt hs).reads
    refine ⟨hset.slots.notified, hfree, hhanded, fun i body hcall =>
      ⟨handedOver_run hruns i body hcall, ?_⟩⟩
    cases hdone : body.done with
    | true => exact Or.inl rfl
    | false =>
      obtain ⟨m, hq, -, ha⟩ :=
        hset.slots.owns i _ body.rid hcall (Forward.key?_of_body? rfl hdone)
      refine Or.inr ⟨InnerConnection.notify m, ?_, ?_⟩
      · show (notifyEveryone self.inner.inner.runningRequests).1.get? body.rid = _
        rw [get?_notifyEveryone, hq]
        rfl
      · rw [InnerConnection.notify, if_neg (by simp [ha])]
        exact ⟨ha, rfl, trivial⟩

/-- A response that waits for its body: its waker is called, and then it does not wait. -/
theorem close_ends_waiting : ∃ evs self, Runs (onlyBlock [65]) 2 evs self ∧
    ((self.inner.inner.runningRequests.get? 0).bind FCGIRequest.waker) = some 5 ∧
    ∃ con eff, self.close (.ok ()) = some (.ok (), con, eff) ∧ 5 ∈ eff.woken ∧
      ∀ evs' con', Run (BodyStep (onlyBlock [65])) con evs' con' → ∀ j sock cx res,
        con'.Reports (.read j sock cx) j res → res ≠ .pending := by
  have hcomp : (replay (tick (onlyBlock [65])) (connect 2) (inserting ++ [.head 0 .noBody,
      .respond 0 (.ready (WireRecord.encode
        { InnerConnection.greeting with content := [65], content_le := by decide })) 7,
      .finish 0, .read 0 .pending 5])).map (fun self => decide (
        self.calls = [.returned ⟨0, false, true⟩] ∧
        ((self.inner.inner.runningRequests.get? 0).bind FCGIRequest.waker) = some 5)) =
      some true := by
    decide +kernel
  obtain ⟨self, h, hcomp⟩ := Option.map_eq_some_iff.mp hcomp
  obtain ⟨hcalls, hwaker⟩ := of_decide_eq_true hcomp
  obtain ⟨m, hq, hw⟩ := Option.bind_eq_some_iff.mp hwaker
  have hruns : Runs (onlyBlock [65]) 2 _ self := run_of_replay step_of_tick _ h
  have hhanded : Handed self := by
    intro j call hcall
    rw [hcalls] at hcall
    obtain ⟨_, rfl⟩ := List.getElem?_eq_some_iff.mp hcall
    cases j with
    | zero => exact Or.inr ⟨_, rfl⟩
    | succ j => simp at *
  obtain ⟨con, eff, hclose, hwoken, hlater⟩ := close_ends hruns hhanded
  exact ⟨_, self, hruns, hwaker, con, eff, hclose, hwoken 0 m 5 hq hw, hlater⟩

end Connection

end AsyncFcgi
