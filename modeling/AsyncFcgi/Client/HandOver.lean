import AsyncFcgi.Client.Slots

/-!
# Who reads the socket next (`src/client/connection.rs`)

The socket wakes only the task whose poll found it pending last. When the body of that task is
not polled any more, the requests that wait have nobody who would read for them, unless this very
step wakes one of them. It does so only where it hears something for them.

* `handOver_iff`: a step in which the reader stops wakes a waiting request exactly if its
  `poll_resp` answers one.
-/

namespace AsyncFcgi

open Lib

namespace Connection

/-- A request of another call than `j`, whose body waits with the waker `w`. -/
def Waiting (self : Connection) (j k : ℕ) (w : Waker) : Prop :=
  ∃ m, self.inner.inner.runningRequests.get? k = some m ∧ m.permit ≠ j ∧ m.aborted = false ∧
    m.ended = false ∧ m.waker = some w

/-- The call at `j` stops polling its body: a poll returns the last frame or the end, or the
body is dropped. -/
def StopsPolling (self : Connection) (ev : Event) (j : ℕ) : Prop :=
  (∃ sock cx call body res body' inner eff, ev.poll? = some (j, sock, cx) ∧
      self.calls[j]? = some call ∧ Forward.polled? call = some body ∧ body.done = false ∧
      body.pollFrame self.inner sock cx = .ok (res, body', inner, eff) ∧
      (res = .ready none ∨ body'.done = true)) ∨
    (ev = .drop j ∧ ∃ body, self.Live j body)

/-- The task that the socket knows stops, while others wait. -/
structure Departs (con : Connection) (ev : Event) (con' : Connection) (j : ℕ) : Prop where
  stops : con.StopsPolling ev j
  reader : con'.reader = some j
  waiting : ∃ k w, con.Waiting j k w

/-- The step calls the waker of the request at `k`. -/
def Wakes (self' : Connection) (eff : Effects) (k : ℕ) (w : Waker) : Prop :=
  w ∈ eff.woken ∧ ∀ m', self'.inner.inner.runningRequests.get? k = some m' → m'.waker = none

/-- The event polls the connection, and what is read answers the request at `k`. -/
def Hears (self : Connection) (ev : Event) (k : ℕ) : Prop :=
  ∃ j sock cx, ev.poll? = some (j, sock, cx) ∧ self.inner.inner.Answers sock cx k false

variable {http : Http} {maxReqPerCon : UInt16} {evs : List Event} {self self' : Connection}
  {ev : Event} {eff : Effects} {j k : ℕ} {w : Waker}

/-- What a poll of the call at `j` does to a waiting request. -/
theorem wakes_iff_of_served {max : ℕ} (h : Slots max self) {call : Forward} {body : FCGIBody}
    (hcall : self.calls[j]? = some call) (hkey : call.key? = some body.rid) {sock : SocketRead}
    {cx : Waker} {r : Poll (Option (Except IoError Unit))} {inner₁ inner₂ : InnerConnection}
    {eff₁ eff₂ : Effects} {res : FramePoll} {body' : FCGIBody}
    (hresp : self.inner.inner.pollResp sock cx = .ok (r, inner₁, eff₁))
    (hserved : FCGIBody.Served body inner₁ cx res body' inner₂ eff₂)
    (hinner : self'.inner.inner = inner₂) (hwait : self.Waiting j k w) :
    self'.Wakes (eff₁ ++ eff₂) k w ↔ self.inner.inner.Answers sock cx k false := by
  obtain ⟨m, hq, hp, ha, he, hw⟩ := hwait
  obtain ⟨m₀, hq₀, hp₀, -⟩ := h.owns j call body.rid hcall hkey
  have hne : k ≠ body.rid := by
    rintro rfl
    rw [hq] at hq₀
    cases hq₀
    exact hp hp₀
  have hother : inner₂.runningRequests.get? k = inner₁.runningRequests.get? k :=
    hserved.other hne
  constructor
  · rintro ⟨-, htaken⟩
    by_contra hans
    rw [← ha] at hans
    rcases InnerConnection.pollResp_unanswered hresp hq hans with hkeep | ⟨hab, -⟩
    · have hnone := htaken m (by rw [hinner, hother, hkeep])
      rw [hw] at hnone
      cases hnone
    · rw [ha] at hab
      cases hab
  · intro hans
    rw [← ha] at hans
    obtain ⟨hanswered, hwoken⟩ := InnerConnection.pollResp_answers hresp hq hans
    refine ⟨List.mem_append_left _ (hwoken w hw), fun m' hq' => ?_⟩
    rw [hinner, hother] at hq'
    exact (hanswered m' hq').2

/-- **The duty to read is handed over only by accident.** In every reachable state, for every
step in which the reader stops while others wait: one of the waiting requests is woken exactly
if the step hears something for one of them. -/
theorem handOver_iff (hrun : Runs http maxReqPerCon evs self)
    (hnext : self.next http ev = .ok (some (self', eff))) (hdep : self.Departs ev self' j) :
    (∃ k w, self.Waiting j k w ∧ self'.Wakes eff k w) ↔
      ∃ k w, self.Waiting j k w ∧ self.Hears ev k := by
  have h := slots_run hrun
  rcases hdep.stops with ⟨sock, cx, call, body, res, body', inner, eff', hev, hcall, hbody, hd,
    hframe, hstops⟩ | ⟨rfl, body, hlive⟩
  · obtain ⟨res₁, body₁, inner₁, call', hframe₁, rfl⟩ := next_polls hnext hev hcall hbody
    rw [hframe] at hframe₁
    cases hframe₁
    have hkey := Forward.key?_of_body? (Forward.body?_of_polled? hbody) hd
    cases FCGIBody.pollFrame_framed hframe with
    | done hd' => rw [hd] at hd'; cases hd'
    | contended hd' hq =>
      rcases hstops with hres | hd''
      · cases hres
      · rw [hd] at hd''
        cases hd''
    | served _ hfree hresp hserved =>
      constructor
      · rintro ⟨k, w, hwait, hwakes⟩
        exact ⟨k, w, hwait, j, sock, cx, hev,
          (wakes_iff_of_served h hcall hkey hresp hserved rfl hwait).mp hwakes⟩
      · rintro ⟨k, w, hwait, j', sock', cx', hev', hans⟩
        rw [hev] at hev'
        cases hev'
        exact ⟨k, w, hwait,
          (wakes_iff_of_served h hcall hkey hresp hserved rfl hwait).mpr hans⟩
  · constructor
    · rintro ⟨k, w, hwait, hwoken, -⟩
      rw [next_drop hnext] at hwoken
      exact absurd hwoken List.not_mem_nil
    · rintro ⟨k, w, hwait, j', sock', cx', hev', -⟩
      cases hev'

/-! ## Two runs -/

/-- Both calls wait for their responses, and the second asked the socket last. -/
def bothWait : List Event :=
  [.acquire, .lock 0, .check 0 .pending 7 0, .head 0 .noBody, .respond 0 .pending 7,
    .acquire, .lock 1, .check 1 .pending 8 1, .head 1 .noBody, .respond 1 .pending 8]

/-- The connection then; the call at 1 is `call`. -/
def bothWaiting (call : Forward) : Connection where
  sem := 0
  inner := ⟨{ io := ⟨[], some 8⟩
              runningRequests := ⟨[some { FCGIRequest.new 0 with waker := some 7 },
                some { FCGIRequest.new 1 with waker := some 8 }]⟩
              fcgiParser := .new }, none⟩
  calls := [.exchanging 1 .done (some (.new 0)), call]
  released := []
  log := []
  reader := some 1

theorem bothWait_run :
    Runs (onlyBlock []) 2 bothWait (bothWaiting (.exchanging 2 .done (some (.new 1)))) :=
  run_of_replay step_of_tick _ (by decide +kernel)

/-- The second call is dropped by its caller. -/
theorem bothWait_cancel_run :
    Runs (onlyBlock []) 2 (bothWait ++ [.cancel 1]) (bothWaiting (.failed 2 (some (.new 1)))) :=
  run_of_replay step_of_tick _ (by decide +kernel)

theorem bothWaiting_waiting (call : Forward) : (bothWaiting call).Waiting 1 0 7 :=
  ⟨_, rfl, by decide, rfl, rfl, rfl⟩

/-- The end of request 2. -/
def endTwo : WireRecord := { InnerConnection.greeting with
  rtype := .endRequest
  requestId := 2
  content := [0, 0, 0, 0, 0, 0, 0, 0]
  padding := []
  content_le := endBody_le
  padding_le := noPadding_le }

/-- The second request ends, and behind its END_REQUEST comes a greeting for the first. -/
theorem handOver_iff_greeting :
    ∃ self' eff, (bothWaiting (.exchanging 2 .done (some (.new 1)))).next (onlyBlock [])
        (.respond 1 (.ready (endTwo.encode ++ InnerConnection.greeting.encode)) 8) =
          .ok (some (self', eff)) ∧
      ∃ k w, (bothWaiting (.exchanging 2 .done (some (.new 1)))).Waiting 1 k w ∧
        self'.Wakes eff k w := by
  generalize hself : bothWaiting (.exchanging 2 .done (some (.new 1))) = self
  generalize hsock : SocketRead.ready (endTwo.encode ++ InnerConnection.greeting.encode) = sock
  have htick : (self.tick (onlyBlock []) (.respond 1 sock 8)).map reader = some (some 1) := by
    rw [← hself, ← hsock]
    decide +kernel
  have hframe : (FCGIBody.pollFrame ⟨1, false, false⟩ self.inner sock 8).toOption.map Prod.fst =
      some (.ready none) := by
    rw [← hself, ← hsock]
    decide +kernel
  have hans : self.inner.inner.Answers sock 8 0 false := by
    rw [← hself, ← hsock]
    exact Or.inr (by decide +kernel)
  obtain ⟨self', hself', hreader⟩ := Option.map_eq_some_iff.mp htick
  obtain ⟨eff, hnext⟩ := step_of_tick _ _ _ hself'
  obtain ⟨body', inner, eff', hpoll⟩ : ∃ body' inner eff',
      FCGIBody.pollFrame ⟨1, false, false⟩ self.inner sock 8 =
        .ok (.ready none, body', inner, eff') := by
    rcases hpoll : FCGIBody.pollFrame ⟨1, false, false⟩ self.inner sock 8 with
      e | ⟨res, body', inner, eff'⟩
    · rw [hpoll] at hframe
      cases hframe
    · rw [hpoll] at hframe
      obtain rfl : res = .ready none := Option.some.inj hframe
      exact ⟨body', inner, eff', rfl⟩
  have hwait : self.Waiting 1 0 7 := hself ▸ bothWaiting_waiting _
  have hdep : self.Departs (.respond 1 sock 8) self' 1 :=
    ⟨Or.inl ⟨sock, 8, _, _, _, body', inner, eff', rfl, by rw [← hself]; rfl, rfl, rfl,
      hpoll, Or.inl rfl⟩, hreader, 0, 7, hwait⟩
  exact ⟨self', eff, hnext,
    (handOver_iff (hself ▸ bothWait_run) hnext hdep).mpr ⟨0, 7, hwait, 1, sock, 8, rfl, hans⟩⟩

/-- The body of the second call is dropped: nobody reads for the first one any more. -/
theorem handOver_dropped : ¬ ∀ http maxReqPerCon evs self ev self' eff j,
    Runs http maxReqPerCon evs self → self.next http ev = .ok (some (self', eff)) →
      self.Departs ev self' j → ∃ k w, self.Waiting j k w ∧ self'.Wakes eff k w := by
  intro h
  have hnext : (bothWaiting (.failed 2 (some (.new 1)))).next (onlyBlock []) (.drop 1) =
      .ok (some ((bothWaiting (.failed 2 (some (.new 1)))).move 1 .left
        ((CreateResponse.new 1).fcgibody.drop (bothWaiting (.failed 2 (some (.new 1)))).inner) .none,
        .none)) := rfl
  obtain ⟨k, w, -, hwoken, -⟩ := h _ _ _ _ _ _ _ 1 bothWait_cancel_run hnext
    ⟨Or.inr ⟨rfl, _, rfl, _, rfl, rfl⟩, rfl, 0, 7, bothWaiting_waiting _⟩
  exact absurd hwoken List.not_mem_nil

end Connection

end AsyncFcgi
