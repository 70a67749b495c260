import AsyncFcgi.Client.CleanEnd

/-!
# When an id is used again (`src/client/connection.rs`)

The application knows a request by its id. An id that is used again while the application may
still answer the request before it would give one caller the response of another.

* `Stepped.holds`: no step takes an open request from the table.
* `holds_run`: as long as the connection is not lost, a request keeps its id until its
  END_REQUEST was processed, whatever its call does.
-/

namespace AsyncFcgi

open Lib

namespace InnerConnection

/-- The request of the permit `p` is in the table at `k`, and did not end. -/
def Holds (requests : Slab FCGIRequest) (k : ℕ) (p : Permit) : Prop :=
  ∃ m, requests.get? k = some m ∧ m.permit = p ∧ m.ended = false

variable {requests requests' : Slab FCGIRequest} {k key : ℕ} {p : Permit}

theorem Holds.of_get? (h : Holds requests k p) (hq : requests'.get? k = requests.get? k) :
    Holds requests' k p := by
  obtain ⟨m, hm, hm'⟩ := h
  exact ⟨m, hq.trans hm, hm'⟩

/-- An entry changes, but neither its permit nor that it did not end. -/
theorem Holds.set (h : Holds requests k p) {m m' : FCGIRequest}
    (hq : requests.get? key = some m) (hp : m'.permit = m.permit) (he : m'.ended = m.ended) :
    Holds (requests.set key m') k p := by
  obtain ⟨m₀, hm₀, hp₀, he₀⟩ := h
  by_cases hk : k = key
  · subst hk
    cases hq.symm.trans hm₀
    exact ⟨m', by rw [Slab.get?_set hq, if_pos rfl], hp.trans hp₀, he.trans he₀⟩
  · exact ⟨m₀, by rw [Slab.get?_set hq, if_neg hk, hm₀], hp₀, he₀⟩

/-- Another request is put into the table. -/
theorem Holds.insertAt (h : Holds requests k p) (hcan : requests.CanInsert key)
    (m : FCGIRequest) : Holds (requests.insertAt key m) k p := by
  refine h.of_get? ?_
  rw [Slab.get?_insertAt hcan, if_neg]
  rintro rfl
  obtain ⟨m₀, hm₀, -⟩ := h
  rw [Slab.get?_of_canInsert hcan] at hm₀
  cases hm₀

/-- A record that is not its END_REQUEST leaves an open request open. -/
theorem Holds.distributeTo (h : Holds requests k p) {rec : Record} (hend : ¬ EndOf k rec) :
    Holds (distributeTo requests rec).1 k p := by
  obtain ⟨m, hm, rfl, he⟩ := h
  have hget := get?_distributeTo requests rec k
  by_cases hid : reqNo rec.getRequestId = some k
  · rw [if_pos hid, hm, Option.bind_some] at hget
    suffices hreceive : ∃ m', (m.receive rec.body).1 = some m' ∧ m'.permit = m.permit ∧
        m'.ended = false by
      obtain ⟨m', hm', hp', he'⟩ := hreceive
      exact ⟨m', hget.trans hm', hp', he'⟩
    cases hb : rec.body with
    | endRequest b => exact absurd ⟨hid, by rw [hb]; trivial⟩ hend
    | stdOut s =>
      simp only [FCGIRequest.receive]
      split_ifs
      · exact ⟨m, rfl, rfl, he⟩
      · exact ⟨_, rfl, rfl, he⟩
      · exact ⟨m, rfl, rfl, he⟩
    | _ => exact ⟨m, rfl, rfl, he⟩
  · rw [if_neg hid] at hget
    exact ⟨m, hget.trans hm, rfl, he⟩

theorem Holds.foldl_distribute (recs : List Record) : ∀ acc : Slab FCGIRequest × Effects,
    Holds acc.1 k p → (∀ rec ∈ recs, ¬ EndOf k rec) → Holds (recs.foldl distribute acc).1 k p := by
  induction recs with
  | nil => intro acc h _; exact h
  | cons rec recs ih =>
    intro acc h hend
    exact ih (distribute acc rec) (h.distributeTo (hend rec List.mem_cons_self))
      fun r hr => hend r (List.mem_cons_of_mem _ hr)

/-- A call of `poll_resp` that does not take the connection for closed. -/
theorem Holds.pollResp {self self' : InnerConnection} {sock : SocketRead} {cx : Waker}
    {res : Poll (Option (Except IoError Unit))} {eff : Effects}
    (h : Holds self.runningRequests k p) (hresp : self.pollResp sock cx = .ok (res, self', eff))
    (hcl : ¬ self.Closes sock cx) (hend : ∀ rec ∈ self.records sock cx, ¬ EndOf k rec) :
    Holds self'.runningRequests k p := by
  obtain ⟨acc, rfl, ⟨-, hreq, -⟩ | ⟨hcl', -⟩⟩ := pollResp_requests hresp
  · rw [hreq]
    exact Holds.foldl_distribute _ (self.runningRequests, .none) h hend
  · exact absurd hcl' hcl

/-- The reader of a request that did not end does not remove it. -/
theorem Holds.served {body body' : FCGIBody} {inner inner' : InnerConnection} {cx : Waker}
    {res : FramePoll} {eff : Effects} (h : Holds inner.runningRequests k p)
    (hserved : FCGIBody.Served body inner cx res body' inner' eff) :
    Holds inner'.runningRequests k p := by
  by_cases hk : k = body.rid
  · subst hk
    obtain ⟨m, hm, hp, he⟩ := id h
    cases hserved with
    | vanished => exact h
    | frame hq => exact h.set hq rfl rfl
    | last hq _ _ _ hend =>
      cases hq.symm.trans hm
      rw [he] at hend
      cases hend
    | finished hq _ hend =>
      cases hq.symm.trans hm
      rw [he] at hend
      cases hend
    | early => exact h
    | waits hq => exact h.set hq rfl rfl
  · exact h.of_get? (hserved.other hk)

end InnerConnection

namespace Connection

open InnerConnection (Holds)

variable {http : Http} {self self' : Connection} {ev : Event} {eff : Effects} {j k n : ℕ}
  {evs : List Event} {p : Permit}

/-- A step that calls `poll_resp`, and does not lose the connection. -/
theorem holds_heard {sock : SocketRead} {cx : Waker} {recs : List Record}
    (hrecs : recs = self.inner.inner.records sock cx) {requests : Slab FCGIRequest}
    (h : (∀ rec ∈ self.inner.inner.records sock cx, ¬ InnerConnection.EndOf k rec) →
      Holds requests k p) :
    (∃ rec ∈ recs, InnerConnection.EndOf k rec) ∨ Holds requests k p := by
  subst hrecs
  by_cases hend : ∃ rec ∈ self.inner.inner.records sock cx, InnerConnection.EndOf k rec
  · exact Or.inl hend
  · refine Or.inr (h fun rec hrec he => hend ⟨rec, hrec, he⟩)

/-- **One step.** While the connection is not lost, an open request stays in the table until its
END_REQUEST is processed. -/
theorem Stepped.holds (hs : Stepped self ev self' eff) (hkeep : ¬ self.Loses ev)
    (h : Holds self.inner.inner.runningRequests k p) :
    ∃ recs, self'.log = self.log ++ recs ∧ ((∃ rec ∈ recs, InnerConnection.EndOf k rec) ∨
      Holds self'.inner.inner.runningRequests k p) := by
  have hsame : ∀ {s : Connection}, s.log = self.log →
      Holds s.inner.inner.runningRequests k p → ∃ recs, s.log = self.log ++ recs ∧
        ((∃ rec ∈ recs, InnerConnection.EndOf k rec) ∨
          Holds s.inner.inner.runningRequests k p) := fun hlog hh =>
    ⟨[], hlog.trans (List.append_nil _).symm, Or.inr hh⟩
  have hopen : ∀ {sock cx}, self.Drives ev sock cx → ¬ self.inner.inner.Closes sock cx :=
    fun hdrives hcl => hkeep (Or.inr ⟨_, _, hdrives, hcl⟩)
  cases hs with
  | acquired => exact hsame rfl h
  | moved _ _ _ _ hinner => exact hsame rfl (h.of_get? (by rw [move, hinner]))
  | gaveUp _ _ _ _ hinner => exact hsame rfl (h.of_get? (by rw [move, hinner]))
  | refused _ hresp =>
    exact ⟨_, rfl, holds_heard rfl (h.pollResp hresp (hopen (Or.inl ⟨_, _, rfl⟩)))⟩
  | dead _ hresp =>
    exact ⟨_, rfl, holds_heard rfl (h.pollResp hresp (hopen (Or.inl ⟨_, _, rfl⟩)))⟩
  | alive _ hresp _ hcan =>
    refine ⟨_, rfl, holds_heard rfl fun hend => ?_⟩
    exact (h.pollResp hresp (hopen (Or.inl ⟨_, _, rfl⟩)) hend).insertAt hcan _
  | notified => exact absurd (Or.inl ⟨_, rfl⟩) hkeep
  | reconnected _ hcan => exact hsame rfl (h.insertAt hcan _)
  | @framed _ i sock cx call call' body body' r inner₁ eff₁ res inner₂ eff₂ hev hcall hpolls hd
      hfree hresp hserved hturn hbody =>
    have hdrives : self.Drives ev sock cx :=
      Or.inr ⟨i, call, body, hturn, hcall, hbody, hd, hfree⟩
    exact ⟨_, rfl, holds_heard rfl fun hend =>
      (h.pollResp hresp (hopen hdrives) hend).served hserved⟩
  | putBack _ _ hq => exact hsame rfl (h.set hq rfl rfl)
  | dropped _ _ _ _ _ hq => exact hsame rfl (h.set hq rfl rfl)

/-- A step that does not lose the connection. -/
def KeepStep (http : Http) (self : Connection) (ev : Event) (self' : Connection) : Prop :=
  Step http self ev self' ∧ ¬ self.Loses ev

/-- **An id is used again only behind an END_REQUEST.** A call has just inserted its request at
`k`, in any state, and any steps of it and of other calls follow that do not lose the connection:
it may fail, be dropped, or leave its body half read. Unless an END_REQUEST with its id was
processed since, the request is still there and still open, and no other call has inserted one
under its id. -/
theorem holds_run {s₀ s : Connection} (hins : s₀.Inserted j k)
    (hrun : Run (KeepStep http) s₀ evs s) (hend : ¬ s.EndedSince s₀.log.length k) :
    (∃ m, s.inner.inner.runningRequests.get? k = some m ∧ m.permit = j ∧ m.ended = false) ∧
      ∀ i, s.Inserted i k → i = j := by
  have hinv : s₀.log.length ≤ s.log.length ∧ (s.EndedSince s₀.log.length k ∨
      Holds s.inner.inner.runningRequests k j) := by
    refine hrun.inv (I := fun con => s₀.log.length ≤ con.log.length ∧
      (con.EndedSince s₀.log.length k ∨ Holds con.inner.inner.runningRequests k j))
      ⟨le_rfl, Or.inr ⟨_, hins.entry, rfl, rfl⟩⟩ ?_
    rintro con ev con' ⟨hn, hcon⟩ ⟨⟨eff, hnext⟩, hkeep⟩
    have hstep := next_stepped hnext
    obtain ⟨⟨recs, hlog⟩, -⟩ := hstep.grows
    refine ⟨by rw [hlog, List.length_append]; omega, ?_⟩
    rcases hcon with hended | hholds
    · exact Or.inl ((endedSince_append hlog hn).mpr (Or.inl hended))
    · obtain ⟨recs', hlog', hended | hholds'⟩ := hstep.holds hkeep hholds
      · exact Or.inl ((endedSince_append hlog' hn).mpr (Or.inr hended))
      · exact Or.inr hholds'
  obtain ⟨m, hm, hp, he⟩ := hinv.2.resolve_left hend
  refine ⟨⟨m, hm, hp, he⟩, fun i hi => ?_⟩
  cases hi.entry.symm.trans hm
  exact hp

/-- `check_alive` that finds the connection open. -/
theorem not_loses_check {i key : ℕ} {sock : SocketRead} {cx : Waker}
    (hno : ¬ self.inner.inner.Closes sock cx) : ¬ self.Loses (.check i sock cx key) := by
  rintro (⟨i', h⟩ | ⟨sock', cx', ⟨i', key', h⟩ | ⟨i', call, body, h, -⟩, hcl⟩)
  · cases h
  · cases h
    exact hno hcl
  · cases h

/-- The call is dropped, and another one begins its request. -/
theorem holds_run_dropped : ∃ s₀ s evs, Run (KeepStep (onlyBlock [])) s₀ evs s ∧
    s₀.Inserted 0 0 ∧ s.calls[0]? = some .left ∧ s.Inserted 1 1 ∧
    ∃ m, s.inner.inner.runningRequests.get? 0 = some m ∧ m.permit = 0 := by
  have hcomp : ((replay (tick (onlyBlock [])) (connect 2) inserting).bind fun s₀ =>
      (tick (onlyBlock []) s₀ (.head 0 .noBody)).bind fun s₁ =>
      (tick (onlyBlock []) s₁ (.cancel 0)).bind fun s₂ =>
      (tick (onlyBlock []) s₂ (.drop 0)).bind fun s₃ =>
      (tick (onlyBlock []) s₃ .acquire).bind fun s₄ =>
      (tick (onlyBlock []) s₄ (.lock 1)).bind fun s₅ =>
      (tick (onlyBlock []) s₅ (.check 1 .pending 8 1)).map fun s₆ =>
        decide ((s₀.calls = [.sending 1] ∧
            s₀.inner.inner.runningRequests.get? 0 = some (.new 0)) ∧
          ¬ s₅.inner.inner.Closes .pending 8 ∧ s₆.calls = [.left, .sending 2] ∧
          s₆.inner.inner.runningRequests.get? 1 = some (.new 1) ∧
          ¬ s₆.EndedSince s₀.log.length 0)) = some true := by
    decide +kernel
  obtain ⟨s₀, h₀, hcomp⟩ := Option.bind_eq_some_iff.mp hcomp
  obtain ⟨s₁, h₁, hcomp⟩ := Option.bind_eq_some_iff.mp hcomp
  obtain ⟨s₂, h₂, hcomp⟩ := Option.bind_eq_some_iff.mp hcomp
  obtain ⟨s₃, h₃, hcomp⟩ := Option.bind_eq_some_iff.mp hcomp
  obtain ⟨s₄, h₄, hcomp⟩ := Option.bind_eq_some_iff.mp hcomp
  obtain ⟨s₅, h₅, hcomp⟩ := Option.bind_eq_some_iff.mp hcomp
  obtain ⟨s₆, h₆, hcomp⟩ := Option.map_eq_some_iff.mp hcomp
  obtain ⟨⟨hcalls, hentry⟩, hopen, hcalls₆, hentry₆, hend⟩ := of_decide_eq_true hcomp
  have hins : s₀.Inserted 0 0 := ⟨⟨1, by rw [hcalls]; rfl⟩, hentry⟩
  have hquiet : ∀ {s s' : Connection} {ev : Event}, tick (onlyBlock []) s ev = some s' →
      ev.poll? = none → (∀ i sock cx key, ev ≠ .check i sock cx key) →
      (∀ i, ev ≠ .shutdown i) → KeepStep (onlyBlock []) s ev s' := fun h hpoll hcheck hshut =>
    ⟨step_of_tick _ _ _ h, not_loses hpoll hcheck hshut⟩
  have hrun : Run (KeepStep (onlyBlock [])) s₀ ([.head 0 .noBody] ++ [.cancel 0] ++ [.drop 0] ++
      [.acquire] ++ [.lock 1] ++ [.check 1 .pending 8 1]) s₆ :=
    .snoc (.snoc (.snoc (.snoc (.snoc (.snoc .nil (hquiet h₁ rfl nofun nofun))
      (hquiet h₂ rfl nofun nofun)) (hquiet h₃ rfl nofun nofun)) (hquiet h₄ rfl nofun nofun))
      (hquiet h₅ rfl nofun nofun)) ⟨step_of_tick _ _ _ h₆, not_loses_check hopen⟩
  obtain ⟨⟨m, hm, hp, -⟩, -⟩ := holds_run hins hrun hend
  exact ⟨s₀, s₆, _, hrun, hins, by rw [hcalls₆]; rfl, ⟨⟨2, by rw [hcalls₆]; rfl⟩, hentry₆⟩, m, hm, hp⟩

end Connection

end AsyncFcgi
