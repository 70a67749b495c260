import AsyncFcgi.Client.Release

/-!
# Calls that fail (`src/client/connection.rs`)

`forward` returns an error behind the insertion of its request when a write fails, when
`HeaderMultilineStrategy::ReturnError` meets a line feed, and when the body is too short. Only
the drop of a body marks a request as aborted, and there is a body only once `create_response`
was polled.

* `failed_slot_iff`: which failed calls give their slot back.
-/

namespace AsyncFcgi

open Lib

namespace Connection

/-- The call at `j` fails with its request at `k`: in the head of the request, or with what is
left of `create_response` once `send_body` failed. -/
def Fails (self : Connection) (ev : Event) (j k : ℕ) : Prop :=
  ∃ call, self.calls[j]? = some call ∧ Forward.key? call = some k ∧
    ((∃ rid, call = .sending rid ∧ (ev = .head j .writeFailed ∨ ev = .head j .headerRejected)) ∨
      ∃ rid resp, call = .failed rid resp ∧ ev = .drop j)

/-- The failing call drops a body, and the lock is free. -/
def Marks (self : Connection) (ev : Event) (j : ℕ) : Prop :=
  ev = .drop j ∧ self.inner.waiters = none ∧
    ∃ rid resp, self.calls[j]? = some (Forward.failed rid (some resp))

/-- The requests in the table whose call is still there. -/
def live (self : Connection) : ℕ :=
  self.inner.inner.runningRequests.values.countP fun m => self.calls[m.permit]? ≠ some .left

variable {http : Http} {maxReqPerCon : UInt16} {max : ℕ} {evs evs' : List Event}
  {self self' s₁ s₂ : Connection} {ev : Event} {eff : Effects} {j k : ℕ}

/-- A failing call has a body to drop if `create_response` was polled. -/
theorem Fails.marks_iff (hfail : self.Fails ev j k) : self.Marks ev j ↔ self.DropsFree ev j := by
  obtain ⟨call, hcall, hkey, hcases⟩ := hfail
  constructor
  · rintro ⟨rfl, hw, rid, resp, hcall'⟩
    rw [hcall] at hcall'
    cases hcall'
    refine ⟨rfl, hw, resp.fcgibody, ?_, _, hcall, rfl⟩
    by_contra hd
    rw [Forward.key?, FCGIBody.key?, if_pos (by simpa using hd)] at hkey
    cases hkey
  · rintro ⟨rfl, hw, body, -, call', hcall', hbody⟩
    rw [hcall] at hcall'
    cases hcall'
    rcases hcases with ⟨rid, rfl, -⟩ | ⟨rid, resp, rfl, -⟩
    · cases hbody
    · cases resp with
      | none => cases hbody
      | some resp => exact ⟨rfl, hw, rid, resp, hcall⟩

/-- What a failing call leaves of its request. -/
theorem fails_leaves (h : Slots max self) (hfail : self.Fails ev j k)
    (hnext : self.next http ev = .ok (some (self', eff))) :
    self'.calls[j]? = some .left ∧ self'.log = self.log ∧
      ∃ m, self'.inner.inner.runningRequests.get? k = some m ∧ m.permit = j ∧
        (m.aborted = true ↔ self.Marks ev j) := by
  obtain ⟨call, hcall, hkey, hcases⟩ := id hfail
  have hleft : self'.calls[j]? = some .left := by
    have hset : (self.calls.set j .left)[j]? = some .left :=
      List.getElem?_set_self (List.getElem?_eq_some_iff.mp hcall).1
    rcases hcases with ⟨rid, rfl, rfl | rfl⟩ | ⟨rid, resp, rfl, rfl⟩
    · simp only [next, hcall] at hnext
      cases hnext
      exact hset
    · simp only [next, hcall] at hnext
      cases hnext
      exact hset
    · exact drop_left hnext
  obtain ⟨hlog, m, hq, hp, ha⟩ := leaves_entry h hcall hkey hnext hleft
  exact ⟨hleft, hlog, m, hq, hp, ha.trans hfail.marks_iff.symm⟩

/-- The permits and the requests with a call add up exactly if no call left a request. -/
theorem Slots.live_iff (h : Slots max self) :
    self.sem + self.holding + self.live = max ↔
      ∀ i, self.calls[i]? = some .left → ¬ self.Has i := by
  have hcount := h.count
  have hle : self.live ≤ self.inner.inner.runningRequests.size := List.countP_le_length
  have hsize : self.sem + self.holding + self.live = max ↔
      self.live = self.inner.inner.runningRequests.size := by omega
  rw [hsize, Connection.live, Slab.size, List.countP_eq_length]
  constructor
  · rintro hall i hleft ⟨k, m, hq, rfl⟩
    exact of_decide_eq_true (hall m (Slab.mem_values.mpr ⟨k, hq⟩)) hleft
  · intro hno m hm
    obtain ⟨k, hq⟩ := Slab.mem_values.mp hm
    exact decide_eq_true fun hleft => hno _ hleft ⟨k, m, hq, rfl⟩

/-- **Which failed calls give back their slot.** A call fails in a reachable state, and other
steps follow: its request is aborted then exactly if the call drops a body with the lock free,
and its slot is free later exactly if its END_REQUEST was also processed. The permits add up to
their number exactly if no call that left has a request. -/
theorem failed_slot_iff (hrun : Runs http maxReqPerCon evs self) (hfail : self.Fails ev j k)
    (hstep : Step http self ev s₁) (hafter : Run (Step http) s₁ evs' s₂) :
    ((∀ k' m, s₁.inner.inner.runningRequests.get? k' = some m → m.permit = j →
        m.aborted = true) ↔ self.Marks ev j) ∧
      (s₂.Freed j ↔ self.Marks ev j ∧ s₂.EndedSince self.log.length k) ∧
      (s₂.sem + s₂.holding + s₂.live = maxReqPerCon.toNat ↔
        ∀ i, s₂.calls[i]? = some .left → ¬ s₂.Has i) := by
  have hmax := maxReqPerCon.toNat_lt
  have h := slots_run hrun
  obtain ⟨eff, hnext⟩ := hstep
  have h₁ := h.step hmax (next_stepped hnext)
  obtain ⟨hleft, hlog, m, hq, hp, ha⟩ := fails_leaves h hfail hnext
  have h₂ : Slots maxReqPerCon.toNat s₂ :=
    hafter.inv h₁ fun _ _ _ hs ⟨_, hn⟩ => hs.step hmax (next_stepped hn)
  refine ⟨?_, ?_, h₂.live_iff⟩
  · rw [← ha]
    refine ⟨fun hall => hall k m hq hp, fun hm k' m' hq' hp' => ?_⟩
    obtain rfl := h₁.unique k' k m' m hq' hq (hp'.trans hp.symm)
    rw [hq] at hq'
    cases hq'
    exact hm
  · rw [orphan_run hmax h₁ hleft hq hp hafter, ha, hlog]

/-- The second call of `bothWait` fails, drops its body, and then the first call reads the
END_REQUEST. -/
theorem failed_slot_iff_end : ∃ s₁ s₂,
    Step (onlyBlock []) (bothWaiting (.failed 2 (some (.new 1)))) (.drop 1) s₁ ∧
      Run (Step (onlyBlock [])) s₁ [.respond 0 (.ready endTwo.encode) 7] s₂ ∧ s₂.Freed 1 := by
  obtain ⟨s₁, s₂, hdrop, hafter, hended⟩ := bothWait_drop_end
  refine ⟨s₁, s₂, hdrop, hafter, ?_⟩
  exact (failed_slot_iff bothWait_cancel_run ⟨_, rfl, rfl, Or.inr ⟨_, _, rfl, rfl⟩⟩
    hdrop hafter).2.1.mpr ⟨⟨rfl, rfl, _, _, rfl⟩, hended⟩

/-- A header with a line feed: the request stays, and is not aborted. -/
theorem failed_headerRejected : ¬ ∀ http maxReqPerCon evs self ev j k s₁,
    Runs http maxReqPerCon evs self → self.Fails ev j k → Step http self ev s₁ →
      ∀ k' m, s₁.inner.inner.runningRequests.get? k' = some m → m.permit = j →
        m.aborted = true := by
  intro h
  have hrun : ((replay (tick (onlyBlock [])) (connect 1)
      [.acquire, .lock 0, .check 0 .pending 7 0]).bind fun s =>
        (tick (onlyBlock []) s (.head 0 .headerRejected)).map fun s₁ =>
          (s.calls[0]?, s₁.inner.inner.runningRequests.get? 0)) =
      some (some (.sending 1), some (.new 0)) := by
    decide +kernel
  obtain ⟨s, hreplay, hrun⟩ := Option.bind_eq_some_iff.mp hrun
  obtain ⟨s₁, hhead, hs₁⟩ := Option.map_eq_some_iff.mp hrun
  simp only [Prod.mk.injEq] at hs₁
  obtain ⟨hcall, hq⟩ := hs₁
  have haborted := h (onlyBlock []) 1 _ s (.head 0 .headerRejected) 0 0 s₁
    (run_of_replay step_of_tick _ hreplay) ⟨_, hcall, rfl, Or.inl ⟨_, rfl, Or.inr rfl⟩⟩
    (step_of_tick _ _ _ hhead) 0 _ hq rfl
  cases haborted

end Connection

end AsyncFcgi
