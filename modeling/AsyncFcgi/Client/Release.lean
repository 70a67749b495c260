import AsyncFcgi.Client.HandOver
import AsyncFcgi.Client.Turn

/-!
# Requests without a consumer (`src/client/connection.rs`)

A dropped body leaves its request to `parse_and_distribute`, which removes it at its END_REQUEST
if the drop could mark it as aborted. Nobody else looks at such a request any more.

* `orphan_run`: a request without a consumer is freed exactly if it is aborted and its
  END_REQUEST is processed.
* `dropped_freed_iff`: what that means for the drop of a body.
-/

namespace AsyncFcgi

open Lib

namespace Connection

/-- The request of the permit is gone, and the permit was dropped. -/
def Freed (self : Connection) (p : Permit) : Prop := ¬ self.Has p ∧ p ∈ self.released

/-- Since the log was of length `n`, an END_REQUEST for the request at `k` was processed. -/
def EndedSince (self : Connection) (n k : ℕ) : Prop :=
  ∃ rec ∈ self.log.drop n, InnerConnection.EndOf k rec

instance (self : Connection) (n k : ℕ) : Decidable (self.EndedSince n k) :=
  inferInstanceAs (Decidable (∃ rec ∈ _, _))

variable {http : Http} {maxReqPerCon : UInt16} {max : ℕ} {evs : List Event}
  {self self' : Connection} {ev : Event} {eff : Effects} {j k : ℕ}

/-- The request at `k`, which belonged to the call at `j`, since the state `start`: nobody comes
back to it. -/
structure Orphan (max : ℕ) (start : Connection) (j k : ℕ) (aborted : Bool) (con : Connection) :
    Prop where
  slots : Slots max con
  left_ : con.calls[j]? = some .left
  log : start.log <+: con.log
  entry : (¬ (aborted = true ∧ con.EndedSince start.log.length k) ∧
      ∃ m, con.inner.inner.runningRequests.get? k = some m ∧ m.permit = j ∧
        m.aborted = aborted) ∨
    ((aborted = true ∧ con.EndedSince start.log.length k) ∧ con.Freed j)

theorem Orphan.step {start : Connection} {aborted : Bool} (hmax : max < 2 ^ 16)
    (h : Orphan max start j k aborted self) (hs : Step http self ev self') :
    Orphan max start j k aborted self' := by
  obtain ⟨eff, hnext⟩ := hs
  have hstep := next_stepped hnext
  have hother : ev.call? ≠ some j := by
    intro hev
    rw [next_left h.left_ hev] at hnext
    cases hnext
  obtain ⟨⟨recs, hlog⟩, hrel⟩ := hstep.grows
  obtain ⟨mid, hmid⟩ := h.log
  have hsince : ∀ recs', self'.log = self.log ++ recs' → (self'.EndedSince start.log.length k ↔
      self.EndedSince start.log.length k ∨ ∃ rec ∈ recs', InnerConnection.EndOf k rec) := by
    intro recs' hlog'
    rw [EndedSince, EndedSince, hlog', List.drop_append_of_le_length h.log.length_le]
    simp only [List.mem_append, or_and_right, exists_or]
  refine ⟨h.slots.step hmax hstep, calls_other hstep hother h.left_,
    h.log.trans ⟨recs, hlog.symm⟩, ?_⟩
  rcases h.entry with ⟨hno, m, hq, rfl, rfl⟩ | ⟨⟨ha, hend⟩, hgone, hmem⟩
  · obtain ⟨recs', hlog', ⟨hno', m', hq', hp', ha'⟩ | ⟨⟨ha, hend⟩, hgone⟩⟩ :=
      h.slots.handled hstep hq hother
    · refine Or.inl ⟨?_, m', hq', hp', ha'⟩
      rintro ⟨ha, hend⟩
      rcases (hsince recs' hlog').mp hend with hend | hend
      · exact hno ⟨ha, hend⟩
      · exact hno' ⟨ha, hend⟩
    · exact Or.inr ⟨⟨ha, (hsince recs' hlog').mpr (Or.inr hend)⟩, hgone⟩
  · refine Or.inr ⟨⟨ha, (hsince recs hlog).mpr (Or.inl hend)⟩, fun hhas => ?_, ?_⟩
    · exact (h.slots.has hstep hhas).elim hgone hother
    · rw [hrel]
      exact List.mem_append_left _ hmem

/-- A request without a consumer is freed by its END_REQUEST if it is aborted, and else never. -/
theorem orphan_run {m : FCGIRequest} (hmax : max < 2 ^ 16) (h : Slots max self)
    (hleft : self.calls[j]? = some .left)
    (hq : self.inner.inner.runningRequests.get? k = some m) (hp : m.permit = j)
    (hrun : Run (Step http) self evs self') :
    self'.Freed j ↔ m.aborted = true ∧ self'.EndedSince self.log.length k := by
  have hstart : Orphan max self j k m.aborted self := by
    refine ⟨h, hleft, List.prefix_refl _, Or.inl ⟨?_, m, hq, hp, rfl⟩⟩
    rintro ⟨-, rec, hmem, -⟩
    rw [List.drop_length] at hmem
    cases hmem
  rcases (hrun.inv hstart fun _ _ _ ho hs => ho.step hmax hs).entry with
    ⟨hno, m', hq', hp', -⟩ | ⟨hend, hfreed⟩
  · exact iff_of_false (fun hf => hf.1 ⟨k, m', hq', hp'⟩) hno
  · exact iff_of_true hfreed hend

/-! ## Dropped bodies -/

/-- A run in which the request of the call at `j` is in the table at `k`, its body is dropped
before it is done, and other steps follow. -/
structure Dropped (http : Http) (maxReqPerCon : UInt16) (j k : ℕ) (s₀ s s₁ s₂ : Connection) :
    Prop where
  runs : ∃ evs, Runs http maxReqPerCon evs s₀
  there : ∃ m, s₀.inner.inner.runningRequests.get? k = some m ∧ m.permit = j
  before : ∃ evs, Run (Step http) s₀ evs s
  live : ∃ body, s.Live j body ∧ body.rid = k
  drop : Step http s (.drop j) s₁
  after : ∃ evs, Run (Step http) s₁ evs s₂

/-- The call at `j` drops a body that is not done, and the lock is free. -/
def DropsFree (self : Connection) (ev : Event) (j : ℕ) : Prop :=
  ev = .drop j ∧ self.inner.waiters = none ∧ ∃ body, self.Live j body

/-- A call that leaves drops its body, or fails in the head of its request. -/
theorem leaves_cases {call : Forward} (hcall : self.calls[j]? = some call)
    (hkey : call.key? = some k) (hnext : self.next http ev = .ok (some (self', eff)))
    (hleft : self'.calls[j]? = some .left) :
    ((∃ rid, call = .sending rid) ∧ ev ≠ .drop j ∧
        self'.inner.inner = self.inner.inner ∧ self'.log = self.log) ∨
      (ev = .drop j ∧ ((∃ rid, call = .failed rid none) ∧ self' = self.move j .left self.inner .none ∨
        ∃ body, call.body? = some body ∧
          self' = self.move j .left (body.drop self.inner) .none)) := by
  have hev : ev.call? = some j := by
    by_contra hother
    rw [calls_other (next_stepped hnext) hother hcall] at hleft
    cases hleft
    cases hkey
  rcases next_turn hnext with ⟨rfl, -⟩ | ⟨i, call₀, call', hev', hcall₀, hcalls, hturn⟩
  · cases hev
  obtain rfl : j = i := Option.some.inj (hev.symm.trans hev')
  cases hcall.symm.trans hcall₀
  rw [hcalls, List.getElem?_set_self (List.getElem?_eq_some_iff.mp hcall).1] at hleft
  obtain rfl := Option.some.inj hleft
  generalize hgoal : Forward.left = goal at hturn
  cases hturn with
  | @head _ rid res =>
    cases hev
    simp only [next, hcall] at hnext
    cases hnext
    exact Or.inl ⟨⟨rid, rfl⟩, fun hdrop => (by cases hdrop), rfl, rfl⟩
  | @cut _ rid =>
    cases hev
    simp only [next, hcall] at hnext
    cases hnext
    exact Or.inl ⟨⟨rid, rfl⟩, fun hdrop => (by cases hdrop), rfl, rfl⟩
  | drop hover =>
    cases hev
    simp only [next, hcall] at hnext
    cases hover with
    | @returned body =>
      cases hnext
      exact Or.inr ⟨rfl, Or.inr ⟨body, rfl, rfl⟩⟩
    | @failed rid resp =>
      cases resp with
      | none =>
        cases hnext
        exact Or.inr ⟨rfl, Or.inl ⟨⟨rid, rfl⟩, rfl⟩⟩
      | some resp =>
        cases hnext
        exact Or.inr ⟨rfl, Or.inr ⟨resp.fcgibody, rfl, rfl⟩⟩
  | gaveUp hholds =>
    rw [Forward.holdsPermit_of_key? hkey] at hholds
    cases hholds
  | @upload _ _ _ res => cases res <;> cases hgoal
  | refused => cases hkey
  | unreachable => cases hkey
  | _ => cases hgoal

/-- What a call that leaves its request makes of it: it is aborted exactly if the call drops a
body with the lock free. -/
theorem leaves_entry (h : Slots max self) {call : Forward} (hcall : self.calls[j]? = some call)
    (hkey : call.key? = some k) (hnext : self.next http ev = .ok (some (self', eff)))
    (hleft : self'.calls[j]? = some .left) :
    self'.log = self.log ∧ ∃ m, self'.inner.inner.runningRequests.get? k = some m ∧
      m.permit = j ∧ (m.aborted = true ↔ self.DropsFree ev j) := by
  obtain ⟨m, hq, hp, ha⟩ := h.owns j call k hcall hkey
  have hstays : self'.inner.inner = self.inner.inner → ¬ self.DropsFree ev j →
      ∃ m, self'.inner.inner.runningRequests.get? k = some m ∧ m.permit = j ∧
        (m.aborted = true ↔ self.DropsFree ev j) := fun hinner hno =>
    ⟨m, by rw [hinner, hq], hp, iff_of_false (by simp [ha]) hno⟩
  rcases leaves_cases hcall hkey hnext hleft with
    ⟨-, hdrop, hinner, hlog⟩ | ⟨rfl, ⟨⟨rid, rfl⟩, rfl⟩ | ⟨body, hbody, rfl⟩⟩
  · exact ⟨hlog, hstays hinner fun hd => hdrop hd.1⟩
  · -- `create_response` was not polled: there is no body to drop
    refine ⟨rfl, hstays rfl ?_⟩
    rintro ⟨-, -, body, -, call', hcall', hbody⟩
    rw [hcall] at hcall'
    cases hcall'
    cases hbody
  · refine ⟨rfl, ?_⟩
    have hbodyKey : body.key? = some k := (Forward.key?_eq_body hbody).symm.trans hkey
    obtain ⟨hd, rfl⟩ : body.done = false ∧ body.rid = k := by
      rw [FCGIBody.key?] at hbodyKey
      split at hbodyKey
      · cases hbodyKey
      · rename_i hd
        exact ⟨Bool.eq_false_iff.mpr hd, Option.some.inj hbodyKey⟩
    have hfree : self.DropsFree (.drop j) j ↔ self.inner.waiters = none :=
      ⟨fun h => h.2.1, fun hw => ⟨rfl, hw, body, hd, call, hcall, hbody⟩⟩
    show ∃ m', (body.drop self.inner).inner.runningRequests.get? body.rid = some m' ∧ _
    rw [hfree]
    unfold FCGIBody.drop
    rw [hd, if_neg (by decide)]
    cases hw : self.inner.waiters with
    | some q => exact ⟨m, hq, hp, by simp [ha]⟩
    | none =>
      simp only [hq]
      exact ⟨{ m with aborted := true, waker := none }, by rw [Slab.get?_set hq, if_pos rfl], hp,
        by simp⟩

/-- A call leaves with the drop of its body. -/
theorem drop_left (hnext : self.next http (.drop j) = .ok (some (self', eff))) :
    self'.calls[j]? = some .left := by
  have hset : ∀ {call : Forward}, self.calls[j]? = some call →
      (self.calls.set j .left)[j]? = some .left := fun hcall =>
    List.getElem?_set_self (List.getElem?_eq_some_iff.mp hcall).1
  cases next_branch hnext with
  | drop hcall => exact hset hcall
  | dropUnpolled hcall => exact hset hcall

/-- **When a dropped request is freed.** A body is dropped before it is done, in any reachable
state and with anything in its buffer, and other steps follow: the request is removed and its
permit dropped exactly if the lock was free at the drop and the END_REQUEST is processed behind
it. -/
theorem dropped_freed_iff {s₀ s s₁ s₂ : Connection}
    (h : Dropped http maxReqPerCon j k s₀ s s₁ s₂) :
    s₂.Freed j ↔ s.inner.waiters = none ∧ s₂.EndedSince s.log.length k := by
  have hmax := maxReqPerCon.toNat_lt
  obtain ⟨evs₀, hruns⟩ := h.runs
  obtain ⟨evs, hbefore⟩ := h.before
  obtain ⟨evs₂, hafter⟩ := h.after
  obtain ⟨body, hlive, rfl⟩ := h.live
  obtain ⟨eff, hnext⟩ := h.drop
  have hslots : Slots maxReqPerCon.toNat s := slots_run (hruns.append hbefore)
  obtain ⟨call, hcall, hbody⟩ := hlive.2
  have hleft := drop_left hnext
  obtain ⟨hlog, m, hq, hp, ha⟩ :=
    leaves_entry hslots hcall (Forward.key?_of_body? hbody hlive.1) hnext hleft
  have hfree : s.DropsFree (.drop j) j ↔ s.inner.waiters = none :=
    ⟨fun hd => hd.2.1, fun hw => ⟨rfl, hw, body, hlive⟩⟩
  rw [orphan_run hmax (hslots.step hmax (next_stepped hnext)) hleft hq hp hafter, ha, hfree, hlog]

/-- The second call of `bothWait` failed and drops its body, and then the first one reads the
END_REQUEST. -/
theorem bothWait_drop_end : ∃ s₁ s₂,
    Step (onlyBlock []) (bothWaiting (.failed 2 (some (.new 1)))) (.drop 1) s₁ ∧
      Run (Step (onlyBlock [])) s₁ [.respond 0 (.ready endTwo.encode) 7] s₂ ∧
      s₂.EndedSince 0 1 := by
  have hrun : ((tick (onlyBlock []) (bothWaiting (.failed 2 (some (.new 1)))) (.drop 1)).bind
      fun s₁ => (tick (onlyBlock []) s₁ (.respond 0 (.ready endTwo.encode) 7)).map
        fun s₂ => decide (s₂.EndedSince 0 1)) = some true := by
    decide +kernel
  obtain ⟨s₁, hdrop, h⟩ := Option.bind_eq_some_iff.mp hrun
  obtain ⟨s₂, hend, hended⟩ := Option.map_eq_some_iff.mp h
  exact ⟨s₁, s₂, step_of_tick _ _ _ hdrop, .snoc .nil (step_of_tick _ _ _ hend),
    of_decide_eq_true hended⟩

/-- In that run the slot is free. -/
theorem dropped_freed_iff_end : ∃ s₁ s₂,
    Dropped (onlyBlock []) 2 1 1 (bothWaiting (.failed 2 (some (.new 1))))
      (bothWaiting (.failed 2 (some (.new 1)))) s₁ s₂ ∧ s₂.Freed 1 := by
  obtain ⟨s₁, s₂, hdrop, hafter, hended⟩ := bothWait_drop_end
  have hd : Dropped (onlyBlock []) 2 1 1 (bothWaiting (.failed 2 (some (.new 1))))
      (bothWaiting (.failed 2 (some (.new 1)))) s₁ s₂ :=
    ⟨⟨_, bothWait_cancel_run⟩, ⟨_, rfl, rfl⟩, ⟨_, .nil⟩, ⟨_, ⟨rfl, _, rfl, rfl⟩, rfl⟩,
      hdrop, _, hafter⟩
  exact ⟨s₁, s₂, hd, (dropped_freed_iff hd).mpr ⟨rfl, hended⟩⟩

/-- The first call reads the END_REQUEST of the second one, and then that is dropped: its
request stays. -/
theorem dropped_kept : ¬ ∀ http maxReqPerCon j k s₀ s s₁ s₂,
    Dropped http maxReqPerCon j k s₀ s s₁ s₂ → s₂.EndedSince s₀.log.length k → s₂.Freed j := by
  intro h
  have hrun : ((replay (tick (onlyBlock []))
        (bothWaiting (.exchanging 2 .done (some (.new 1))))
        [.respond 0 (.ready endTwo.encode) 7, .cancel 1]).bind
      fun s => (tick (onlyBlock []) s (.drop 1)).map fun s₁ =>
        (s.calls[1]?, decide (s₁.EndedSince 0 1),
          (s₁.inner.inner.runningRequests.get? 1).map FCGIRequest.permit)) =
      some (some (.failed 2 (some (.new 1))), true, some 1) := by
    decide +kernel
  obtain ⟨s, hbefore, hrun⟩ := Option.bind_eq_some_iff.mp hrun
  obtain ⟨s₁, hdrop, hs₁⟩ := Option.map_eq_some_iff.mp hrun
  simp only [Prod.mk.injEq] at hs₁
  obtain ⟨hcall, hended, hentry⟩ := hs₁
  obtain ⟨m, hq, hp⟩ := Option.map_eq_some_iff.mp hentry
  have hfreed := h (onlyBlock []) 2 1 1 _ s s₁ s₁
    ⟨⟨_, bothWait_run⟩, ⟨_, rfl, rfl⟩, ⟨_, run_of_replay step_of_tick _ hbefore⟩,
      ⟨_, ⟨rfl, _, hcall, rfl⟩, rfl⟩, step_of_tick _ _ _ hdrop, _, .nil⟩
    (of_decide_eq_true hended)
  exact hfreed.1 ⟨1, m, hq, hp⟩

end Connection

end AsyncFcgi
