import AsyncFcgi.Client.Lock
import AsyncFcgi.Client.Release

/-!
# Requests at a reconnect (`src/client/connection.rs`)

A call that finds the connection dead tells all other requests that they are ended, and replaces
the transport. `notify_everyone` leaves out the requests that are aborted: they wait for an
END_REQUEST, which the new transport will not bring.

* `told_run`: in front of the reconnect every request is aborted or ended.
* `reconnect_iff`: which slots come back behind it.
-/

namespace AsyncFcgi

open Lib

namespace Connection

variable {http : Http} {maxReqPerCon : UInt16} {max : ℕ} {evs : List Event}
  {self self' : Connection} {ev : Event} {eff : Effects} {i j k : ℕ} {p : Permit}
  {call call' : Forward}

/-! ## Everyone is told -/

/-- While a call connects again, every request is aborted or ended. -/
def Told (con : Connection) : Prop :=
  ∀ i : ℕ, con.calls[i]? = some .connecting → ∀ k m,
    con.inner.inner.runningRequests.get? k = some m → m.aborted = true ∨ m.ended = true

/-- A call connects again behind `notify_everyone`. -/
theorem next_connecting (hnext : self.next http ev = .ok (some (self', eff)))
    (hev : ev.call? = some i) (hcall' : self'.calls[i]? = some .connecting) :
    ev = .shutdown i := by
  rcases next_turn hnext with ⟨rfl, -⟩ | ⟨j, call, call', hev', hcall, hcalls, hturn⟩
  · cases hev
  · obtain rfl : i = j := Option.some.inj (hev.symm.trans hev')
    rw [hcalls, List.getElem?_set_self (List.getElem?_eq_some_iff.mp hcall).1] at hcall'
    obtain rfl := Option.some.inj hcall'
    generalize hgoal : Forward.connecting = goal at hturn
    cases hturn with
    | shutdown => exact congrArg Event.shutdown (Option.some.inj hev)
    | @head _ _ res => cases res <;> cases hgoal
    | @upload _ _ _ res => cases res <;> cases hgoal
    | _ => cases hgoal

/-- Behind `notify_everyone` every request is aborted or ended. -/
theorem notified_told (t : Slab FCGIRequest) {m : FCGIRequest}
    (hq : (InnerConnection.notifyEveryone t).1.get? k = some m) :
    m.aborted = true ∨ m.ended = true := by
  rw [InnerConnection.get?_notifyEveryone] at hq
  obtain ⟨m₀, -, rfl⟩ := Option.map_eq_some_iff.mp hq
  unfold InnerConnection.notify
  split
  · exact Or.inl ‹_›
  · exact Or.inr rfl

theorem Told.step (h : Settled max self) (ht : Told self) (hs : Step http self ev self') :
    Told self' := by
  obtain ⟨eff, hnext⟩ := hs
  intro i hcall' k m hq
  by_cases hev : ev.call? = some i
  · obtain rfl := next_connecting hnext hev hcall'
    cases next_branch hnext with
    | shutdown => exact notified_told _ hq
  · have hstep := next_stepped hnext
    have hcall := (calls_back hstep hev hcall').resolve_right nofun
    rw [h.locked.requests_other hstep ⟨_, hcall, rfl⟩ hev] at hq
    exact ht i hcall k m hq

theorem told_run (hrun : Runs http maxReqPerCon evs self) : Told self := by
  have hstart : Settled maxReqPerCon.toNat (connect maxReqPerCon) ∧ Told (connect maxReqPerCon) :=
    ⟨settled_run (.nil : Runs http maxReqPerCon [] _), fun _ hcall => by simp [connect] at hcall⟩
  exact (hrun.inv (I := fun con => Settled maxReqPerCon.toNat con ∧ Told con) hstart
    fun _ _ _ h hs => ⟨h.1.step maxReqPerCon.toNat_lt hs, h.2.step h.1 hs⟩).2

/-! ## The slots behind a reconnect -/

/-- Every request but that at `key` is ended, is not aborted, and has a call that consumes it. -/
def Clean (self : Connection) (key : ℕ) : Prop :=
  ∀ k m, self.inner.inner.runningRequests.get? k = some m → k ≠ key →
    m.aborted = false ∧ m.ended = true ∧
      ∃ call, self.calls[m.permit]? = some call ∧ Forward.key? call = some k

/-- The call with the permit `p` consumes a request. -/
def Consumes (self : Connection) (p : Permit) : Prop :=
  ∃ call k, self.calls[p]? = some call ∧ Forward.key? call = some k

/-- A run to a state in which the call at `i` connects again, the step that replaces the
transport and inserts its request at `key`, and other steps. -/
structure Reconnects (http : Http) (maxReqPerCon : UInt16) (i key : ℕ) (evs : List Event)
    (s s₂ s₃ : Connection) : Prop where
  runs : ∃ evs₀, Runs http maxReqPerCon evs₀ s
  step : Step http s (.connect i true key) s₂
  after : Run (Step http) s₂ evs s₃

/-- In the run, every call that leaves a request behind which was there in `s` drops a body with
the lock free, and the END_REQUEST for it is processed later. -/
def AllAnswered (http : Http) (evs : List Event) (s s₂ s₃ : Connection) : Prop :=
  ∀ p pre ev post t t' call k, s.Has p → evs = pre ++ ev :: post → Run (Step http) s₂ pre t →
    Step http t ev t' → Run (Step http) t' post s₃ → t.calls[p]? = some call →
    Forward.key? call = some k → t'.calls[p]? = some .left →
    t.DropsFree ev p ∧ s₃.EndedSince t.log.length k

variable {key : ℕ} {s s₂ s₃ t t' : Connection}

/-- The step of a reconnect: the other requests and calls stay. -/
theorem reconnected_kept (hstep : Step http s (.connect i true key) s₂) :
    s.calls[i]? = some .connecting ∧ s₂.log = s.log ∧
      (∀ k, k ≠ key →
        s₂.inner.inner.runningRequests.get? k = s.inner.inner.runningRequests.get? k) ∧
      s.inner.inner.runningRequests.get? key = none ∧ ∀ p, p ≠ i → s₂.calls[p]? = s.calls[p]? := by
  obtain ⟨eff, hnext⟩ := hstep
  cases next_branch hnext with
  | reconnect hcall hcan =>
    refine ⟨hcall, rfl, fun k hk => ?_, Slab.get?_of_canInsert hcan, fun p hp => ?_⟩
    · show (s.inner.inner.runningRequests.insertAt key _).get? k = _
      rw [Slab.get?_insertAt hcan, if_neg hk]
    · exact List.getElem?_set_ne (Ne.symm hp)

/-- A call that left stays so. -/
theorem left_run (hleft : self.calls[j]? = some .left) (hrun : Run (Step http) self evs self') :
    self'.calls[j]? = some .left := by
  refine hrun.inv (I := fun con => con.calls[j]? = some .left) hleft ?_
  rintro s ev s' hs ⟨eff, hnext⟩
  refine calls_other (next_stepped hnext) (fun hev => ?_) hs
  rw [next_left hs hev] at hnext
  cases hnext

/-- A call that is done with its request has its slot freed, and nobody fills it again. -/
theorem freed_run (hmax : max < 2 ^ 16) (h : Settled max self) (hspent : self.Spent p)
    (hfreed : self.Freed p) (hrun : Run (Step http) self evs self') : self'.Freed p := by
  refine (hrun.inv (I := fun con => Settled max con ∧ con.Spent p ∧ con.Freed p)
    ⟨h, hspent, hfreed⟩ ?_).2.2
  rintro s ev s' ⟨h, hspent, hno, hmem⟩ hs
  obtain ⟨eff, hnext⟩ := id hs
  have hstep := next_stepped hnext
  refine ⟨h.step hmax hs, hspent.step hstep, ?_, ?_⟩
  · rintro ⟨k, m', hq', rfl⟩
    rcases h.slots.back hstep hq' with ⟨m, hq, hp⟩ | ⟨-, call, hcall, hholds⟩
    · exact hno ⟨k, m, hq, hp⟩
    · obtain ⟨call', hcall', hnot⟩ := hspent
      rw [hcall] at hcall'
      cases hcall'
      rw [hholds] at hnot
      cases hnot
  · rw [hstep.grows.2]
    exact List.mem_append_left _ hmem

/-- A call that consumes nothing any more has its slot freed, unless it left. -/
theorem Settled.freed (h : Settled max self) (hspent : self.Spent p) (hno : ¬ self.Consumes p)
    (hleft : self.calls[p]? ≠ some .left) : self.Freed p := by
  obtain ⟨call, hcall, hholds⟩ := hspent
  have hgone : ¬ self.Has p := by
    rintro ⟨k, m, hq, rfl⟩
    obtain ⟨call', hcall', hl | hk⟩ := h.placed.owner k m hq
    · exact hleft (hl ▸ hcall')
    · exact hno ⟨call', k, hcall', hk⟩
  exact ⟨hgone, (h.placed.spent p call hcall hholds).resolve_left hgone⟩

/-- Behind the reconnect all requests are live exactly if no call left one. -/
theorem clean_iff (h : Settled max s) (ht : Told s)
    (hstep : Step http s (.connect i true key) s₂) :
    s₂.Clean key ↔ ∀ p, s.Has p → s.calls[p]? ≠ some .left := by
  obtain ⟨hcall, -, hentry, hnone, hcalls⟩ := reconnected_kept hstep
  have hnei : ∀ {k m}, s.inner.inner.runningRequests.get? k = some m → m.permit ≠ i := by
    intro k m hq hpi
    obtain ⟨c, hc, hno⟩ := h.slots.permits k m hq
    rw [hpi, hcall] at hc
    cases hc
    cases hno
  constructor
  · rintro hclean p ⟨k, m, hq, rfl⟩ hleft
    have hk : k ≠ key := by
      rintro rfl
      rw [hnone] at hq
      cases hq
    obtain ⟨-, -, call, hcall', hkey⟩ := hclean k m ((hentry k hk).trans hq) hk
    rw [hcalls _ (hnei hq), hleft] at hcall'
    cases hcall'
    cases hkey
  · intro hno k m hq hk
    rw [hentry k hk] at hq
    obtain ⟨call, hcall', hl | hkey⟩ := h.placed.owner k m hq
    · exact absurd (hl ▸ hcall') (hno _ ⟨k, m, hq, rfl⟩)
    · obtain ⟨m₀, hq₀, -, ha⟩ := h.slots.owns _ call k hcall' hkey
      rw [hq] at hq₀
      cases hq₀
      refine ⟨ha, (ht i hcall k m hq).resolve_left (by simp [ha]), call, ?_, hkey⟩
      rw [hcalls _ (hnei hq), hcall']

/-- **Which slots come back behind a reconnect.** The transport is replaced in any reachable
state, and other steps follow. Behind it all other requests are ended, with a consumer, and each
is freed by the time its consumer is done, exactly if no call left a request in front of it, and
each call that leaves one later drops its body with the lock free, and its END_REQUEST comes. -/
theorem reconnect_iff (h : Reconnects http maxReqPerCon i key evs s s₂ s₃) :
    (s₂.Clean key ∧ ∀ p, s.Has p → ¬ s₃.Consumes p → s₃.Freed p) ↔
      (∀ p, s.Has p → s.calls[p]? ≠ some .left) ∧ AllAnswered http evs s s₂ s₃ := by
  have hmax := maxReqPerCon.toNat_lt
  obtain ⟨evs₀, hruns⟩ := h.runs
  have hs := settled_run hruns
  have hs₂ := hs.step hmax h.step
  have hsettled : ∀ {evs t}, Run (Step http) s₂ evs t → Settled maxReqPerCon.toNat t := fun hrun =>
    hrun.inv hs₂ fun _ _ _ h hs => h.step hmax hs
  rw [clean_iff hs (told_run hruns) h.step]
  refine and_congr_right fun hno => ⟨fun hfreed => ?_, fun hall => ?_⟩
  · intro p pre ev post t t' call k hhas _ hpre hstep hpost hcall hkey hleft
    obtain ⟨eff, hnext⟩ := id hstep
    have ht := hsettled hpre
    obtain ⟨hlog, m, hq, hp, ha⟩ := leaves_entry ht.slots hcall hkey hnext hleft
    have hleft₃ := left_run hleft hpost
    have hdone : ¬ s₃.Consumes p := by
      rintro ⟨call', k', hcall', hkey'⟩
      rw [hleft₃] at hcall'
      cases hcall'
      cases hkey'
    have hend := (orphan_run hmax (ht.step hmax hstep).slots hleft hq hp hpost).mp
      (hfreed p hhas hdone)
    rw [ha, hlog] at hend
    exact hend
  · rintro p hhas hdone
    have hconsumes : s₂.Consumes p := by
      obtain ⟨k, m, hq, rfl⟩ := hhas
      obtain ⟨-, -, hentry, hnone, -⟩ := reconnected_kept h.step
      have hk : k ≠ key := by
        rintro rfl
        rw [hnone] at hq
        cases hq
      obtain ⟨-, -, call, hcall, hkey⟩ := (clean_iff hs (told_run hruns) h.step).mpr hno k m
        ((hentry k hk).trans hq) hk
      exact ⟨call, k, hcall, hkey⟩
    -- the step with which the call stops consuming its request
    obtain ⟨pre, ev, post, t, t', hevs, hpre, hstep, hpost, ⟨call, k, hcall, hkey⟩, hlost⟩ :=
      h.after.crossing (P := fun con => con.Consumes p) hconsumes hdone
    obtain ⟨eff, hnext⟩ := id hstep
    have ht := hsettled hpre
    have ht' := ht.step hmax hstep
    by_cases hleft : t'.calls[p]? = some .left
    · obtain ⟨hfree, hend⟩ :=
        hall p pre ev post t t' call k hhas hevs hpre hstep hpost hcall hkey hleft
      obtain ⟨hlog, m, hq, hp, ha⟩ := leaves_entry ht.slots hcall hkey hnext hleft
      exact (orphan_run hmax ht'.slots hleft hq hp hpost).mpr ⟨ha.mpr hfree, hlog ▸ hend⟩
    · have hspent : t'.Spent p :=
        Spent.step ⟨call, hcall, Forward.holdsPermit_of_key? hkey⟩ (next_stepped hnext)
      exact freed_run hmax ht' hspent (ht'.freed hspent hlost hleft) hpost

/-- A call waits for its response, and another one finds the connection dead; `evs` come in
between. -/
def foundDead (evs : List Event) : List Event :=
  [.acquire, .lock 0, .check 0 .pending 7 0, .head 0 .noBody, .respond 0 .pending 7] ++ evs ++
    [.acquire, .lock 1, .check 1 (.ready []) 8 1, .shutdown 1]

/-- The request of a call that waits is live behind the reconnect. -/
theorem reconnect_iff_live : ∃ s s₂, Reconnects (onlyBlock []) 2 1 1 [] s s₂ s₂ ∧
    s.Has 0 ∧ s₂.Clean 1 := by
  have hrun : ((replay (tick (onlyBlock [])) (connect 2) (foundDead [])).bind fun s =>
      (tick (onlyBlock []) s (.connect 1 true 1)).map fun _ =>
        (s.calls, (s.inner.inner.runningRequests.get? 0).map FCGIRequest.permit)) =
      some ([.exchanging 1 .done (some (.new 0)), .connecting], some 0) := by
    decide +kernel
  obtain ⟨s, hreplay, hrun⟩ := Option.bind_eq_some_iff.mp hrun
  obtain ⟨s₂, hstep, hs⟩ := Option.map_eq_some_iff.mp hrun
  simp only [Prod.mk.injEq] at hs
  obtain ⟨hcalls, hentry⟩ := hs
  obtain ⟨m, hq, hp⟩ := Option.map_eq_some_iff.mp hentry
  have h : Reconnects (onlyBlock []) 2 1 1 [] s s₂ s₂ :=
    ⟨⟨_, run_of_replay step_of_tick _ hreplay⟩, step_of_tick _ _ _ hstep, .nil⟩
  have hnone : ∀ p : ℕ, s.calls[p]? ≠ some Forward.left := by
    intro p hleft
    have := List.mem_of_getElem? hleft
    rw [hcalls] at this
    simp at this
  refine ⟨s, s₂, h, ⟨0, m, hq, hp⟩, ((reconnect_iff h).mpr ⟨fun p _ => hnone p, ?_⟩).1⟩
  intro p pre ev post t t' call k _ hevs
  exact absurd hevs (by simp)

/-- The body of the call that waits is dropped before the connection is found dead: behind the
reconnect its request is still there, and aborted. -/
theorem reconnect_keeps_aborted : ¬ ∀ http maxReqPerCon i key evs s s₂ s₃,
    Reconnects http maxReqPerCon i key evs s s₂ s₃ →
      s₂.Clean key ∧ ∀ p, s.Has p → ¬ s₃.Consumes p → s₃.Freed p := by
  intro h
  have hrun : ((replay (tick (onlyBlock [])) (connect 2) (foundDead [.cancel 0, .drop 0])).bind
      fun s => (tick (onlyBlock []) s (.connect 1 true 1)).map fun s₂ =>
        (s₂.inner.inner.runningRequests.get? 0).map FCGIRequest.aborted) = some (some true) := by
    decide +kernel
  obtain ⟨s, hreplay, hrun⟩ := Option.bind_eq_some_iff.mp hrun
  obtain ⟨s₂, hstep, hs⟩ := Option.map_eq_some_iff.mp hrun
  obtain ⟨m, hq, ha⟩ := Option.map_eq_some_iff.mp hs
  have hclean := (h (onlyBlock []) 2 1 1 [] s s₂ s₂
    ⟨⟨_, run_of_replay step_of_tick _ hreplay⟩, step_of_tick _ _ _ hstep, .nil⟩).1
  obtain ⟨hlive, -⟩ := hclean 0 m hq (by decide)
  rw [hlive] at ha
  cases ha

end Connection

end AsyncFcgi
