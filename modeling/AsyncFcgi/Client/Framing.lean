import AsyncFcgi.Client.Wire

/-!
# Record boundaries (`src/client/connection.rs`, `src/codec.rs`)

Header, content and padding of a record are written by loops of their own, with an await in each
turn. A call that is dropped there frees the lock, and nothing ends the record for it: what the
next call writes is taken for the rest of it.

* `boundary`: what a write makes of whole records.
* `framed_iff`: when the transport is at the end of a record whenever the lock is free.
-/

namespace AsyncFcgi

open Lib

namespace Wire

variable {http : Http} {A : Allocator} {req : ℕ → Head} {self self' : Wire} {ev : Event}

/-- If the lock is free, whole records were written to the transport. -/
def Framed (self : Wire) : Prop :=
  self.con.inner.waiters = none → ∃ rs, self.io.io.sent = WireRecord.encodeAll rs

/-- Of the records that a call is about to write, the transport takes the first ones as a whole
and nothing of the others. -/
def StopsBetween (A : Allocator) (req : ℕ → Head) (self : Wire) (ev : Event) : Prop :=
  ∀ wr, self.writing? A req ev = some wr → ∃ rs res k,
    FCGIWriter.Writes wr.op (WireRecord.encodeAll rs) res ∧
      self.taken wr = (WireRecord.encodeAll (rs.take k)).length

/-- Behind whole records, a call writes whole records or stops within one. -/
theorem boundary {wr : Writing} {rs : List WireRecord}
    {res : Except Fault (Except IoError (Connection.Event × ℕ))}
    {out : Outcome (Connection.Event × ℕ)} {io : FCGIWriter}
    (hwrites : FCGIWriter.Writes wr.op (WireRecord.encodeAll rs) res)
    (hout : self.io.perform wr.stop wr.op = .ok (out, io)) {base : List WireRecord}
    (hbase : self.io.io.sent = WireRecord.encodeAll base) :
    (∃ rs', io.io.sent = WireRecord.encodeAll rs') ↔
      ∃ k, self.taken wr = (WireRecord.encodeAll (rs.take k)).length := by
  obtain ⟨p, hp, hsent⟩ : ∃ p, p <+: WireRecord.encodeAll rs ∧
      io.io.sent = self.io.io.sent ++ p := by
    rcases (performed hwrites hout).2 with ⟨hsent, -⟩ | ⟨hpart, -⟩
    · exact ⟨_, List.prefix_refl _, hsent⟩
    · exact hpart
  rw [taken_eq hout hsent]
  constructor
  · rintro ⟨rs', hrs'⟩
    rw [hsent, hbase] at hrs'
    obtain ⟨more, rfl⟩ := WireRecord.encodeAll_prefix ⟨p, hrs'⟩
    rw [WireRecord.encodeAll_append, List.append_cancel_left_eq] at hrs'
    rw [hrs'] at hp ⊢
    exact ⟨more.length, by rw [← List.prefix_iff_eq_take.mp (WireRecord.encodeAll_prefix hp)]⟩
  · rintro ⟨k, hlen⟩
    have hfirst : WireRecord.encodeAll (rs.take k) <+: WireRecord.encodeAll rs := by
      refine ⟨WireRecord.encodeAll (rs.drop k), ?_⟩
      rw [← WireRecord.encodeAll_append, List.take_append_drop]
    refine ⟨base ++ rs.take k, ?_⟩
    rw [hsent, hbase, WireRecord.encodeAll_append,
      (List.prefix_of_prefix_length_le hp hfirst hlen.le).eq_of_length hlen]

/-- **The transport is at the end of a record whenever the lock is free, if and only if no call
stops within a record**, because a write fails or because its future is dropped: for all along a
run of any number of calls. -/
theorem framed_iff (http : Http) (A : Allocator) (req : ℕ → Head) (maxReqPerCon : UInt16)
    (answer : ℕ → WriteAnswer) (evs : List Event) (self : Wire) :
    Always (Step http A req) Framed (connect maxReqPerCon answer) evs self ↔
      EveryStep (Step http A req) (StopsBetween A req) (connect maxReqPerCon answer) evs self := by
  refine always_iff (I := fun w => ∃ rs, w.io.io.sent = WireRecord.encodeAll rs) ⟨[], rfl⟩
    (fun w hw _ => hw) (fun w ev w' hw hs hbetween => ?_) (fun w ev w' hw hs hno hframed => ?_)
  · cases next_stepped hs with
    | quiet => exact hw
    | skipped => exact hw
    | connected => exact ⟨[], rfl⟩
    | wrote hwr hout hcon =>
      obtain ⟨base, hbase⟩ := hw
      obtain ⟨rs, res, k, hwrites, htaken⟩ := hbetween _ hwr
      exact (boundary hwrites hout hbase).mpr ⟨k, htaken⟩
  · obtain ⟨base, hbase⟩ := hw
    refine hno fun wr hwr => ?_
    obtain ⟨rs, res, goal, htask, hwrites⟩ := task_of_writing hwr
    obtain ⟨out, io, con', hout, hcon, rfl⟩ := (next_stepped hs).of_writing hwr
    have hwhole : ∃ rs', io.io.sent = WireRecord.encodeAll rs' := by
      rcases (performed hwrites hout).2 with ⟨hsent, -⟩ | ⟨-, hstop, -⟩
      · exact ⟨base ++ rs, by rw [hsent, hbase, WireRecord.encodeAll_append]⟩
      · exact hframed (htask.ends hstop hcon).1
    obtain ⟨k, htaken⟩ := (boundary hwrites hout hbase).mp hwhole
    exact ⟨rs, res, k, hwrites, htaken⟩

/-- A call is dropped behind the first byte of its BEGIN_REQUEST: the next call writes to a
transport that is in the middle of a record. -/
theorem not_framed : ¬ ∀ http A req maxReqPerCon answer evs self,
    Runs http A req maxReqPerCon answer evs self → Framed self := by
  intro h
  have hrun : (replay (tick (onlyBlock []) zeroed fun _ => post) (connect 1 fun _ => .accepts 0)
      [.quiet .acquire, .quiet (.lock 0), .quiet (.check 0 .pending 7 0), .head 0 (some 1)]).map
        (fun w => (w.con.inner.waiters, w.io.io.sent)) = some (none, [1]) := by
    decide +kernel
  obtain ⟨self, hreplay, hself⟩ := Option.map_eq_some_iff.mp hrun
  simp only [Prod.mk.injEq] at hself
  obtain ⟨rs, hrs⟩ := h (onlyBlock []) zeroed (fun _ => post) 1 _ _ self
    (run_of_replay step_of_tick _ hreplay) hself.1
  rw [hself.2] at hrs
  cases rs with
  | nil => cases hrs
  | cons r rs =>
    have hlen := congrArg List.length hrs
    simp at hlen
    omega

end Wire

end AsyncFcgi
