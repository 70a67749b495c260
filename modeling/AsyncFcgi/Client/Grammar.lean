import AsyncFcgi.Client.Wire
import AsyncFcgi.Fastcgi.Request

/-!
# The records of each request (`src/client/connection.rs`)

While no call is dropped and every write is accepted, the records with an id are those of one
request after the other: an id goes to the next request when nobody uploads with it any more, and
by then the last record of its STDIN was written. A call that goes on uploading behind a reconnect
writes in front of the first BEGIN_REQUEST of its id.

* `Tidy.step`: the phase of each id, and who uploads with it.
* `wellOrdered_run`: the records with an id.
-/

namespace AsyncFcgi

open Lib WireRecord

namespace Wire

variable {http : Http} {A : Allocator} {req : ℕ → Head} {self self' : Wire} {ev : Event}
  {wr : Writing} {rs : List WireRecord}
  {res : Except Fault (Except IoError (Connection.Event × ℕ))} {goal : Option Forward}

/-- The caller drops no call, and a new transport accepts every write. -/
def Event.Undisturbed : Event → Prop
  | .quiet ev => ∀ j, ev ≠ .cancel j
  | .skip _ => True
  | .connect _ _ answer => (Transport.new answer).Accepting
  | .head _ stop | .chunk _ _ stop | .finish _ stop => stop = none

/-- Whole records were written, those with an id are in order, and they are within STDIN if and
only if a call uploads with the id, unless there is no BEGIN_REQUEST with it. -/
structure Tidy (wire : Wire) : Prop where
  accepting : wire.io.io.Accepting
  sent : ∃ rs, wire.io.io.sent = encodeAll rs ∧ ∀ id, ∃ phase,
    Phase.stray.run (ofId id rs) = some phase ∧ phase ≠ .params ∧
    (phase = .stdIn → ∃ j, wire.con.uploads? j = some id) ∧
    ∀ j, wire.con.uploads? j = some id → phase = .stdIn ∨ phase = .stray

theorem tidy_new {wire : Wire} (hacc : wire.io.io.Accepting) (hsent : wire.io.io.sent = []) :
    Tidy wire :=
  ⟨hacc, [], hsent, fun _ => ⟨.stray, rfl, nofun, nofun, fun _ _ => Or.inr rfl⟩⟩

/-- No other call works with the id. -/
theorem eq_of_rid {max : ℕ} {con : Connection} (h : Connection.Slots max con) {i j : ℕ}
    {call call' : Forward} {rid : UInt16} (hcall : con.calls[i]? = some call)
    (hcall' : con.calls[j]? = some call') (hrid : call.rid? = some rid)
    (hrid' : call'.rid? = some rid) : i = j := by
  obtain ⟨-, hkey⟩ := (h.open_ i call hcall).key? hrid
  obtain ⟨-, hkey'⟩ := (h.open_ j call' hcall').key? hrid'
  exact h.eq_of_key? hcall' hcall hkey' hkey

theorem rid_of_uploads {con : Connection} {j : ℕ} {rid : UInt16}
    (h : con.uploads? j = some rid) :
    ∃ call, con.calls[j]? = some call ∧ call.rid? = some rid ∧ call.uploads? = some rid := by
  obtain ⟨call, hcall, hup⟩ := Option.bind_eq_some_iff.mp h
  refine ⟨call, hcall, ?_, hup⟩
  cases call with
  | exchanging rid' upload resp => cases upload <;> first | exact hup | cases hup
  | _ => cases hup

/-- The records of a head, from a phase that is not within a request. -/
theorem run_head {rid : UInt16} {params tail : List WireRecord} {res : HeadResult} {phase : Phase}
    (hparams : ∀ r ∈ params, FCGIWriter.IsParams rid r) (htail : FCGIWriter.HeadTail rid res tail)
    (hphase : phase = .stray ∨ phase = .over) :
    phase.run (FCGIWriter.headRecord rid :: (params ++ tail)) =
      some (if res = .body then .stdIn else .over) := by
  have hbegin : phase.next (FCGIWriter.headRecord rid) = some .params := by
    rcases hphase with rfl | rfl <;> rfl
  rw [Phase.run_cons, hbegin, Option.bind_some, Phase.run_append,
    Phase.run_carries (fun _ => Phase.next_params) fun r hr => ⟨(hparams r hr).1.rtype, (hparams r hr).2⟩,
    Option.bind_some]
  cases res with
  | body =>
    obtain ⟨stop, rfl, hstop, hempty⟩ := htail
    simp [Phase.next, hstop.rtype, hempty]
  | noBody =>
    obtain ⟨stop, last, rfl, hstop, hempty, hlast, hlastEmpty⟩ := htail
    simp [Phase.next, hstop.rtype, hempty, hlast.rtype, hlastEmpty]
  | headerRejected =>
    obtain rfl : tail = _ := htail
    rfl
  | writeFailed => cases htail

/-- The records of a whole step of a call have one id, and lead from where the call was within its
request to where it is now. -/
theorem Task.run (h : Task req self ev wr rs res goal) {call' : Forward}
    (hgoal : goal = some call') :
    ∃ rid call, self.con.calls[wr.call]? = some call ∧ call.rid? = some rid ∧
      (call.uploads? = some rid ∨ call.uploads? = none) ∧
      (call'.uploads? = some rid ∨ call'.uploads? = none) ∧ (∀ r ∈ rs, r.requestId = rid) ∧
      ∀ phase : Phase, phase ≠ .params → (phase = .stdIn → call.uploads? = some rid) →
        (call.uploads? = some rid → phase = .stdIn ∨ phase = .stray) →
        ∃ phase', phase.run rs = some phase' ∧ phase' ≠ .params ∧
          (phase' = .stdIn → call'.uploads? = some rid) ∧
          (call'.uploads? = some rid → phase' = .stdIn ∨ phase' = .stray) := by
  cases h with
  | @head j stop rid op params tail hcall hparams htail =>
    cases hgoal
    have hids : ∀ r ∈ FCGIWriter.headRecord rid :: (params ++ tail), r.requestId = rid := by
      refine List.forall_mem_cons.mpr ⟨rfl, fun r hr => ?_⟩
      rcases List.mem_append.mp hr with hmem | hmem
      · exact (hparams r hmem).1.requestId
      · exact htail.requestId r hmem
    refine ⟨rid, _, hcall, rfl, Or.inr rfl, ?_, hids, fun phase hno hin _ => ?_⟩
    · cases (req j).result <;> simp [Forward.afterHead, Forward.uploads?]
    · have hphase : phase = .stray ∨ phase = .over := by
        cases phase with
        | params => exact absurd rfl hno
        | stdIn => cases hin rfl
        | _ => simp
      refine ⟨_, run_head hparams htail hphase, ?_⟩
      cases (req j).result <;> simp [Forward.afterHead, Forward.uploads?]
  | headFault => cases hgoal
  | @chunk j data stop rid resp op rs hcall hdata hrecs =>
    cases hgoal
    refine ⟨rid, _, hcall, rfl, Or.inl rfl, Or.inl rfl,
      fun r hr => (hrecs.ofStream r hr).requestId, fun phase hno hin hup => ?_⟩
    have hcarries : ∀ r ∈ rs, Carries .stdIn r := fun r hr =>
      ⟨(hrecs.ofStream r hr).rtype, hrecs.nonempty hdata r hr⟩
    refine ⟨phase, Phase.run_carries (fun r hr => ?_) hcarries, hno, fun _ => rfl, fun _ => hup rfl⟩
    rcases hup rfl with rfl | rfl
    · exact Phase.next_stdIn hr
    · exact Phase.next_stray hr.1 (by decide)
  | tooLong => cases hgoal
  | @short j stop rid resp op hcall =>
    cases hgoal
    refine ⟨rid, _, hcall, rfl, Or.inl rfl, Or.inr rfl, by simp [FCGIWriter.abortRecord],
      fun phase hno hin hup => ?_⟩
    rcases hup rfl with rfl | rfl
    · exact ⟨.over, rfl, by decide, fun hin => (by cases hin), fun hup => by cases hup⟩
    · exact ⟨.stray, rfl, by decide, fun hin => (by cases hin), fun hup => by cases hup⟩
  | @last j stop rid resp op last hcall hlast hempty =>
    cases hgoal
    refine ⟨rid, _, hcall, rfl, Or.inl rfl, Or.inr rfl, by simp [hlast.requestId],
      fun phase hno hin hup => ?_⟩
    rcases hup rfl with rfl | rfl
    · exact ⟨.over, by simp [Phase.next, hlast.rtype, hempty], by decide, fun hin => (by cases hin),
        fun hup => by cases hup⟩
    · exact ⟨.stray, by simp [Phase.next, hlast.rtype], by decide, fun hin => (by cases hin),
        fun hup => by cases hup⟩

/-- A step without a write. -/
theorem Tidy.same {con' : Connection} (h : Tidy self)
    (hup : ∀ j, con'.uploads? j = self.con.uploads? j) : Tidy { self with con := con' } := by
  obtain ⟨rs, hsent, hrs⟩ := h.sent
  refine ⟨h.accepting, rs, hsent, fun id => ?_⟩
  obtain ⟨phase, hphase, hno, hin, hback⟩ := hrs id
  refine ⟨phase, hphase, hno, fun hstdIn => ?_, fun j hj => hback j (hup j ▸ hj)⟩
  obtain ⟨j, hj⟩ := hin hstdIn
  exact ⟨j, (hup j).trans hj⟩

/-- A step that writes. -/
theorem Tidy.wrote {max : ℕ} (h : Tidy self) (hslots : Connection.Slots max self.con)
    (htask : Task req self ev wr rs res goal)
    (hwrites : FCGIWriter.Writes wr.op (encodeAll rs) res) (hstop : wr.stop = none)
    {out : Outcome (Connection.Event × ℕ)} {io : FCGIWriter}
    (hout : self.io.perform wr.stop wr.op = .ok (out, io)) {con' : Connection}
    (hcon : self.con.Step http (Writing.after wr (self.missing wr.call) out).1 con')
    (missing : ℕ) : Tidy (self.wrote ev wr con' io missing) := by
  obtain ⟨hsent, call', hgoal, hcalls⟩ := (htask.goes hwrites hout hcon).resolve_right
    fun ⟨_, _, hno⟩ => hno hstop h.accepting
  have hacc : io.io.Accepting := by
    rw [Transport.Accepting, (performed hwrites hout).1]
    exact h.accepting
  obtain ⟨rid, call, hcall, hrid, hfrom, hto, hids, hrun⟩ := htask.run hgoal
  obtain ⟨base, hbase, hphases⟩ := h.sent
  have hcur : self.con.uploads? wr.call = call.uploads? := by
    rw [Connection.uploads?, hcall]
    rfl
  have hnew : con'.uploads? wr.call = call'.uploads? := by
    rw [Connection.uploads?, hcalls, List.getElem?_set_self (List.getElem?_eq_some_iff.mp hcall).1]
    rfl
  have hother : ∀ j, j ≠ wr.call → con'.uploads? j = self.con.uploads? j := fun j hj => by
    rw [Connection.uploads?, Connection.uploads?, hcalls, List.getElem?_set_ne (Ne.symm hj)]
  -- nobody else uploads with the id
  have honly : ∀ j, self.con.uploads? j = some rid → j = wr.call := fun j hj => by
    obtain ⟨call₁, hcall₁, hrid₁, -⟩ := rid_of_uploads hj
    exact eq_of_rid hslots hcall₁ hcall hrid₁ hrid
  refine ⟨hacc, base ++ rs, ?_, fun id => ?_⟩
  · show io.io.sent = _
    rw [hsent, hbase, encodeAll_append]
  obtain ⟨phase, hphase, hno, hin, hback⟩ := hphases id
  rw [ofId_append, Phase.run_append, hphase, Option.bind_some]
  by_cases hid : rid = id
  · subst hid
    rw [ofId_eq_self hids]
    obtain ⟨phase', hrs, hno', hin', hback'⟩ := hrun phase hno
      (fun hstdIn => by
        obtain ⟨j, hj⟩ := hin hstdIn
        rwa [honly j hj, hcur] at hj)
      (fun hup => hback wr.call (hcur.trans hup))
    refine ⟨phase', hrs, hno', fun hstdIn => ⟨wr.call, hnew.trans (hin' hstdIn)⟩, fun j hj => ?_⟩
    by_cases hj' : j = wr.call
    · exact hback' (hnew ▸ hj' ▸ hj)
    · exact absurd (honly j ((hother j hj').symm.trans hj)) hj'
  · rw [ofId_eq_nil hids hid]
    have hsame : ∀ j, con'.uploads? j = some id ↔ self.con.uploads? j = some id := fun j => by
      by_cases hj : j = wr.call
      · rw [hj, hnew, hcur]
        rcases hfrom with hfrom | hfrom <;> rcases hto with hto | hto <;> simp [hfrom, hto, hid]
      · rw [hother j hj]
    refine ⟨phase, rfl, hno, fun hstdIn => ?_, fun j hj => hback j ((hsame j).mp hj)⟩
    obtain ⟨j, hj⟩ := hin hstdIn
    exact ⟨j, (hsame j).mpr hj⟩

/-- One step. -/
theorem Tidy.step {max : ℕ} (h : Tidy self) (hslots : Connection.Slots max self.con)
    (hev : ev.Undisturbed) (hs : self.Step http A req ev self') : Tidy self' := by
  cases next_stepped hs with
  | @quiet ev con' hquiet hcon =>
    obtain ⟨eff, hnext⟩ := hcon
    refine h.same (Connection.uploads_next hnext ?_ ?_ hev)
    · rintro j res rfl
      cases hquiet
    · rintro j res rfl
      cases hquiet
  | skipped => exact h
  | connected => exact tidy_new hev rfl
  | @wrote _ wr out io con' hwr hout hcon =>
    obtain ⟨rs, res, goal, htask, hwrites⟩ := task_of_writing hwr
    have hstop : wr.stop = none := by
      cases htask <;> exact hev
    exact h.wrote hslots htask hwrites hstop hout hcon _

/-- **The records of each request are in order.** While no call is dropped and no write fails, at
any moment of a run of any number of calls: the records with an id that were written to the
present transport are, from each BEGIN_REQUEST to the next, those of a whole request, and behind
the last BEGIN_REQUEST the beginning of these. -/
theorem wellOrdered_run {maxReqPerCon : UInt16} {answer : ℕ → WriteAnswer} {evs : List Event}
    {wire : Wire} (hrun : Runs http A req maxReqPerCon answer evs wire)
    (hacc : (Transport.new answer).Accepting) (hevs : ∀ ev ∈ evs, ev.Undisturbed)
    {rs : List WireRecord} (hrs : encodeAll rs <+: wire.io.io.sent) (id : UInt16) :
    WellOrdered (ofId id rs) := by
  have hinv : Connection.Settled maxReqPerCon.toNat wire.con ∧ Tidy wire := by
    clear hrs
    induction hrun with
    | nil => exact ⟨settled_connect _ _, tidy_new hacc rfl⟩
    | snoc _ hs ih =>
      obtain ⟨hsettled, htidy⟩ := ih (fun ev hev => hevs ev (List.mem_append_left _ hev))
      exact ⟨settled_step maxReqPerCon.toNat_lt hsettled hs,
        htidy.step hsettled.slots (hevs _ (by simp)) hs⟩
  obtain ⟨all, hsent, hphases⟩ := hinv.2.sent
  rw [hsent] at hrs
  obtain ⟨more, rfl⟩ := encodeAll_prefix hrs
  obtain ⟨phase, hphase, -⟩ := hphases id
  rw [ofId_append, Phase.run_append] at hphase
  obtain ⟨phase', hphase', -⟩ := Option.bind_eq_some_iff.mp hphase
  exact wellOrdered_of_run hphase'

/-- One request with a body, up to the end of its STDIN. -/
theorem wellOrdered_run_post : ∃ wire rs,
    Runs (onlyBlock []) zeroed (fun _ => post) 1 (fun _ => .accepts 0)
      [.quiet .acquire, .quiet (.lock 0), .quiet (.check 0 .pending 7 0), .head 0 none,
        .quiet (.uploadLock 0), .chunk 0 [65] none, .quiet (.uploadLock 0), .finish 0 none] wire ∧
      wire.io.io.sent = encodeAll rs ∧ WellOrdered (ofId 1 rs) := by
  have hcons : ((replay (Connection.tick (onlyBlock [])) (.connect 1)
      [.acquire, .lock 0, .check 0 .pending 7 0]).bind fun c =>
        (c.tick (onlyBlock []) (.head 0 post.result)).bind fun c =>
          (replay (Connection.tick (onlyBlock [])) c [.uploadLock 0]).bind fun c =>
            (c.tick (onlyBlock []) (.upload 0 .chunk)).bind fun c =>
              (replay (Connection.tick (onlyBlock [])) c [.uploadLock 0]).bind fun c =>
                c.tick (onlyBlock []) (.upload 0 .last)).isSome := by
    decide +kernel
  obtain ⟨c₆, hc⟩ := Option.isSome_iff_exists.mp hcons
  obtain ⟨c₁, h₁, hc⟩ := Option.bind_eq_some_iff.mp hc
  obtain ⟨c₂, h₂, hc⟩ := Option.bind_eq_some_iff.mp hc
  obtain ⟨c₃, h₃, hc⟩ := Option.bind_eq_some_iff.mp hc
  obtain ⟨c₄, h₄, hc⟩ := Option.bind_eq_some_iff.mp hc
  obtain ⟨c₅, h₅, h₆⟩ := Option.bind_eq_some_iff.mp hc
  have hacc : (Transport.new fun _ => .accepts 0).Accepting := fun _ => ⟨0, rfl⟩
  have htick := @Connection.step_of_tick (onlyBlock [])
  have hrun₁ := @quiet_run (onlyBlock []) zeroed (fun _ => post) (connect 1 fun _ => .accepts 0) _ c₁
    (run_of_replay htick _ h₁) (by decide)
  obtain ⟨rs₁, w₂, hs₂, hg₂⟩ := @head_goes (onlyBlock []) zeroed (fun _ => post)
    { connect 1 fun _ => .accepts 0 with con := c₁ } 0 hacc post_fits _ (htick _ _ _ h₂)
  obtain rfl := hg₂.con
  have hrun₃ := @quiet_run (onlyBlock []) zeroed (fun _ => post) w₂ _ c₃
    (run_of_replay htick _ h₃) (by decide)
  obtain ⟨rs₂, w₄, hs₄, -, -, hg₄⟩ := @chunk_goes (onlyBlock []) zeroed (fun _ => post)
    { w₂ with con := c₃ } 0 [65] hg₂.accepting nofun (by simp [hg₂.missing, post]) _
    (htick _ _ _ h₄)
  obtain rfl := hg₄.con
  have hrun₅ := @quiet_run (onlyBlock []) zeroed (fun _ => post) w₄ _ c₅
    (run_of_replay htick _ h₅) (by decide)
  obtain ⟨rs₃, w₆, hs₆, hg₆⟩ := @finish_goes (onlyBlock []) zeroed (fun _ => post)
    { w₄ with con := c₅ } 0 hg₄.accepting (by simp [hg₄.missing, hg₂.missing, post]) _
    (htick _ _ _ h₆)
  have hsent : w₆.io.io.sent = encodeAll (rs₁ ++ rs₂ ++ rs₃) := by
    rw [hg₆.sent, hg₄.sent, hg₂.sent, encodeAll_append, encodeAll_append]
    rfl
  have hrun : Runs (onlyBlock []) zeroed (fun _ => post) 1 (fun _ => .accepts 0) _ w₆ :=
    .snoc ((Run.snoc ((Run.snoc hrun₁ hs₂).append hrun₃) hs₄).append hrun₅) hs₆
  refine ⟨w₆, _, hrun, hsent, wellOrdered_run hrun hacc ?_ (by rw [hsent]) 1⟩
  simp [Event.Undisturbed]

end Wire

end AsyncFcgi
