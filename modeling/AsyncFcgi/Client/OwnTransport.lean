import AsyncFcgi.Client.Wire

/-!
# The transport a request was begun on (`src/client/connection.rs`)

`send_body` locks the connection for each chunk, and writes to the transport it finds there. If
another call connected again in between, this is not the transport its BEGIN_REQUEST was written
to.

* `home_step`: what each call wrote to the present transport.
* `homed_iff`: when every STDIN and ABORT_REQUEST is on the transport of its BEGIN_REQUEST.
-/

namespace AsyncFcgi

open Lib

namespace Wire

variable {http : Http} {A : Allocator} {req : ℕ → Head} {self self' : Wire} {ev : Event}
  {wr : Writing} {rs : List WireRecord}
  {res : Except Fault (Except IoError (Connection.Event × ℕ))} {goal : Option Forward}

/-- A STDIN or ABORT_REQUEST that a call wrote to the present transport is behind a BEGIN_REQUEST
with its id that the call wrote to it. A record counts from its header on. -/
def Homed (self : Wire) : Prop :=
  ∀ (j : ℕ) (pre : List WireRecord) (r : WireRecord),
    WireRecord.encodeAll pre ++ r.headerBytes <+: self.mine j →
    r.rtype = .stdIn ∨ r.rtype = .abortRequest →
    ∃ b ∈ pre, b.rtype = .beginRequest ∧ b.requestId = r.requestId

/-- A call that writes a part of its body, or the end of it, wrote the head of its request to the
present transport, unless this takes less than a header of the part. -/
def AtHome (A : Allocator) (req : ℕ → Head) (self : Wire) (ev : Event) : Prop :=
  ∀ wr, self.writing? A req ev = some wr →
    (∃ stop, ev = .head wr.call stop) ∨ wr.call ∈ self.begun ∨ self.taken wr < Header.headerLen

/-- A part of what a call writes to the transport it began on. -/
def BegunWith (b : Bytes) : Prop :=
  ∃ rid rest, b <+: WireRecord.encodeAll (FCGIWriter.headRecord rid :: rest) ∧
    ∀ r ∈ rest, r.requestId = rid

/-- What the call at `j` wrote to the present transport: nothing before the head of its request;
whole records while it uploads, if it began there; and else less than a header. -/
structure Home (wire : Wire) (j : ℕ) : Prop where
  fresh : wire.con.Unbegun j → wire.mine j = [] ∧ j ∉ wire.begun
  uploads : ∀ rid, wire.con.uploads? j = some rid → j ∈ wire.begun →
    ∃ rest, wire.mine j = WireRecord.encodeAll (FCGIWriter.headRecord rid :: rest) ∧
      ∀ r ∈ rest, r.requestId = rid
  away : ∀ rid, wire.con.uploads? j = some rid → j ∉ wire.begun → wire.mine j = []
  part : BegunWith (wire.mine j) ∨ (wire.mine j).length < Header.headerLen

theorem homed_of_home (h : ∀ j, Home self j) : Homed self := by
  intro j pre r hpre htype
  rcases (h j).part with ⟨rid, rest, hpart, hids⟩ | hshort
  · obtain ⟨x, hx, hxtype, hxid⟩ := WireRecord.header_prefix (hpre.trans hpart)
    cases pre with
    | nil =>
      obtain ⟨t, ht⟩ := hx
      cases ht
      rw [← hxtype] at htype
      rcases htype with htype | htype <;> cases htype
    | cons b pre =>
      obtain ⟨t, ht⟩ := hx
      simp only [List.cons_append, List.cons.injEq] at ht
      obtain ⟨rfl, ht⟩ := ht
      refine ⟨_, List.mem_cons_self, rfl, ?_⟩
      rw [← hxid, hids x (ht ▸ by simp)]
      rfl
  · have hlen := hpre.length_le
    rw [List.length_append, WireRecord.length_headerBytes] at hlen
    have : Header.headerLen = 8 := rfl
    omega

/-- Nothing was written to a new transport. -/
theorem home_new {wire : Wire} (hwritten : wire.written = []) (hbegun : wire.begun = []) (j : ℕ) :
    Home wire j := by
  have hmine : wire.mine j = [] := by rw [mine, hwritten]; rfl
  have hno : j ∉ wire.begun := by rw [hbegun]; exact List.not_mem_nil
  refine ⟨fun _ => ⟨hmine, hno⟩, fun _ _ hmem => absurd hmem hno, fun _ _ _ => hmine, Or.inr ?_⟩
  rw [hmine]
  exact Nat.zero_lt_succ 7

/-- A call that does not write. -/
theorem Home.other {j : ℕ} (h : Home self j)
    (hfresh : self'.con.Unbegun j → self.con.Unbegun j)
    (hup : ∀ rid, self'.con.uploads? j = some rid → self.con.uploads? j = some rid)
    (hmine : self'.mine j = self.mine j) (hbegun : j ∈ self'.begun ↔ j ∈ self.begun) :
    Home self' j := by
  refine ⟨fun hj => ?_, fun rid hrid hmem => ?_, fun rid hrid hmem => ?_, ?_⟩
  · rw [hmine, hbegun]
    exact h.fresh (hfresh hj)
  · rw [hmine]
    exact h.uploads rid (hup rid hrid) (hbegun.mp hmem)
  · rw [hmine]
    exact h.away rid (hup rid hrid) fun hmem' => hmem (hbegun.mpr hmem')
  · rw [hmine]
    exact h.part

/-- What a step that writes does to its call: it writes a part of the records, and uploads behind
it only if it wrote all of them, and at least one. -/
theorem Task.stepped (h : Task req self ev wr rs res goal)
    (hwrites : FCGIWriter.Writes wr.op (WireRecord.encodeAll rs) res)
    {out : Outcome (Connection.Event × ℕ)} {io : FCGIWriter}
    (hout : self.io.perform wr.stop wr.op = .ok (out, io)) {con' : Connection}
    (hcon : self.con.Step http (Writing.after wr (self.missing wr.call) out).1 con') :
    ∃ p call', p <+: WireRecord.encodeAll rs ∧ io.io.sent = self.io.io.sent ++ p ∧
      con'.calls = self.con.calls.set wr.call call' ∧ call'.Fresh = false ∧
      ∀ rid, call'.uploads? = some rid → p = WireRecord.encodeAll rs ∧ rs ≠ [] ∧
        (self.con.calls[wr.call]? = some (.sending rid) ∨
          ∃ resp, self.con.calls[wr.call]? = some (.exchanging rid .locked resp)) := by
  rcases h.goes hwrites hout hcon with ⟨hsent, call', hgoal, hcalls⟩ | ⟨⟨p, hp, hsent⟩, hstop, -⟩
  · refine ⟨_, call', List.prefix_refl _, hsent, hcalls, ?_, fun rid hrid => ⟨rfl, ?_⟩⟩
    · cases h with
      | head =>
        cases hgoal
        cases (req _).result <;> rfl
      | headFault => cases hgoal
      | tooLong => cases hgoal
      | _ =>
        cases hgoal
        rfl
    · cases h with
      | @head j stop rid' op params tail hcall =>
        cases hgoal
        have hid : rid' = rid := by
          cases hres : (req j).result <;> (rw [hres] at hrid; cases hrid)
          rfl
        exact ⟨nofun, Or.inl (hid ▸ hcall)⟩
      | headFault => cases hgoal
      | tooLong => cases hgoal
      | chunk hcall hdata hrecs =>
        cases hgoal
        cases hrid
        refine ⟨fun hnil => hdata ?_, Or.inr ⟨_, hcall⟩⟩
        rw [← hrecs.contents, hnil]
        rfl
      | short =>
        cases hgoal
        cases hrid
      | last =>
        cases hgoal
        cases hrid
  · rcases (h.ends hstop hcon).2 with ⟨hcalls, -⟩ | ⟨rid, resp, -, hcalls⟩
    · exact ⟨p, .left, hp, hsent, hcalls, rfl, nofun⟩
    · exact ⟨p, .failed rid resp, hp, hsent, hcalls, rfl, nofun⟩

/-- The call that writes. -/
theorem Home.wrote (h : Home self wr.call) (htask : Task req self ev wr rs res goal)
    (hwrites : FCGIWriter.Writes wr.op (WireRecord.encodeAll rs) res)
    (hhome : (∃ stop, ev = .head wr.call stop) ∨ wr.call ∈ self.begun ∨
      self.taken wr < Header.headerLen)
    {out : Outcome (Connection.Event × ℕ)} {io : FCGIWriter}
    (hout : self.io.perform wr.stop wr.op = .ok (out, io)) {con' : Connection}
    (hcon : self.con.Step http (Writing.after wr (self.missing wr.call) out).1 con')
    (missing : ℕ) : Home (self.wrote ev wr con' io missing) wr.call := by
  obtain ⟨p, call', hp, hsent, hcalls, hfresh, hup⟩ := htask.stepped hwrites hout hcon
  have hmine : (self.wrote ev wr con' io missing).mine wr.call = self.mine wr.call ++ p := by
    rw [mine_wrote hsent, if_pos rfl]
  have hcall' : con'.calls[wr.call]? = some call' := by
    have hlt : wr.call < self.con.calls.length := by
      rcases htask.cases with ⟨_, _, _, _, hcall, _⟩ | ⟨_, _, _, hcall, _⟩
      · exact (List.getElem?_eq_some_iff.mp hcall).1
      · exact (List.getElem?_eq_some_iff.mp hcall).1
    rw [hcalls, List.getElem?_set_self hlt]
  have hbegun : ¬ con'.Unbegun wr.call := by
    intro hno
    rw [hno call' hcall'] at hfresh
    cases hfresh
  replace hup : ∀ rid, con'.uploads? wr.call = some rid → _ := fun rid hrid =>
    hup rid (by rwa [Connection.uploads?, hcall'] at hrid)
  rcases htask.cases with ⟨stop, rid, rest, rfl, hcall, -, rfl, hids⟩ |
    ⟨hno, rid, resp, hcall, -, hids⟩
  · -- the head of its request
    obtain ⟨hnil, -⟩ := h.fresh fun call hcall₀ => by
      cases hcall.symm.trans hcall₀
      rfl
    rw [hnil, List.nil_append] at hmine
    refine ⟨fun hj => absurd hj hbegun, fun rid' hrid _ => ?_,
      fun _ _ hmem => absurd List.mem_cons_self hmem, Or.inl ⟨rid, rest, hmine ▸ hp, hids⟩⟩
    obtain ⟨hall, -, hfrom⟩ := hup rid' hrid
    obtain rfl : rid = rid' := by
      rcases hfrom with hcall₀ | ⟨resp, hcall₀⟩ <;> cases hcall.symm.trans hcall₀
      rfl
    exact ⟨rest, by rw [hmine, hall], hids⟩
  · -- a part of its body
    have hsame : (self.wrote ev wr con' io missing).begun = self.begun := by
      cases ev with
      | head j stop => exact absurd rfl (hno j stop)
      | _ => rfl
    have hcur : self.con.uploads? wr.call = some rid := by
      rw [Connection.uploads?, hcall]
      rfl
    have hfrom : ∀ rid', con'.uploads? wr.call = some rid' → rid' = rid := by
      intro rid' hrid
      rcases (hup rid' hrid).2.2 with hcall₀ | ⟨resp, hcall₀⟩ <;> cases hcall.symm.trans hcall₀
      rfl
    by_cases hin : wr.call ∈ self.begun
    · obtain ⟨rest, hmine₀, hrest⟩ := h.uploads rid hcur hin
      have hall : ∀ r ∈ rest ++ rs, r.requestId = rid := fun r hr =>
        (List.mem_append.mp hr).elim (hrest r) fun hmem => (hids r hmem).2
      rw [hmine₀] at hmine
      refine ⟨fun hj => absurd hj hbegun, fun rid' hrid _ => ⟨rest ++ rs, ?_, ?_⟩,
        fun _ _ hmem => absurd (hsame ▸ hin) hmem, Or.inl ⟨rid, rest ++ rs, ?_, hall⟩⟩
      · rw [hmine, (hup rid' hrid).1, hfrom rid' hrid, ← WireRecord.encodeAll_append,
          List.cons_append]
      · rw [hfrom rid' hrid]
        exact hall
      · rw [hmine, ← List.cons_append, WireRecord.encodeAll_append]
        exact (List.prefix_append_right_inj _).mpr hp
    · have hshort : p.length < Header.headerLen := by
        rw [← taken_eq hout hsent]
        refine (hhome.resolve_left ?_).resolve_left hin
        rintro ⟨stop, rfl⟩
        exact hno _ _ rfl
      rw [h.away rid hcur hin, List.nil_append] at hmine
      refine ⟨fun hj => absurd hj hbegun, fun _ _ hmem => absurd (hsame ▸ hmem) hin,
        fun rid' hrid _ => ?_, Or.inr (hmine ▸ hshort)⟩
      obtain ⟨hall, hne, -⟩ := hup rid' hrid
      cases rs with
      | nil => exact absurd rfl hne
      | cons r rs =>
        have hlen := congrArg List.length hall
        rw [WireRecord.encodeAll_cons, List.length_append, WireRecord.length_encode] at hlen
        have : Header.headerLen = 8 := rfl
        omega

/-- One step. -/
theorem home_step (h : ∀ j, Home self j) (hs : self.Step http A req ev self')
    (hhome : AtHome A req self ev) (j : ℕ) : Home self' j := by
  cases next_stepped hs with
  | @quiet ev con' hquiet hcon =>
    obtain ⟨eff, hnext⟩ := hcon
    have hhead : ∀ j res, ev ≠ .head j res := by
      rintro j res rfl
      cases hquiet
    exact (h j).other (fun hj => hj.back hnext)
      (fun rid hrid => Connection.uploads_back hnext hhead hrid) rfl Iff.rfl
  | skipped => exact h j
  | connected => exact home_new rfl rfl j
  | @wrote _ wr out io con' hwr hout hcon =>
    obtain ⟨rs, res, goal, htask, hwrites⟩ := task_of_writing hwr
    by_cases hj : j = wr.call
    · subst hj
      exact (h wr.call).wrote htask hwrites (hhome wr hwr) hout hcon _
    · obtain ⟨p, call', -, hsent, hcalls, -⟩ := htask.stepped hwrites hout hcon
      have hcall : con'.calls[j]? = self.con.calls[j]? := by
        rw [hcalls, List.getElem?_set_ne (Ne.symm hj)]
      refine (h j).other (fun hno call hc => hno call (hcall.trans hc)) (fun rid hrid => ?_) ?_ ?_
      · replace hrid : con'.calls[j]?.bind Forward.uploads? = some rid := hrid
        rwa [hcall] at hrid
      · rw [mine_wrote hsent, if_neg hj]
      · rcases htask.cases with ⟨stop, _, _, rfl, _⟩ | ⟨hno, _⟩
        · exact List.mem_cons.trans (or_iff_right hj)
        · cases ev with
          | head j stop => exact absurd rfl (hno j stop)
          | _ => rfl

/-- Away from its BEGIN_REQUEST, a header is one too many. -/
theorem not_homed (h : ∀ j, Home self j) (hs : self.Step http A req ev self')
    (haway : ¬ AtHome A req self ev) : ¬ Homed self' := by
  intro hhomed
  refine haway fun wr hwr => ?_
  obtain ⟨rs, res, goal, htask, hwrites⟩ := task_of_writing hwr
  obtain ⟨out, io, con', hout, hcon, rfl⟩ := (next_stepped hs).of_writing hwr
  rcases htask.cases with ⟨stop, _, _, rfl, _⟩ | ⟨-, rid, resp, hcall, -, hids⟩
  · exact Or.inl ⟨stop, rfl⟩
  refine Or.inr ?_
  by_contra hno
  rw [not_or, Nat.not_lt] at hno
  obtain ⟨hin, hlong⟩ := hno
  have hcur : self.con.uploads? wr.call = some rid := by
    rw [Connection.uploads?, hcall]
    rfl
  obtain ⟨p, call', hp, hsent, -⟩ := htask.stepped hwrites hout hcon
  rw [taken_eq hout hsent] at hlong
  have hmine : ∀ missing, (self.wrote ev wr con' io missing).mine wr.call = p := by
    intro missing
    rw [mine_wrote hsent, if_pos rfl, (h wr.call).away rid hcur hin, List.nil_append]
  cases rs with
  | nil =>
    rw [List.prefix_nil.mp hp] at hlong
    exact absurd hlong (by decide)
  | cons r rs =>
    rw [WireRecord.encodeAll_cons, WireRecord.encode, List.append_assoc] at hp
    have hheader : r.headerBytes <+: p :=
      List.prefix_of_prefix_length_le (List.prefix_append _ _) hp
        (by rw [WireRecord.length_headerBytes]; exact hlong)
    obtain ⟨b, hb, -⟩ := hhomed wr.call [] r (by rw [hmine]; exact hheader)
      (hids r List.mem_cons_self).1
    cases hb

/-- **Every STDIN and ABORT_REQUEST is written to the transport its request was begun on, if and
only if no call uploads behind another one's reconnect**, further than to a part of a header: all
along a run of any number of calls. -/
theorem homed_iff (http : Http) (A : Allocator) (req : ℕ → Head) (maxReqPerCon : UInt16)
    (answer : ℕ → WriteAnswer) (evs : List Event) (self : Wire) :
    Always (Step http A req) Homed (connect maxReqPerCon answer) evs self ↔
      EveryStep (Step http A req) (AtHome A req) (connect maxReqPerCon answer) evs self :=
  always_iff (I := fun wire => ∀ j, Home wire j) (home_new rfl rfl) (fun _ => homed_of_home)
    (fun _ _ _ h hs hhome => home_step h hs hhome) (fun _ _ _ h hs haway => not_homed h hs haway)

/-- A call is about to send its body when another one finds the transport dead and connects again:
its STDIN goes to the new transport, where nothing was begun with its id. -/
theorem chunk_away : ¬ ∀ http A req maxReqPerCon answer evs self,
    Runs http A req maxReqPerCon answer evs self → Homed self := by
  intro h
  have hcons : ((replay (Connection.tick (onlyBlock [])) (.connect 2)
      [.acquire, .lock 0, .check 0 .pending 7 0]).bind fun c =>
        (c.tick (onlyBlock []) (.head 0 post.result)).bind fun c =>
          (replay (Connection.tick (onlyBlock [])) c
              [.acquire, .lock 1, .check 1 (.ready []) 8 1, .shutdown 1]).bind fun c =>
            (c.tick (onlyBlock []) (.connect 1 true 1)).bind fun c =>
              (c.tick (onlyBlock []) (.head 1 post.result)).bind fun c =>
                (replay (Connection.tick (onlyBlock [])) c [.uploadLock 0]).bind fun c =>
                  c.tick (onlyBlock []) (.upload 0 .chunk)).isSome := by
    decide +kernel
  obtain ⟨c₇, hc⟩ := Option.isSome_iff_exists.mp hcons
  obtain ⟨c₁, h₁, hc⟩ := Option.bind_eq_some_iff.mp hc
  obtain ⟨c₂, h₂, hc⟩ := Option.bind_eq_some_iff.mp hc
  obtain ⟨c₃, h₃, hc⟩ := Option.bind_eq_some_iff.mp hc
  obtain ⟨c₄, h₄, hc⟩ := Option.bind_eq_some_iff.mp hc
  obtain ⟨c₅, h₅, hc⟩ := Option.bind_eq_some_iff.mp hc
  obtain ⟨c₆, h₆, h₇⟩ := Option.bind_eq_some_iff.mp hc
  have hacc : (Transport.new fun _ => .accepts 0).Accepting := fun _ => ⟨0, rfl⟩
  have htick := @Connection.step_of_tick (onlyBlock [])
  have hrun₁ := @quiet_run (onlyBlock []) zeroed (fun _ => post) (connect 2 fun _ => .accepts 0) _ c₁
    (run_of_replay htick _ h₁) (by decide)
  obtain ⟨rs₁, w₂, hs₂, hg₂⟩ := @head_goes (onlyBlock []) zeroed (fun _ => post)
    { connect 2 fun _ => .accepts 0 with con := c₁ } 0 hacc post_fits _ (htick _ _ _ h₂)
  obtain rfl := hg₂.con
  have hrun₃ := @quiet_run (onlyBlock []) zeroed (fun _ => post) w₂ _ c₃
    (run_of_replay htick _ h₃) (by decide)
  have hs₄ := @connect_step (onlyBlock []) zeroed (fun _ => post) { w₂ with con := c₃ } 1 1
    (fun _ => .accepts 0) _ (htick _ _ _ h₄)
  obtain ⟨rs₅, w₅, hs₅, hg₅⟩ := @head_goes (onlyBlock []) zeroed (fun _ => post)
    { w₂ with con := c₄, io := ⟨.new fun _ => .accepts 0⟩, written := [], begun := [] } 1 hacc
    post_fits _ (htick _ _ _ h₅)
  obtain rfl := hg₅.con
  have hrun₆ := @quiet_run (onlyBlock []) zeroed (fun _ => post) w₅ _ c₆
    (run_of_replay htick _ h₆) (by decide)
  obtain ⟨rs, w₇, hs₇, hne, hstdIn, hg₇⟩ := @chunk_goes (onlyBlock []) zeroed (fun _ => post)
    { w₅ with con := c₆ } 0 [65] hg₅.accepting nofun (by simp [hg₅.missing, hg₂.missing, post]) _
    (htick _ _ _ h₇)
  have hrun : Runs (onlyBlock []) zeroed (fun _ => post) 2 (fun _ => .accepts 0) _ w₇ :=
    .snoc ((Run.snoc (Run.snoc ((Run.snoc hrun₁ hs₂).append hrun₃) hs₄) hs₅).append hrun₆) hs₇
  have hmine : w₇.mine 0 = WireRecord.encodeAll rs := by
    rw [hg₇.mine, if_pos rfl]
    exact congrArg (· ++ _) (hg₅.mine 0)
  cases rs with
  | nil => exact hne rfl
  | cons r rs =>
    obtain ⟨b, hb, -⟩ := h _ _ _ _ _ _ _ hrun 0 [] r
      (by
        rw [hmine, WireRecord.encodeAll_cons, WireRecord.encode, List.append_assoc]
        exact List.prefix_append _ _)
      (Or.inl (hstdIn r List.mem_cons_self))
    cases hb

end Wire

end AsyncFcgi
