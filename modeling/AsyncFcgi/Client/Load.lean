import AsyncFcgi.Client.Delivery
import AsyncFcgi.Client.Ids
import AsyncFcgi.Client.Isolation

/-!
# How many requests an application has (`src/client/connection.rs`)

What bounds the requests on a connection is the semaphore, whose permits go with the entries of
the table. The application does not know of either: it has the BEGIN_REQUESTs on the transport,
and the END_REQUESTs it wrote.

* `Budget.step`: what the entries have to do with it.
* `load_run`: what the application counts.
-/

namespace AsyncFcgi

open Lib WireRecord

/-- The number of BEGIN_REQUESTs with an id. -/
def begunWith (id : UInt16) (rs : List WireRecord) : ℕ :=
  rs.countP fun r => r.rtype = .beginRequest ∧ r.requestId = id

/-- The record is an END_REQUEST with the id. -/
def Record.ends (id : UInt16) (rec : Record) : Bool :=
  match rec.body with
  | .endRequest _ => rec.getRequestId = id
  | _ => false

/-- The number of END_REQUESTs with an id. -/
def endedWith (id : UInt16) (recs : List Record) : ℕ := recs.countP (Record.ends id)

theorem ends_of_endOf {id : UInt16} {k : ℕ} {rec : Record} (hid : reqNo id = some k)
    (h : InnerConnection.EndOf k rec) : rec.ends id = true := by
  obtain ⟨hno, hend⟩ := h
  have heq : rec.getRequestId = id :=
    UInt16.toNat_inj.mp ((reqNo_eq_some.mp hno).trans (reqNo_eq_some.mp hid).symm)
  unfold Record.ends
  cases hb : rec.body with
  | endRequest b => simpa using heq
  | _ =>
    rw [hb] at hend
    exact hend.elim

namespace Connection

variable {http : Http} {max : ℕ} {self self' : Connection} {ev : Event} {eff : Effects}
  {id : UInt16} {b : ℕ}

/-- The calls that inserted a request with the id, and did not write its BEGIN_REQUEST yet. -/
def pendingWith (self : Connection) (id : UInt16) : ℕ :=
  self.calls.countP fun call => call = .sending id

/-- A request with the id is in the table, and did not end. -/
def OpenWith (self : Connection) (id : UInt16) : Prop :=
  ∃ k p, reqNo id = some k ∧ InnerConnection.Holds self.inner.inner.runningRequests k p

/-- Of `b` requests that were begun with the id, and those that are about to, all ended but one,
which is open. -/
def Budget (self : Connection) (b : ℕ) (id : UInt16) : Prop :=
  b + self.pendingWith id ≤ endedWith id self.log ∨
    b + self.pendingWith id ≤ endedWith id self.log + 1 ∧ self.OpenWith id

theorem endedWith_append (id : UInt16) {recs : List Record} (hlog : self'.log = self.log ++ recs) :
    endedWith id self'.log = endedWith id self.log + endedWith id recs := by
  rw [endedWith, hlog, List.countP_append, endedWith, endedWith]

theorem endedWith_pos {recs : List Record} (h : ∃ rec ∈ recs, rec.ends id = true) :
    0 < endedWith id recs :=
  List.countP_pos_iff.mpr h

/-- An open request stays open until its END_REQUEST. -/
theorem next_open (hs : Stepped self ev self' eff) (hkeep : ¬ self.Loses ev)
    (hopen : self.OpenWith id) : ∃ recs, self'.log = self.log ++ recs ∧
      ((∃ rec ∈ recs, rec.ends id = true) ∨ self'.OpenWith id) := by
  obtain ⟨k, p, hid, hholds⟩ := hopen
  obtain ⟨recs, hlog, hcases⟩ := hs.holds hkeep hholds
  refine ⟨recs, hlog, hcases.imp ?_ fun h => ⟨k, p, hid, h⟩⟩
  rintro ⟨rec, hrec, hend⟩
  exact ⟨rec, hrec, ends_of_endOf hid hend⟩

/-- The calls that are about to begin a request, when one goes on. -/
theorem countP_set_call (id : UInt16) {j : ℕ} {call : Forward} (hcall : self.calls[j]? = some call)
    (call' : Forward) :
    (self.calls.set j call').countP (fun call => call = .sending id) +
        (if call = .sending id then 1 else 0) =
      self.pendingWith id + if call' = .sending id then 1 else 0 := by
  obtain ⟨hlt, hget⟩ := List.getElem?_eq_some_iff.mp hcall
  have hpos : call = .sending id → 0 < self.pendingWith id := fun h =>
    List.countP_pos_iff.mpr ⟨call, List.mem_of_getElem? hcall, by simpa using h⟩
  rw [List.countP_set hlt, hget, pendingWith]
  simp only [decide_eq_true_eq]
  split
  · have := hpos ‹_›
    rw [pendingWith] at this
    omega
  · omega

/-- The request that was inserted at `key` is open. -/
theorem openWith_inserted (hmax : max < 2 ^ 16) (hslots : Slots max self) {key : ℕ} {p : Permit}
    (hq : self.inner.inner.runningRequests.get? key = some (.new p)) :
    reqNo (ridOf key) = some key ∧ self.OpenWith (ridOf key) := by
  have hlt := hslots.lt hq
  have hid : reqNo (ridOf key) = some key := reqNo_eq_some.mpr (toNat_ridOf (by omega))
  exact ⟨hid, key, p, hid, _, hq, rfl, rfl⟩

/-- Where a request is inserted with the id, none is open. -/
def Replaces (self self' : Connection) (id : UInt16) : Prop :=
  self'.OpenWith id ∧ (self.OpenWith id → ∃ recs, self'.log = self.log ++ recs ∧
    ∃ rec ∈ recs, rec.ends id = true)

/-- `check_alive`, if the call goes on to its BEGIN_REQUEST. -/
theorem nextCheck_replaces (hmax : max < 2 ^ 16) (hslots' : Slots max self') {j key : ℕ}
    {sock : SocketRead} {cx : Waker} (hlt : j < self.calls.length)
    (hcheck : self.nextCheck j sock cx key = .ok (some (self', eff)))
    (hcl : ¬ self.inner.inner.Closes sock cx) (hsends : self'.calls[j]? = some (.sending id)) :
    self.Replaces self' id := by
  unfold nextCheck at hcheck
  obtain ⟨⟨res, inner, eff₁⟩, hresp, hcheck⟩ := bind_eq_ok.mp hcheck
  have hset : ∀ {call : Forward}, (self.calls.set j call)[j]? = some call :=
    List.getElem?_set_self hlt
  simp only at hcheck
  split at hcheck
  · cases hcheck
    cases hset.symm.trans hsends
  · cases hcheck
    cases hset.symm.trans hsends
  · split at hcheck
    · rename_i hcan
      cases hcheck
      cases hset.symm.trans hsends
      have hq : (inner.runningRequests.insertAt key (.new j)).get? key = some (.new j) := by
        rw [Slab.get?_insertAt hcan, if_pos rfl]
      obtain ⟨hid, hopen'⟩ := openWith_inserted hmax hslots' hq
      refine ⟨hopen', fun hopen => ⟨_, rfl, ?_⟩⟩
      obtain ⟨k, p, hid', hholds⟩ := hopen
      obtain rfl : k = key := Option.some.inj (hid'.symm.trans hid)
      -- the key was in use, and is not behind the records
      by_contra hno
      obtain ⟨m, hm, -⟩ := hholds.pollResp hresp hcl fun rec hrec hend =>
        hno ⟨rec, hrec, ends_of_endOf hid hend⟩
      rw [Slab.get?_of_canInsert hcan] at hm
      cases hm
    · cases hcheck

/-- A call that connected again. -/
theorem reconnect_replaces (hmax : max < 2 ^ 16) {j key : ℕ} (hlt : j < self.calls.length)
    (hcan : self.inner.inner.runningRequests.CanInsert key) {con : Connection}
    (hcon : con = { self with reader := none }.move j (.sending (ridOf key))
      { self.inner with
        inner := insert { self.inner.inner with io := .new, fcgiParser := .new } key j } .none)
    (hslots' : Slots max con) (hsends : con.calls[j]? = some (.sending id)) :
    self.Replaces con id := by
  subst hcon
  have hset : (self.calls.set j (.sending (ridOf key)))[j]? = some (.sending (ridOf key)) :=
    List.getElem?_set_self hlt
  cases hset.symm.trans hsends
  have hq : (self.inner.inner.runningRequests.insertAt key (.new j)).get? key =
      some (.new j) := by
    rw [Slab.get?_insertAt hcan, if_pos rfl]
  obtain ⟨hid, hopen'⟩ := openWith_inserted hmax hslots' hq
  refine ⟨hopen', fun hopen => ?_⟩
  obtain ⟨k, p, hid', m, hm, -⟩ := hopen
  obtain rfl : k = key := Option.some.inj (hid'.symm.trans hid)
  rw [Slab.get?_of_canInsert hcan] at hm
  cases hm

/-- Only an inserted request leads to a BEGIN_REQUEST. -/
theorem turn_sends {call call' : Forward} (hturn : Forward.Turn ev call call')
    (hsends : call' = .sending id) : call ≠ .sending id ∧
      ((∃ j sock cx key, ev = .check j sock cx key) ∨ ∃ j key, ev = .connect j true key) := by
  cases hturn with
  | alive => exact ⟨nofun, Or.inl ⟨_, _, _, _, rfl⟩⟩
  | reconnected => exact ⟨nofun, Or.inr ⟨_, _, rfl⟩⟩
  | @head _ _ res => cases res <;> cases hsends
  | @upload _ _ _ res => cases res <;> cases hsends
  | _ => cases hsends

/-- A step inserts a request with the id, or the calls that are about to begin one do not get
more. -/
theorem next_pending (id : UInt16) (hmax : max < 2 ^ 16) (hslots : Slots max self)
    (hnext : self.next http ev = .ok (some (self', eff))) (hkeep : ¬ self.Loses ev) :
    self'.pendingWith id ≤ self.pendingWith id ∨
      (self'.pendingWith id = self.pendingWith id + 1 ∧ self.Replaces self' id) := by
  have hslots' := hslots.step hmax (next_stepped hnext)
  rcases next_turn hnext with ⟨rfl, hcalls⟩ | ⟨j, call, call', hev, hcall, hcalls, hturn⟩
  · left
    simp [pendingWith, hcalls]
  have hlt := (List.getElem?_eq_some_iff.mp hcall).1
  have hcount := countP_set_call id hcall call'
  rw [← hcalls] at hcount
  change self'.pendingWith id + _ = _ at hcount
  by_cases hins : call' = .sending id
  · right
    obtain ⟨hne, hevs⟩ := turn_sends hturn hins
    rw [if_neg hne, if_pos hins] at hcount
    have hsends : self'.calls[j]? = some (.sending id) := by
      rw [hcalls, List.getElem?_set_self hlt, hins]
    refine ⟨hcount, ?_⟩
    rcases hevs with ⟨i, sock, cx, key, rfl⟩ | ⟨i, key, rfl⟩
    · cases next_branch hnext with
      | check _ hcheck =>
        obtain rfl := Option.some.inj hev
        refine nextCheck_replaces hmax hslots' hlt hcheck (fun hcl => ?_) hsends
        exact hkeep (Or.inr ⟨_, _, Or.inl ⟨_, _, rfl⟩, hcl⟩)
    · cases next_branch hnext with
      | reconnect _ hcan =>
        obtain rfl := Option.some.inj hev
        exact reconnect_replaces hmax hlt hcan rfl hslots' hsends
  · left
    rw [if_neg hins] at hcount
    omega

/-- **One step.** -/
theorem Budget.step (hmax : max < 2 ^ 16) (hslots : Slots max self)
    (hnext : self.next http ev = .ok (some (self', eff))) (hkeep : ¬ self.Loses ev)
    (h : self.Budget b id) : self'.Budget b id := by
  have hstep := next_stepped hnext
  obtain ⟨⟨recs, hlog⟩, -⟩ := hstep.grows
  have hended := endedWith_append id hlog
  have hmore : (∃ recs', self'.log = self.log ++ recs' ∧ ∃ rec ∈ recs', rec.ends id = true) →
      0 < endedWith id recs := by
    rintro ⟨recs', hlog', hend⟩
    exact endedWith_pos (List.append_cancel_left (hlog'.symm.trans hlog) ▸ hend)
  unfold Budget at h ⊢
  rcases next_pending id hmax hslots hnext hkeep with hle | ⟨heq, hopen', hreplaces⟩
  · rcases h with hle' | ⟨hle', hopen⟩
    · exact Or.inl (by omega)
    · obtain ⟨recs', hlog', hend | hopen'⟩ := next_open hstep hkeep hopen
      · have := hmore ⟨recs', hlog', hend⟩
        exact Or.inl (by omega)
      · exact Or.inr ⟨by omega, hopen'⟩
  · refine Or.inr ⟨?_, hopen'⟩
    rcases h with hle' | ⟨hle', hopen⟩
    · omega
    · have := hmore (hreplaces hopen)
      omega

/-- A call goes on that is not about to begin a request then; if it was, that is begun. -/
theorem Budget.goes {j : ℕ} {call call' : Forward} (hcall : self.calls[j]? = some call)
    (hcall' : ∀ id', call' ≠ .sending id') (hcalls : self'.calls = self.calls.set j call')
    (hlog : self'.log = self.log)
    (hrequests : self'.inner.inner.runningRequests = self.inner.inner.runningRequests)
    (h : self.Budget b id) : self'.Budget (b + if call = .sending id then 1 else 0) id := by
  have hcount := countP_set_call id hcall call'
  rw [← hcalls, if_neg (hcall' id)] at hcount
  change self'.pendingWith id + _ = _ at hcount
  unfold Budget OpenWith at h ⊢
  rw [hlog, hrequests]
  exact h.imp (fun hle => by omega) fun ⟨hle, hopen⟩ => ⟨by omega, hopen⟩

/-- The ids whose requests did not all end. -/
theorem Budget.length_le (hslots : Slots max self) {begun : UInt16 → ℕ}
    (h : ∀ id, self.Budget (begun id) id) {ids : List UInt16} (hnodup : ids.Nodup)
    (hids : ∀ id ∈ ids, endedWith id self.log < begun id) : ids.length ≤ max := by
  have hopen : ∀ id ∈ ids, ∃ k m, reqNo id = some k ∧
      self.inner.inner.runningRequests.get? k = some m := by
    intro id hid
    rcases h id with hle | ⟨-, k, p, hno, m, hm, -⟩
    · have := hids id hid
      omega
    · exact ⟨k, m, hno, hm⟩
  have hkeys : (ids.map fun id => id.toNat - 1).Nodup := by
    refine List.Nodup.map_on (fun a ha b hb hab => ?_) hnodup
    obtain ⟨k, -, hk, -⟩ := hopen a ha
    obtain ⟨k', -, hk', -⟩ := hopen b hb
    have := reqNo_eq_some.mp hk
    have := reqNo_eq_some.mp hk'
    exact UInt16.toNat_inj.mp (by omega)
  have hle := Slab.length_le_size (s := self.inner.inner.runningRequests) _ hkeys fun k hk => by
    obtain ⟨id, hid, rfl⟩ := List.mem_map.mp hk
    obtain ⟨k, m, hno, hm⟩ := hopen id hid
    have := reqNo_eq_some.mp hno
    exact ⟨m, by rwa [show id.toNat - 1 = k by omega]⟩
  rw [List.length_map] at hle
  have := hslots.count
  omega

end Connection

namespace Wire

variable {http : Http} {A : Allocator} {req : ℕ → Head} {self self' : Wire} {ev : Event}
  {evs : List Event} {max : ℕ}

/-- The transport is lost, or replaced. -/
def Loses (self : Wire) : Event → Prop
  | .quiet ev => self.con.Loses ev
  | .connect _ _ _ => True
  | _ => False

/-- A step of a call that is not dropped, on a transport that is not lost. -/
def KeepStep (http : Http) (A : Allocator) (req : ℕ → Head) (self : Wire) (ev : Event)
    (self' : Wire) : Prop :=
  self.Step http A req ev self' ∧ ev.Undisturbed ∧ ¬ self.Loses ev

/-- What was sent, and what it leaves for each id. -/
structure Loaded (max : ℕ) (wire : Wire) (rs : List WireRecord) : Prop where
  settled : Connection.Settled max wire.con
  accepting : wire.io.io.Accepting
  sent : wire.io.io.sent = encodeAll rs
  budget : ∀ id, wire.con.Budget (begunWith id rs) id

theorem begunWith_append (id : UInt16) (rs rs' : List WireRecord) :
    begunWith id (rs ++ rs') = begunWith id rs + begunWith id rs' :=
  List.countP_append

theorem begunWith_zero {id : UInt16} {rs : List WireRecord}
    (h : ∀ r ∈ rs, r.rtype ≠ .beginRequest) : begunWith id rs = 0 :=
  List.countP_eq_zero.mpr fun r hr => by simp [h r hr]

/-- Records that a call writes. -/
theorem Loaded.advances {rs rs' : List WireRecord} (hmax : max < 2 ^ 16) (h : Loaded max self rs)
    (hs : self.Step http A req ev self') {j : ℕ} {call call' : Forward} {missing' : ℕ}
    {cev : Connection.Event} (hcall : self.con.calls[j]? = some call)
    (hcall' : ∀ id, call' ≠ .sending id) (hadv : self.Advances http cev j rs' call' missing' self')
    (hbegun : ∀ id, begunWith id rs' = if call = .sending id then 1 else 0) :
    Loaded max self' (rs ++ rs') where
  settled := settled_step hmax h.settled hs
  accepting := hadv.accepting
  sent := by rw [hadv.sent, h.sent, encodeAll_append]
  budget id := by
    rw [begunWith_append, hbegun]
    exact (h.budget id).goes hcall hcall' hadv.calls hadv.log hadv.requests

theorem Loaded.step {rs : List WireRecord} (hmax : max < 2 ^ 16) (h : Loaded max self rs)
    (hk : KeepStep http A req self ev self') : ∃ rs, Loaded max self' rs := by
  obtain ⟨hs, hev, hkeep⟩ := hk
  have hsettled := settled_step hmax h.settled hs
  cases next_proceeds hs h.accepting hev with
  | quiet _ _ hcon =>
    obtain ⟨eff, hnext⟩ := hcon
    exact ⟨rs, hsettled, h.accepting, h.sent, fun id =>
      (h.budget id).step hmax h.settled.slots hnext hkeep⟩
  | skipped => exact ⟨rs, h⟩
  | connected => exact absurd trivial hkeep
  | @head j _ rid params tail _ hcall hparams htail _ _ hadv =>
    refine ⟨_, h.advances hmax hs hcall (fun id => ?_) hadv fun id => ?_⟩
    · intro hc
      cases hres : (req j).result <;> rw [hres] at hc <;> cases hc
    · have hrest : begunWith id (params ++ tail) = 0 := by
        refine begunWith_zero fun r hr => ?_
        rcases List.mem_append.mp hr with hr | hr
        · simp [(hparams r hr).1.rtype]
        · exact htail.ne_begin r hr
      have hhead : begunWith id [FCGIWriter.headRecord rid] = if rid = id then 1 else 0 := by
        simp [begunWith, FCGIWriter.headRecord, FCGIWriter.beginRecord]
      rw [← List.singleton_append, begunWith_append, hrest, hhead]
      simp
  | chunk hcall _ _ hrecs hadv =>
    refine ⟨_, h.advances hmax hs hcall (fun _ hc => by cases hc) hadv fun id => ?_⟩
    rw [if_neg fun hc => by cases hc]
    exact begunWith_zero fun r hr => by simp [(hrecs.ofStream r hr).rtype]
  | short hcall _ hadv =>
    refine ⟨_, h.advances hmax hs hcall (fun _ hc => by cases hc) hadv fun id => ?_⟩
    rw [if_neg fun hc => by cases hc]
    exact begunWith_zero (by simp [FCGIWriter.abortRecord])
  | last hcall _ hlast _ hadv =>
    refine ⟨_, h.advances hmax hs hcall (fun _ hc => by cases hc) hadv fun id => ?_⟩
    rw [if_neg fun hc => by cases hc]
    exact begunWith_zero (by simp [hlast.rtype])

/-- The runs on one transport, in which no call is dropped and no write fails. -/
theorem loaded_run {maxReqPerCon : UInt16} {answer : ℕ → WriteAnswer} {wire : Wire}
    (hrun : Run (KeepStep http A req) (connect maxReqPerCon answer) evs wire)
    (hacc : (Transport.new answer).Accepting) : ∃ rs, Loaded maxReqPerCon.toNat wire rs := by
  refine hrun.inv (I := fun wire => ∃ rs, Loaded maxReqPerCon.toNat wire rs) ⟨[], ?_⟩
    fun _ _ _ ⟨rs, h⟩ hs => h.step maxReqPerCon.toNat_lt hs
  exact ⟨settled_connect _ _, hacc, rfl, fun id => Or.inl (Nat.zero_le _)⟩

/-- **The application never has more requests than it was said to take.** At any moment of a run
of any number of calls on one transport, in which no call is dropped and no write fails, the bytes
sent are whole records. With each id at most one BEGIN_REQUEST was sent more than END_REQUESTs
came, and there are at most `max_req_per_con` ids with which one was. -/
theorem load_run {maxReqPerCon : UInt16} {answer : ℕ → WriteAnswer} {wire : Wire}
    (hrun : Run (KeepStep http A req) (connect maxReqPerCon answer) evs wire)
    (hacc : (Transport.new answer).Accepting) :
    ∃ rs, wire.io.io.sent = encodeAll rs ∧
      (∀ id, begunWith id rs ≤ endedWith id wire.con.log + 1) ∧
      ∀ ids : List UInt16, ids.Nodup →
        (∀ id ∈ ids, endedWith id wire.con.log < begunWith id rs) →
        ids.length ≤ maxReqPerCon.toNat := by
  obtain ⟨rs, h⟩ := loaded_run hrun hacc
  refine ⟨rs, h.sent, fun id => ?_, fun ids hnodup hids =>
    Connection.Budget.length_le h.settled.slots h.budget hnodup hids⟩
  rcases h.budget id with hle | ⟨hle, -⟩ <;> omega

/-- A step of the connection between the writes. -/
theorem keepStep_quiet {ev : Connection.Event} {con con' : Connection} (hcon : self.con = con)
    (htick : con.tick http ev = some con') (hquiet : ev.Quiet = true)
    (hcancel : ∀ j, ev ≠ .cancel j) (hkeep : ¬ con.Loses ev) :
    KeepStep http A req self (.quiet ev) { self with con := con' } := by
  subst hcon
  obtain ⟨eff, hnext⟩ := Connection.step_of_tick _ _ _ htick
  refine ⟨?_, hcancel, hkeep⟩
  simp only [Step, next, hquiet, if_true, hnext, ok_bind]

/-- One call that begins a request. -/
theorem load_run_post : ∃ wire rs,
    Run (KeepStep (onlyBlock []) zeroed fun _ => post) (connect 1 fun _ => .accepts 0)
      [.quiet .acquire, .quiet (.lock 0), .quiet (.check 0 .pending 7 0), .head 0 none] wire ∧
    0 ∈ wire.begun ∧ wire.io.io.sent = encodeAll rs ∧
      (∀ id, begunWith id rs ≤ endedWith id wire.con.log + 1) ∧
      ∀ ids : List UInt16, ids.Nodup →
        (∀ id ∈ ids, endedWith id wire.con.log < begunWith id rs) → ids.length ≤ 1 := by
  have hcomp : ((Connection.tick (onlyBlock []) (.connect 1) .acquire).bind fun c₁ =>
      (c₁.tick (onlyBlock []) (.lock 0)).bind fun c₂ =>
      (c₂.tick (onlyBlock []) (.check 0 .pending 7 0)).bind fun c₃ =>
      (c₃.tick (onlyBlock []) (.head 0 post.result)).map fun _ =>
        decide (¬ c₂.inner.inner.Closes .pending 7)) = some true := by
    decide +kernel
  obtain ⟨c₁, h₁, hcomp⟩ := Option.bind_eq_some_iff.mp hcomp
  obtain ⟨c₂, h₂, hcomp⟩ := Option.bind_eq_some_iff.mp hcomp
  obtain ⟨c₃, h₃, hcomp⟩ := Option.bind_eq_some_iff.mp hcomp
  obtain ⟨c₄, h₄, hcomp⟩ := Option.map_eq_some_iff.mp hcomp
  have hopen : ¬ c₂.inner.inner.Closes .pending 7 := of_decide_eq_true hcomp
  have hacc : (Transport.new fun _ => .accepts 0).Accepting := fun _ => ⟨0, rfl⟩
  obtain ⟨rs, wire, hs, hgoes⟩ := @head_goes (onlyBlock []) zeroed (fun _ => post)
    { connect 1 fun _ => .accepts 0 with con := c₃ } 0 hacc post_fits _
    (Connection.step_of_tick _ _ _ h₄)
  have hbegun : 0 ∈ wire.begun := by
    cases next_proceeds hs hacc rfl with
    | head _ _ _ _ _ _ hbegun => exact hbegun ▸ List.mem_cons_self
  have hrun : Run (KeepStep (onlyBlock []) zeroed fun _ => post) (connect 1 fun _ => .accepts 0)
      ([.quiet .acquire] ++ [.quiet (.lock 0)] ++ [.quiet (.check 0 .pending 7 0)] ++
        [.head 0 none]) wire :=
    .snoc (.snoc (.snoc (.snoc .nil
      (keepStep_quiet rfl h₁ rfl nofun (Connection.not_loses rfl nofun nofun)))
      (keepStep_quiet rfl h₂ rfl nofun (Connection.not_loses rfl nofun nofun)))
      (keepStep_quiet rfl h₃ rfl nofun (Connection.not_loses_check hopen)))
      ⟨hs, rfl, id⟩
  obtain ⟨rs, hsent, hone, hall⟩ := load_run hrun hacc
  exact ⟨wire, rs, hrun, hbegun, hsent, hone, hall⟩

end Wire

end AsyncFcgi
