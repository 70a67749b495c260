import AsyncFcgi.Client.SendHead
import AsyncFcgi.Client.Lock
import AsyncFcgi.Client.Turn

/-!
# What the calls of `forward` write (`src/client/connection.rs`)

`Connection` together with the writing side of its transport. The steps that write are the head
of a request, a chunk of its body and the end of its body; all of them have the lock. The caller
can drop the call at every write, and the transport can fail in it. Either way the call stops
there, with a part of its bytes sent, and the lock is free.

* `Wire.next`: the state after an event, if the event can happen.
* `Wire.next_stepped`: what a step can do.
* `Wire.task_of_writing`: the records a call is about to write.
-/

namespace AsyncFcgi

open Lib

/-! ## Calls that are dropped -/

/-- How a call ends that writes. -/
inductive Outcome (α : Type)
  | done (a : α)
  | failed (e : IoError)
  | dropped
  deriving DecidableEq, Repr

def Outcome.ofResult {α : Type} : Except IoError α → Outcome α
  | .ok a => .done a
  | .error e => .failed e

namespace FCGIWriter

variable {α : Type}

/-- The transport for a call that does not live longer than `n` more writes. -/
def until_ (self : FCGIWriter) (n : ℕ) : FCGIWriter where
  io :=
    { self.io with
      answer := fun k =>
        if k < self.io.writes + n then self.io.answer k else .fails ⟨.other, "dropped"⟩ }

/-- A call that is dropped at the write behind `n` more if `stop` is `some n`, and if it comes
to it. -/
def perform (self : FCGIWriter) (stop : Option ℕ)
    (op : FCGIWriter → Except Fault (Except IoError α × FCGIWriter)) :
    Except Fault (Outcome α × FCGIWriter) :=
  match stop with
  | none => do
    let (r, self') ← op self
    .ok (.ofResult r, self')
  | some n => do
    let (r, self') ← op (self.until_ n)
    let out :=
      match r with
      | .ok a => .done a
      | .error e => if self.io.writes + n < self'.io.writes then .dropped else .failed e
    .ok (out, { io := { self'.io with answer := self.io.answer } })

end FCGIWriter

/-! ## The model -/

/-- A connection and the writing side of its transport; `missing` is what `send_body` still
expects of the body of each call. The last two fields are history: what the calls wrote to the
present transport, in their order, and the calls that wrote the head of their request to it. -/
structure Wire where
  con : Connection
  io : FCGIWriter
  missing : ℕ → ℕ
  written : List (ℕ × Bytes)
  begun : List ℕ

/-- A step that writes: the call, when it is dropped, what it writes and what it does then, and
what it does if the transport fails. -/
structure Writing where
  call : ℕ
  stop : Option ℕ
  op : FCGIWriter → Except Fault (Except IoError (Connection.Event × ℕ) × FCGIWriter)
  failed : Connection.Event

/-- The steps of a connection that neither write nor replace the transport. -/
def Connection.Event.Quiet : Connection.Event → Bool
  | .head _ _ | .upload _ _ | .connect _ true _ => false
  | _ => true

namespace Wire

/-- What happens next; `j` is the call that does it. -/
inductive Event
  /-- a step without a write -/
  | quiet (ev : Connection.Event)
  /-- `body.data()` has a chunk without bytes, or an error -/
  | skip (j : ℕ)
  /-- connects again, to a transport with these answers -/
  | connect (j : ℕ) (key : ℕ) (answer : ℕ → WriteAnswer)
  /-- writes the head of the request -/
  | head (j : ℕ) (stop : Option ℕ)
  /-- writes a chunk of the body -/
  | chunk (j : ℕ) (data : Bytes) (stop : Option ℕ)
  /-- writes the end of the body -/
  | finish (j : ℕ) (stop : Option ℕ)

/-- A new connection (lines 148–165). -/
def connect (maxReqPerCon : UInt16) (answer : ℕ → WriteAnswer) : Wire where
  con := .connect maxReqPerCon
  io := ⟨.new answer⟩
  missing := fun _ => 0
  written := []
  begun := []

variable (http : Http) (A : Allocator) (req : ℕ → Head)

/-- What the event writes, if it is that of a call which stands there; `req` has the requests of
the calls. -/
def writing? (self : Wire) : Event → Option Writing
  | .head j stop =>
    match self.con.calls[j]? with
    | some (.sending rid) =>
      some
        { call := j
          stop := stop
          op := fun io => (io.sendHead A rid (req j)).map fun (r, io) =>
            (r.map fun res => (.head j res, (req j).len.getD 0), io)
          failed := .head j .writeFailed }
    | _ => none
  | .chunk j data stop =>
    match self.con.calls[j]? with
    | some (.exchanging rid .locked _) =>
      if data = [] then none
      else
        some
          { call := j
            stop := stop
            op := fun io => (io.sendChunk A rid (self.missing j) data).map fun (r, io) =>
              (r.map fun len => (.upload j .chunk, len), io)
            failed := .upload j .writeFailed }
    | _ => none
  | .finish j stop =>
    match self.con.calls[j]? with
    | some (.exchanging rid .locked _) =>
      some
        { call := j
          stop := stop
          op := fun io => (io.sendEnd A rid (self.missing j)).map fun (r, io) =>
            (r.map fun _ => (.upload j .last, 0), io)
          failed := .upload j .writeFailed }
    | _ => none
  | _ => none

/-- What the call does behind the write, and what is missing of its body then. -/
def Writing.after (wr : Writing) (missing : ℕ) :
    Outcome (Connection.Event × ℕ) → Connection.Event × ℕ
  | .done x => x
  | .failed _ => (wr.failed, missing)
  | .dropped => (.cancel wr.call, missing)

/-- The state behind a write. -/
def wrote (self : Wire) (ev : Event) (wr : Writing) (con : Connection) (io : FCGIWriter)
    (missing : ℕ) : Wire where
  con := con
  io := io
  missing := Function.update self.missing wr.call missing
  written := self.written ++ [(wr.call, io.io.sent.drop self.io.io.sent.length)]
  begun :=
    match ev with
    | .head j _ => j :: self.begun
    | _ => self.begun

/-- The state after an event; `none` if it cannot happen. -/
def next (self : Wire) (ev : Event) : Except Fault (Option Wire) :=
  match ev with
  | .quiet ev =>
    if ev.Quiet then do
      match ← self.con.next http ev with
      | some (con, _) => .ok (some { self with con := con })
      | none => .ok none
    else .ok none
  | .skip j =>
    match self.con.calls[j]? with
    | some (.exchanging _ .idle _) => .ok (some self)
    | _ => .ok none
  | .connect j key answer => do
    match ← self.con.next http (.connect j true key) with
    | some (con, _) =>
      .ok (some { self with con := con, io := ⟨.new answer⟩, written := [], begun := [] })
    | none => .ok none
  | ev =>
    match self.writing? A req ev with
    | none => .ok none
    | some wr => do
      let (out, io) ← self.io.perform wr.stop wr.op
      let (ev', missing) := Writing.after wr (self.missing wr.call) out
      match ← self.con.next http ev' with
      | some (con, _) => .ok (some (self.wrote ev wr con io missing))
      | none => .ok none

/-- The steps of a connection with its transport. -/
def Step (self : Wire) (ev : Event) (self' : Wire) : Prop :=
  self.next http A req ev = .ok (some self')

/-- The state after an event that can happen. -/
def tick (self : Wire) (ev : Event) : Option Wire :=
  match self.next http A req ev with
  | .ok next => next
  | .error _ => none

theorem step_of_tick {http : Http} {A : Allocator} {req : ℕ → Head} (self : Wire) (ev : Event)
    (self' : Wire) (h : self.tick http A req ev = some self') : self.Step http A req ev self' := by
  unfold tick at h
  split at h
  · rw [Step, ← h]
    assumption
  · cases h

/-- The runs of a new connection. -/
def Runs (maxReqPerCon : UInt16) (answer : ℕ → WriteAnswer) (evs : List Event) (self : Wire) :
    Prop :=
  Run (Step http A req) (connect maxReqPerCon answer) evs self

/-- What the call at `j` wrote to the present transport. -/
def mine (self : Wire) (j : ℕ) : Bytes :=
  ((self.written.filter fun x => x.1 = j).map Prod.snd).flatten

/-- How many bytes of a write the transport takes, until the call is done, fails or is
dropped. -/
def taken (self : Wire) (wr : Writing) : ℕ :=
  match self.io.perform wr.stop wr.op with
  | .ok (_, io) => io.io.sent.length - self.io.io.sent.length
  | .error _ => 0

/-! ## What a step can do -/

variable {http : Http} {A : Allocator} {req : ℕ → Head} {self self' : Wire} {ev : Event}

/-- A step does not write, replaces the transport, or writes. -/
inductive Stepped (http : Http) (A : Allocator) (req : ℕ → Head) (self : Wire) :
    Event → Wire → Prop
  | quiet {ev con'} (hquiet : Connection.Event.Quiet ev = true)
      (hcon : self.con.Step http ev con') :
      Stepped http A req self (.quiet ev) { self with con := con' }
  | skipped {j rid resp} (hcall : self.con.calls[j]? = some (.exchanging rid .idle resp)) :
      Stepped http A req self (.skip j) self
  | connected {j key answer con'} (hcon : self.con.Step http (.connect j true key) con') :
      Stepped http A req self (.connect j key answer)
        { self with con := con', io := ⟨.new answer⟩, written := [], begun := [] }
  | wrote {ev wr out io con'} (hwr : self.writing? A req ev = some wr)
      (hout : self.io.perform wr.stop wr.op = .ok (out, io))
      (hcon : self.con.Step http (Writing.after wr (self.missing wr.call) out).1 con') :
      Stepped http A req self ev
        (self.wrote ev wr con' io (Writing.after wr (self.missing wr.call) out).2)

theorem next_stepped (h : self.Step http A req ev self') : Stepped http A req self ev self' := by
  have hwrites : (match self.writing? A req ev with
      | none => .ok none
      | some wr => do
        let (out, io) ← self.io.perform wr.stop wr.op
        let (ev', missing) := Writing.after wr (self.missing wr.call) out
        match ← self.con.next http ev' with
        | some (con, _) => .ok (some (self.wrote ev wr con io missing))
        | none => .ok none : Except Fault (Option Wire)) = .ok (some self') →
      Stepped http A req self ev self' := by
    intro h
    split at h
    · cases h
    · rename_i wr hwr
      obtain ⟨⟨out, io⟩, hout, h⟩ := bind_eq_ok.mp h
      simp only at h
      obtain ⟨x, hcon, h⟩ := bind_eq_ok.mp h
      cases x with
      | none => cases h
      | some x =>
        cases h
        exact .wrote hwr hout ⟨_, hcon⟩
  unfold Step at h
  cases ev with
  | quiet ev =>
    simp only [next] at h
    split at h
    · rename_i hquiet
      obtain ⟨x, hcon, h⟩ := bind_eq_ok.mp h
      cases x with
      | none => cases h
      | some x =>
        cases h
        exact .quiet hquiet ⟨_, hcon⟩
    · cases h
  | skip j =>
    simp only [next] at h
    split at h
    · rename_i hcall
      cases h
      exact .skipped hcall
    · cases h
  | connect j key answer =>
    simp only [next] at h
    obtain ⟨x, hcon, h⟩ := bind_eq_ok.mp h
    cases x with
    | none => cases h
    | some x =>
      cases h
      exact .connected ⟨_, hcon⟩
  | head j stop => exact hwrites h
  | chunk j data stop => exact hwrites h
  | finish j stop => exact hwrites h

/-- A step of a call that is about to write is its write. -/
theorem Stepped.of_writing {wr : Writing} (hs : Stepped http A req self ev self')
    (hwr : self.writing? A req ev = some wr) : ∃ out io con',
      self.io.perform wr.stop wr.op = .ok (out, io) ∧
        self.con.Step http (Writing.after wr (self.missing wr.call) out).1 con' ∧
        self' = self.wrote ev wr con' io (Writing.after wr (self.missing wr.call) out).2 := by
  cases hs with
  | quiet => cases hwr
  | skipped => cases hwr
  | connected => cases hwr
  | wrote hwr' hout hcon =>
    cases hwr.symm.trans hwr'
    exact ⟨_, _, _, hout, hcon, rfl⟩

/-- Every step is one of the connection, or leaves it alone. -/
theorem Stepped.con (hs : Stepped http A req self ev self') :
    self'.con = self.con ∨ ∃ ev', self.con.Step http ev' self'.con := by
  cases hs with
  | quiet _ hcon => exact Or.inr ⟨_, hcon⟩
  | skipped => exact Or.inl rfl
  | connected hcon => exact Or.inr ⟨_, hcon⟩
  | wrote _ _ hcon => exact Or.inr ⟨_, hcon⟩

/-- The connection stays settled. -/
theorem settled_step {max : ℕ} (hmax : max < 2 ^ 16) (h : Connection.Settled max self.con)
    (hs : self.Step http A req ev self') : Connection.Settled max self'.con := by
  rcases (next_stepped hs).con with hcon | ⟨ev', hcon⟩
  · exact hcon ▸ h
  · exact h.step hmax hcon

theorem settled_connect (maxReqPerCon : UInt16) (answer : ℕ → WriteAnswer) :
    Connection.Settled maxReqPerCon.toNat (connect maxReqPerCon answer).con :=
  ⟨Connection.slots_connect _, Connection.locked_connect _, Connection.placed_connect _⟩

/-! ## What is written -/

/-- A call with another value. -/
theorem writes_map {α β : Type} {op : FCGIWriter → Except Fault (Except IoError α × FCGIWriter)}
    {b : Bytes} {res : Except Fault (Except IoError α)} (h : FCGIWriter.Writes op b res)
    (f : α → β) :
    FCGIWriter.Writes (fun io => (op io).map fun (r, io) => (r.map f, io)) b
      (res.map fun r => r.map f) := by
  refine h.last (fun w w' hw => ?_) (fun w e w' hw => ?_)
  · simp only [hw]
    cases res <;> rfl
  · simp only [hw]
    rfl

/-- What is sent of a call that may be dropped: all of it, or a part. -/
theorem performed {α : Type} {op : FCGIWriter → Except Fault (Except IoError α × FCGIWriter)}
    {b : Bytes} {res : Except Fault (Except IoError α)} (h : FCGIWriter.Writes op b res)
    {w w' : FCGIWriter} {stop : Option ℕ} {out : Outcome α}
    (hout : w.perform stop op = .ok (out, w')) :
    w'.io.answer = w.io.answer ∧
      ((w'.io.sent = w.io.sent ++ b ∧ ∃ r, res = .ok r ∧
          (out = .ofResult r ∨ (out = .dropped ∧ ∃ e, r = .error e))) ∨
        ((∃ p, p <+: b ∧ w'.io.sent = w.io.sent ++ p) ∧ (∀ a, out ≠ .done a) ∧
          (stop = none → ¬ w.io.Accepting))) := by
  cases stop with
  | none =>
    rw [FCGIWriter.perform] at hout
    obtain ⟨⟨r, w₁⟩, hr, hout⟩ := bind_eq_ok.mp hout
    cases hout
    rcases h w with ⟨w₂, hwrote, hr'⟩ | ⟨e, w₂, hwrote, hr'⟩
    · rw [hr] at hr'
      cases res with
      | error f => cases hr'
      | ok r' =>
        cases hr'
        exact ⟨hwrote.answer, Or.inl ⟨hwrote.sent, r, rfl, Or.inl rfl⟩⟩
    · rw [hr] at hr'
      cases hr'
      cases hwrote with
      | cut answer hno hp sent =>
        exact ⟨answer, Or.inr ⟨⟨_, hp, sent⟩, nofun, fun _ => hno⟩⟩
  | some n =>
    rw [FCGIWriter.perform] at hout
    obtain ⟨⟨r, w₁⟩, hr, hout⟩ := bind_eq_ok.mp hout
    cases hout
    refine ⟨rfl, ?_⟩
    rcases h (w.until_ n) with ⟨w₂, hwrote, hr'⟩ | ⟨e, w₂, hwrote, hr'⟩
    · rw [hr] at hr'
      cases res with
      | error f => cases hr'
      | ok r' =>
        cases hr'
        refine Or.inl ⟨hwrote.sent, r, rfl, ?_⟩
        cases r with
        | ok a => exact Or.inl rfl
        | error e =>
          simp only
          split
          · exact Or.inr ⟨rfl, e, rfl⟩
          · exact Or.inl rfl
    · rw [hr] at hr'
      cases hr'
      cases hwrote with
      | cut answer hno hp sent =>
        refine Or.inr ⟨⟨_, hp, sent⟩, fun a => ?_, nofun⟩
        simp only
        split
        · exact nofun
        · exact nofun

theorem taken_eq {wr : Writing} {out : Outcome (Connection.Event × ℕ)} {io : FCGIWriter}
    {p : Bytes} (hout : self.io.perform wr.stop wr.op = .ok (out, io))
    (hsent : io.io.sent = self.io.io.sent ++ p) : self.taken wr = p.length := by
  simp only [taken, hout, hsent, List.length_append, Nat.add_sub_cancel_left]

/-- The records that an event is about to write, what its call does then, and where it is behind
them, unless there is a fault: the head of a request; a chunk of a body, unless the body is too
long; ABORT_REQUEST or the end of STDIN. -/
inductive Task (req : ℕ → Head) (self : Wire) : Event → Writing → List WireRecord →
    Except Fault (Except IoError (Connection.Event × ℕ)) → Option Forward → Prop
  | head {j stop rid op params tail} (hcall : self.con.calls[j]? = some (.sending rid))
      (hparams : ∀ r ∈ params, FCGIWriter.IsParams rid r)
      (htail : FCGIWriter.HeadTail rid (req j).result tail) :
      Task req self (.head j stop) ⟨j, stop, op, .head j .writeFailed⟩
        (FCGIWriter.headRecord rid :: (params ++ tail))
        (.ok (.ok (.head j (req j).result, (req j).len.getD 0)))
        (some (.afterHead rid (req j).result))
  | headFault {j stop rid op params f} (hcall : self.con.calls[j]? = some (.sending rid))
      (hparams : ∀ r ∈ params, FCGIWriter.IsParams rid r) :
      Task req self (.head j stop) ⟨j, stop, op, .head j .writeFailed⟩
        (FCGIWriter.headRecord rid :: params) (.error f) none
  | chunk {j data stop rid resp op rs}
      (hcall : self.con.calls[j]? = some (.exchanging rid .locked resp)) (hdata : data ≠ [])
      (hrecs : FCGIWriter.ChunkRecords .stdIn rid data rs) :
      Task req self (.chunk j data stop) ⟨j, stop, op, .upload j .writeFailed⟩ rs
        (.ok (.ok (.upload j .chunk, self.missing j - data.length)))
        (some (.exchanging rid .idle resp))
  | tooLong {j data stop rid resp op}
      (hcall : self.con.calls[j]? = some (.exchanging rid .locked resp)) :
      Task req self (.chunk j data stop) ⟨j, stop, op, .upload j .writeFailed⟩ []
        (.error .overflow) none
  | short {j stop rid resp op}
      (hcall : self.con.calls[j]? = some (.exchanging rid .locked resp)) :
      Task req self (.finish j stop) ⟨j, stop, op, .upload j .writeFailed⟩
        [FCGIWriter.abortRecord rid] (.ok (.error bodyTooShort)) (some (.failed rid resp))
  | last {j stop rid resp op last}
      (hcall : self.con.calls[j]? = some (.exchanging rid .locked resp))
      (hlast : FCGIWriter.OfStream .stdIn rid last) (hempty : last.content = []) :
      Task req self (.finish j stop) ⟨j, stop, op, .upload j .writeFailed⟩ [last]
        (.ok (.ok (.upload j .last, 0))) (some (.exchanging rid .done resp))

theorem task_of_writing {wr : Writing} (h : self.writing? A req ev = some wr) :
    ∃ rs res goal, Task req self ev wr rs res goal ∧
      FCGIWriter.Writes wr.op (WireRecord.encodeAll rs) res := by
  cases ev with
  | head j stop =>
    simp only [writing?] at h
    split at h
    · rename_i rid hcall
      cases h
      obtain ⟨params, tail, res, hwrites, hparams, ⟨rfl, f, rfl⟩ | ⟨rfl, htail⟩⟩ :=
        FCGIWriter.sendHead_writes A rid (req j)
      · rw [List.append_nil] at hwrites
        exact ⟨_, _, _, .headFault hcall hparams, writes_map hwrites _⟩
      · exact ⟨_, _, _, .head hcall hparams htail, writes_map hwrites _⟩
    · cases h
  | chunk j data stop =>
    simp only [writing?] at h
    split at h
    · rename_i rid resp hcall
      split at h
      · cases h
      · rename_i hdata
        cases h
        by_cases hle : data.length ≤ self.missing j
        · obtain ⟨rs, hwrites, hrecs⟩ := FCGIWriter.sendChunk_writes A rid hle
          exact ⟨rs, _, _, .chunk hcall hdata hrecs, writes_map hwrites _⟩
        · have hfault : FCGIWriter.Writes (fun io => io.sendChunk A rid (self.missing j) data) []
              (.error .overflow) := by
            refine .nothing fun w => ?_
            rw [FCGIWriter.sendChunk, if_pos (Nat.not_le.mp hle)]
            rfl
          exact ⟨[], _, _, .tooLong hcall, writes_map hfault _⟩
    · cases h
  | finish j stop =>
    simp only [writing?] at h
    split at h
    · rename_i rid resp hcall
      cases h
      rcases Nat.eq_zero_or_pos (self.missing j) with hzero | hpos
      · obtain ⟨last, hwrites, hlast, hempty⟩ := FCGIWriter.sendEnd_last A rid
        rw [hzero]
        refine ⟨[last], _, _, .last hcall hlast hempty, ?_⟩
        rw [WireRecord.encodeAll_cons, WireRecord.encodeAll_nil, List.append_nil]
        exact writes_map hwrites _
      · refine ⟨_, _, _, .short hcall, ?_⟩
        rw [WireRecord.encodeAll_cons, WireRecord.encodeAll_nil, List.append_nil]
        exact writes_map (FCGIWriter.sendEnd_short A rid hpos) _
    · cases h
  | _ => cases h

variable {wr : Writing} {rs : List WireRecord}
  {res : Except Fault (Except IoError (Connection.Event × ℕ))} {goal : Option Forward}

/-- The call that writes has the lock: it writes the head of its request, or STDIN and
ABORT_REQUEST with its id. -/
theorem Task.cases (h : Task req self ev wr rs res goal) :
    (∃ stop rid rest, ev = .head wr.call stop ∧ self.con.calls[wr.call]? = some (.sending rid) ∧
        wr.failed = .head wr.call .writeFailed ∧ rs = FCGIWriter.headRecord rid :: rest ∧
        ∀ r ∈ rest, r.requestId = rid) ∨
      ((∀ j stop, ev ≠ .head j stop) ∧ ∃ rid resp,
        self.con.calls[wr.call]? = some (.exchanging rid .locked resp) ∧
        wr.failed = .upload wr.call .writeFailed ∧
        ∀ r ∈ rs, (r.rtype = .stdIn ∨ r.rtype = .abortRequest) ∧ r.requestId = rid) := by
  cases h with
  | head hcall hparams htail =>
    refine Or.inl ⟨_, _, _, rfl, hcall, rfl, rfl, fun r hr => ?_⟩
    rcases List.mem_append.mp hr with hmem | hmem
    · exact (hparams r hmem).1.requestId
    · exact htail.requestId r hmem
  | headFault hcall hparams =>
    exact Or.inl ⟨_, _, _, rfl, hcall, rfl, rfl, fun r hr => (hparams r hr).1.requestId⟩
  | chunk hcall _ hrecs =>
    exact Or.inr ⟨nofun, _, _, hcall, rfl, fun r hr =>
      ⟨Or.inl (hrecs.ofStream r hr).rtype, (hrecs.ofStream r hr).requestId⟩⟩
  | tooLong hcall => exact Or.inr ⟨nofun, _, _, hcall, rfl, nofun⟩
  | short hcall =>
    refine Or.inr ⟨nofun, _, _, hcall, rfl, fun r hr => ?_⟩
    rw [List.mem_singleton.mp hr]
    exact ⟨Or.inr rfl, rfl⟩
  | last hcall hlast =>
    refine Or.inr ⟨nofun, _, _, hcall, rfl, fun r hr => ?_⟩
    rw [List.mem_singleton.mp hr]
    exact ⟨Or.inl hlast.rtype, hlast.requestId⟩

/-- A call that does not finish its write leaves the lock, and ends. -/
theorem Task.ends (h : Task req self ev wr rs res goal) {out : Outcome (Connection.Event × ℕ)}
    (hstop : ∀ a, out ≠ .done a) {missing : ℕ} {con' : Connection}
    (hcon : self.con.Step http (Writing.after wr missing out).1 con') :
    con'.inner.waiters = none ∧
      ((con'.calls = self.con.calls.set wr.call .left ∧ ∃ stop, ev = .head wr.call stop) ∨
        ∃ rid resp, self.con.calls[wr.call]? = some (.exchanging rid .locked resp) ∧
          con'.calls = self.con.calls.set wr.call (.failed rid resp)) := by
  obtain ⟨eff, hnext⟩ := hcon
  rcases h.cases with ⟨stop, rid, -, hev, hcall, hfailed, -⟩ | ⟨-, rid, resp, hcall, hfailed, -⟩
  · cases out with
    | done a => exact absurd rfl (hstop a)
    | failed e =>
      simp only [Writing.after, hfailed, Connection.next, hcall] at hnext
      cases hnext
      exact ⟨rfl, Or.inl ⟨rfl, stop, hev⟩⟩
    | dropped =>
      simp only [Writing.after, Connection.next, hcall] at hnext
      cases hnext
      exact ⟨rfl, Or.inl ⟨rfl, stop, hev⟩⟩
  · cases out with
    | done a => exact absurd rfl (hstop a)
    | failed e =>
      simp only [Writing.after, hfailed, Connection.next, hcall] at hnext
      cases hnext
      exact ⟨rfl, Or.inr ⟨rid, resp, hcall, rfl⟩⟩
    | dropped =>
      simp only [Writing.after, Connection.next, hcall] at hnext
      cases hnext
      exact ⟨rfl, Or.inr ⟨rid, resp, hcall, rfl⟩⟩

/-- What a step that writes does: the transport takes all of it, and the call goes on, or a part
of it, and the call ends. -/
theorem Task.goes (h : Task req self ev wr rs res goal)
    (hwrites : FCGIWriter.Writes wr.op (WireRecord.encodeAll rs) res)
    {out : Outcome (Connection.Event × ℕ)} {io : FCGIWriter}
    (hout : self.io.perform wr.stop wr.op = .ok (out, io)) {con' : Connection}
    (hcon : self.con.Step http (Writing.after wr (self.missing wr.call) out).1 con') :
    (io.io.sent = self.io.io.sent ++ WireRecord.encodeAll rs ∧
        ∃ call', goal = some call' ∧ con'.calls = self.con.calls.set wr.call call') ∨
      ((∃ p, p <+: WireRecord.encodeAll rs ∧ io.io.sent = self.io.io.sent ++ p) ∧
        (∀ a, out ≠ .done a) ∧ (wr.stop = none → ¬ self.io.io.Accepting)) := by
  rcases (performed hwrites hout).2 with ⟨hsent, r, hres, hr⟩ | hpart
  · refine Or.inl ⟨hsent, ?_⟩
    have hok : ∀ a, r = .ok a → out = .done a := by
      rintro a rfl
      rcases hr with rfl | ⟨-, e, he⟩
      · rfl
      · cases he
    have hends := fun hstop : ∀ a, out ≠ .done a => (h.ends hstop hcon).2
    cases h with
    | head hcall =>
      cases hres
      obtain rfl := hok _ rfl
      obtain ⟨eff, hnext⟩ := hcon
      simp only [Writing.after, Connection.next, hcall] at hnext
      cases hnext
      refine ⟨_, rfl, ?_⟩
      cases (req _).result <;> rfl
    | headFault => cases hres
    | chunk hcall =>
      cases hres
      obtain rfl := hok _ rfl
      obtain ⟨eff, hnext⟩ := hcon
      simp only [Writing.after, Connection.next, hcall] at hnext
      cases hnext
      exact ⟨_, rfl, rfl⟩
    | tooLong => cases hres
    | short hcall =>
      have hstop : ∀ a, out ≠ .done a := by
        cases hres
        rintro a rfl
        rcases hr with hr | ⟨hr, -⟩ <;> cases hr
      rcases hends hstop with ⟨-, stop', hev⟩ | ⟨rid', resp', hcall', hcalls⟩
      · cases hev
      · cases hcall.symm.trans hcall'
        exact ⟨_, rfl, hcalls⟩
    | last hcall =>
      cases hres
      obtain rfl := hok _ rfl
      obtain ⟨eff, hnext⟩ := hcon
      simp only [Writing.after, Connection.next, hcall] at hnext
      cases hnext
      exact ⟨_, rfl, rfl⟩
  · exact Or.inr hpart

/-- What a call wrote, behind a step that writes. -/
theorem mine_wrote {con' : Connection} {io : FCGIWriter} {missing : ℕ} {p : Bytes}
    (hsent : io.io.sent = self.io.io.sent ++ p) (j : ℕ) :
    (self.wrote ev wr con' io missing).mine j =
      if j = wr.call then self.mine j ++ p else self.mine j := by
  have hwritten : (self.wrote ev wr con' io missing).written = self.written ++ [(wr.call, p)] := by
    show self.written ++ [_] = _
    rw [hsent, List.drop_left]
  rw [mine, hwritten]
  split
  · rename_i hj
    simp [mine, hj]
  · rename_i hj
    simp [mine, Ne.symm hj]

/-! ## Calls that are not disturbed -/

/-- Where a step leads in which the call writes all of its records. -/
structure Goes (wire : Wire) (call : ℕ) (rs : List WireRecord) (con' : Connection) (missing : ℕ)
    (wire' : Wire) : Prop where
  con : wire'.con = con'
  accepting : wire'.io.io.Accepting
  sent : wire'.io.io.sent = wire.io.io.sent ++ WireRecord.encodeAll rs
  missing : wire'.missing = Function.update wire.missing call missing
  mine : ∀ j, wire'.mine j =
    if j = call then wire.mine j ++ WireRecord.encodeAll rs else wire.mine j

theorem goes_of_writes {j : ℕ}
    {op : FCGIWriter → Except Fault (Except IoError (Connection.Event × ℕ) × FCGIWriter)}
    (hwr : ∃ wr, self.writing? A req ev = some wr ∧ wr.call = j ∧ wr.stop = none ∧ wr.op = op)
    {x : Connection.Event × ℕ}
    (hwrites : FCGIWriter.Writes op (WireRecord.encodeAll rs) (.ok (.ok x)))
    (hacc : self.io.io.Accepting) {con' : Connection} (hcon : self.con.Step http x.1 con') :
    ∃ wire, self.Step http A req ev wire ∧ Goes self j rs con' x.2 wire := by
  obtain ⟨wr, hwr, rfl, hstop, rfl⟩ := hwr
  obtain ⟨io, hop, hsent, hacc'⟩ := hwrites.of_accepting hacc
  obtain ⟨eff, hnext⟩ := hcon
  have hout : self.io.perform wr.stop wr.op = .ok (.done x, io) := by
    rw [hstop, FCGIWriter.perform, hop]
    rfl
  refine ⟨self.wrote ev wr con' io x.2, ?_, rfl, hacc', hsent, rfl, mine_wrote hsent⟩
  cases ev with
  | quiet => cases hwr
  | skip => cases hwr
  | connect => cases hwr
  | _ => simp only [Step, next, hwr, hout, ok_bind, Writing.after, hnext]

/-- A call that has the lock can write the head of its request, if its pairs fit into a buffer. -/
theorem head_goes {j : ℕ} (hacc : self.io.io.Accepting)
    (hfits : (req j).Fits) {con' : Connection} (hcon : self.con.Step http (.head j (req j).result) con') :
    ∃ rs wire, self.Step http A req (.head j none) wire ∧
      Goes self j rs con' ((req j).len.getD 0) wire := by
  obtain ⟨rid, hcall⟩ : ∃ rid, self.con.calls[j]? = some (.sending rid) := by
    obtain ⟨eff, hnext⟩ := hcon
    rcases Connection.next_turn hnext with ⟨hev, -⟩ | ⟨i, call, call', hev, hcall, -, hturn⟩
    · cases hev
    · cases hev
      cases hturn
      exact ⟨_, hcall⟩
  obtain ⟨params, tail, res, hwrites, -, hres⟩ := FCGIWriter.sendHead_writes A rid (req j)
  obtain ⟨rfl, -⟩ := hres.resolve_left (by
    rintro ⟨-, f, rfl⟩
    obtain ⟨w', hop, -⟩ := hwrites.of_accepting hacc
    exact FCGIWriter.sendHead_fits hfits _ f hop)
  exact ⟨_, goes_of_writes (by simp [writing?, hcall])
    (writes_map hwrites fun res => (.head j res, (req j).len.getD 0)) hacc hcon⟩

theorem locked_of_upload {con con' : Connection} {j : ℕ} {up : UploadResult}
    (hcon : con.Step http (.upload j up) con') :
    ∃ rid resp, con.calls[j]? = some (.exchanging rid .locked resp) := by
  obtain ⟨eff, hnext⟩ := hcon
  rcases Connection.next_turn hnext with ⟨hev, -⟩ | ⟨i, call, call', hev, hcall, -, hturn⟩
  · cases hev
  · cases hev
    cases hturn
    exact ⟨_, _, hcall⟩

/-- A call that has the lock can write a chunk of its body. -/
theorem chunk_goes {j : ℕ} {data : Bytes} (hacc : self.io.io.Accepting) (hdata : data ≠ [])
    (hle : data.length ≤ self.missing j) {con' : Connection}
    (hcon : self.con.Step http (.upload j .chunk) con') :
    ∃ rs wire, self.Step http A req (.chunk j data none) wire ∧ rs ≠ [] ∧
      (∀ r ∈ rs, r.rtype = .stdIn) ∧ Goes self j rs con' (self.missing j - data.length) wire := by
  obtain ⟨rid, resp, hcall⟩ := locked_of_upload hcon
  obtain ⟨rs, hwrites, hrecs⟩ := FCGIWriter.sendChunk_writes A rid hle
  obtain ⟨wire, hs, hgoes⟩ : ∃ wire, self.Step http A req (.chunk j data none) wire ∧
      Goes self j rs con' (self.missing j - data.length) wire :=
    goes_of_writes (by simp [writing?, hcall, hdata])
      (writes_map hwrites fun len => (.upload j .chunk, len)) hacc hcon
  refine ⟨rs, wire, hs, fun hnil => hdata ?_, fun r hr => (hrecs.ofStream r hr).rtype, hgoes⟩
  rw [← hrecs.contents, hnil]
  rfl

/-- A call that has the lock, and sent all of its body, can end STDIN. -/
theorem finish_goes {j : ℕ} (hacc : self.io.io.Accepting) (hzero : self.missing j = 0)
    {con' : Connection} (hcon : self.con.Step http (.upload j .last) con') :
    ∃ rs wire, self.Step http A req (.finish j none) wire ∧ Goes self j rs con' 0 wire := by
  obtain ⟨rid, resp, hcall⟩ := locked_of_upload hcon
  obtain ⟨last, hwrites, -⟩ := FCGIWriter.sendEnd_last A rid
  rw [← hzero] at hwrites
  have hwrites' : FCGIWriter.Writes (fun w => w.sendEnd A rid (self.missing j))
      (WireRecord.encodeAll [last]) (.ok (.ok ())) := by
    rwa [WireRecord.encodeAll_cons, WireRecord.encodeAll_nil, List.append_nil]
  exact ⟨[last], goes_of_writes (by simp [writing?, hcall])
    (writes_map hwrites' fun _ => (.upload j .last, 0)) hacc hcon⟩

theorem connect_step {j key : ℕ} {answer : ℕ → WriteAnswer} {con' : Connection}
    (hcon : self.con.Step http (.connect j true key) con') :
    self.Step http A req (.connect j key answer)
      { self with con := con', io := ⟨.new answer⟩, written := [], begun := [] } := by
  obtain ⟨eff, hnext⟩ := hcon
  simp only [Step, next, hnext, ok_bind]

/-- The connection goes on between the writes. -/
theorem quiet_run {evs : List Connection.Event} {con' : Connection}
    (hrun : Run (Connection.Step http) self.con evs con') (hquiet : ∀ ev ∈ evs, ev.Quiet) :
    Run (Step http A req) self (evs.map .quiet) { self with con := con' } := by
  induction hrun with
  | nil => exact .nil
  | @snoc evs con ev con' _ h ih =>
    rw [List.map_append]
    refine .snoc (ih fun ev hev => hquiet ev (List.mem_append_left _ hev)) ?_
    obtain ⟨eff, hnext⟩ := h
    simp only [Step, next, hquiet ev (by simp), if_true, hnext, ok_bind]

end Wire

end AsyncFcgi
