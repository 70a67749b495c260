import AsyncFcgi.Client.Delivery
import AsyncFcgi.Client.Panics
import AsyncFcgi.Client.RequestHead

/-!
# What panics of a client (`src/client/connection.rs`)

A connection with its transport: besides the parser, `add_kv` panics at a pair or a head that is
too long, and `len -= s` at a body that is longer than `size_hint` said. How long the body is
shows in the chunks it had so far, since `len` counts what is left of the rest.

* `Owed.step`: `len` of each call that uploads, in any run.
* `sendHead_canAdd`, `sendHead_fault`: the heads that panic.
* `panics_run`: nothing else panics, and these do.
-/

namespace AsyncFcgi

open Lib

namespace FCGIWriter

variable {A : Allocator}

/-! ## The calls that write -/

/-- The pairs of a head can be added: no fault, on any transport. -/
theorem sendHead_canAdd (hA : A.Exact) (requestId : UInt16) {head : Head}
    (h : CanAdd head.pairs) (w : FCGIWriter) (f : Fault) :
    w.sendHead A requestId head ≠ .error f := by
  obtain ⟨params, tail, res, hwrites, -, ⟨-, f', rfl⟩ | ⟨rfl, -⟩⟩ := sendHead_sends A requestId head
  · -- a fault shows on a transport that accepts every write
    exfalso
    obtain ⟨w', hr, -⟩ := hwrites.of_accepting oneByOne_accepting
    obtain ⟨buf, hkvw, hbuf⟩ := exists_kvStream A requestId .params
    obtain ⟨w₁, hbegin, -, hacc⟩ := (writes_begin A requestId).of_accepting oneByOne_accepting
    obtain ⟨_, kvw', -, -, hextend⟩ := extend_canAdd hA h hkvw hbuf
    obtain ⟨rs, -, ⟨f'', -, hfault⟩ | ⟨kvw₂, hwrites₂, hty, hid, hbuf'⟩⟩ :=
      extend_extends (A := A) head.pairs head.pairs (List.Subset.refl _) ⟨requestId, .params, buf⟩
        hbuf
    · obtain ⟨w₂, hext, -⟩ := hextend.of_accepting hacc
      cases hfault.eq_of_ok hext
    · obtain ⟨w₂, hext, -⟩ := hwrites₂.of_accepting hacc
      obtain ⟨_, _, hend, -⟩ := endHead_writes A head hbuf' hty hid
      refine hend.ne_fault w₂ f' ?_
      rw [sendHead_begun hkvw head _ w₁ hbegin, hext] at hr
      exact hr
  · exact hwrites.ne_fault w f

/-- Other pairs are a fault, if `put` reserves no more than it must. -/
theorem sendHead_fault (requestId : UInt16) {head : Head} (h : ¬ CanAdd head.pairs)
    {w : FCGIWriter} (hacc : w.io.Accepting) :
    ∃ f, w.sendHead zeroed requestId head = .error f := by
  obtain ⟨buf, hkvw, hbuf⟩ := exists_kvStream zeroed requestId .params
  obtain ⟨w₁, hbegin, -, hacc₁⟩ := (writes_begin zeroed requestId).of_accepting hacc
  obtain ⟨f, hfault⟩ := extend_fault h hkvw hbuf hacc₁
  refine ⟨f, ?_⟩
  rw [sendHead_begun hkvw head w w₁ hbegin, hfault]
  rfl

/-- A chunk is a fault if and only if it is longer than what is left, whatever the transport
does. -/
theorem sendChunk_error_iff {w : FCGIWriter} {requestId : UInt16} {len : ℕ} {data : Bytes} :
    (∃ f, w.sendChunk A requestId len data = .error f) ↔ len < data.length := by
  constructor
  · rintro ⟨f, hf⟩
    by_contra hle
    obtain ⟨rs, hwrites, -⟩ := sendChunk_writes A requestId (Nat.not_lt.mp hle)
    exact hwrites.ne_fault w f hf
  · exact fun hlt => ⟨.overflow, by rw [sendChunk, if_pos hlt]⟩

theorem sendEnd_ne_error (w : FCGIWriter) (requestId : UInt16) (len : ℕ) (f : Fault) :
    w.sendEnd A requestId len ≠ .error f := by
  rcases Nat.eq_zero_or_pos len with rfl | hpos
  · obtain ⟨last, hwrites, -⟩ := sendEnd_last A requestId
    exact hwrites.ne_fault w f
  · exact (sendEnd_short A requestId hpos).ne_fault w f

/-- A call that may be dropped panics on a transport where the call does. -/
theorem exists_of_perform_error {α : Type}
    {op : FCGIWriter → Except Fault (Except IoError α × FCGIWriter)} {w : FCGIWriter}
    {stop : Option ℕ} {f : Fault} (h : w.perform stop op = .error f) :
    ∃ w', op w' = .error f := by
  cases stop with
  | none =>
    rw [perform] at h
    cases hop : op w with
    | error e =>
      rw [hop] at h
      cases h
      exact ⟨w, hop⟩
    | ok x => simp [hop] at h
  | some n =>
    rw [perform] at h
    cases hop : op (w.until_ n) with
    | error e =>
      rw [hop] at h
      cases h
      exact ⟨w.until_ n, hop⟩
    | ok x => simp [hop] at h

end FCGIWriter

namespace Wire

variable {http : Http} {A : Allocator} {req : ℕ → Head} {self self' : Wire} {ev : Event}
  {evs : List Event} {max : ℕ}

/-! ## What is left of each body -/

/-- What `send_body` of each call expects still: the rest of the length. -/
structure Owed (req : ℕ → Head) (evs : List Event) (wire : Wire) : Prop where
  unsent : ∀ j, wire.con.Unbegun j → bodySent evs j = []
  missing : ∀ j id, wire.con.uploads? j = some id →
    (bodySent evs j).length + wire.missing j = (req j).len.getD 0

theorem owed_connect (maxReqPerCon : UInt16) (answer : ℕ → WriteAnswer) :
    Owed req [] (connect maxReqPerCon answer) where
  unsent _ _ := rfl
  missing _ _ h := by cases h

/-- A step without a write. -/
theorem Owed.same {cev : Connection.Event} {con' : Connection} (h : Owed req evs self)
    (hcon : self.con.Step http cev con') (hhead : ∀ j res, cev ≠ .head j res)
    (hev : ∀ j, ev.chunkOf j = []) (hself : self'.con = con')
    (hmissing : self'.missing = self.missing) : Owed req (evs ++ [ev]) self' := by
  obtain ⟨eff, hnext⟩ := hcon
  refine ⟨fun j hj => ?_, fun j id hj => ?_⟩
  · rw [bodySent_snoc, hev, List.append_nil]
    exact h.unsent j (Connection.Unbegun.back hnext (hself ▸ hj))
  · rw [bodySent_snoc, hev, List.append_nil, hmissing]
    exact h.missing j id (Connection.uploads_back hnext hhead (hself ▸ hj))

/-- Where the call is behind its write, and what is left then: its upload is over, or the head is
written, or a chunk. -/
inductive Leaves (req : ℕ → Head) (self : Wire) (j : ℕ) : Event → Forward → ℕ → Prop
  | ended {ev call' missing} (hover : call'.uploads? = none) : Leaves req self j ev call' missing
  | head {stop rid} (hcall : self.con.calls[j]? = some (.sending rid)) :
      Leaves req self j (.head j stop) (.afterHead rid (req j).result) ((req j).len.getD 0)
  | chunk {data stop rid resp}
      (hcall : self.con.calls[j]? = some (.exchanging rid .locked resp))
      (hle : data.length ≤ self.missing j) :
      Leaves req self j (.chunk j data stop) (.exchanging rid .idle resp)
        (self.missing j - data.length)

/-- A chunk that was written was not too long. -/
theorem le_missing_of_perform {j : ℕ} {data : Bytes} {stop : Option ℕ} {wr : Writing}
    (hwr : self.writing? A req (.chunk j data stop) = some wr)
    {out : Outcome (Connection.Event × ℕ)} {io : FCGIWriter}
    (hout : self.io.perform wr.stop wr.op = .ok (out, io)) : data.length ≤ self.missing j := by
  by_contra hlt
  simp only [writing?] at hwr
  split at hwr
  · rename_i rid resp hcall
    split at hwr
    · cases hwr
    · cases hwr
      have hop : ∀ w : FCGIWriter, w.sendChunk A rid (self.missing j) data = .error .overflow :=
        fun w => by rw [FCGIWriter.sendChunk, if_pos (Nat.not_le.mp hlt)]
      cases stop with
      | none => simp [FCGIWriter.perform, hop, Except.map] at hout
      | some n => simp [FCGIWriter.perform, hop, Except.map] at hout
  · cases hwr

/-- A call that is done wrote all of its records. -/
theorem res_of_done {α : Type} {op : FCGIWriter → Except Fault (Except IoError α × FCGIWriter)}
    {b : Bytes} {res : Except Fault (Except IoError α)} (hwrites : FCGIWriter.Writes op b res)
    {w w' : FCGIWriter} {stop : Option ℕ} {a : α} (hout : w.perform stop op = .ok (.done a, w')) :
    res = .ok (.ok a) := by
  rcases (performed hwrites hout).2 with ⟨-, r, rfl, hr | ⟨hr, -⟩⟩ | ⟨-, hstop, -⟩
  · cases r with
    | ok a' => cases hr; rfl
    | error e => cases hr
  · cases hr
  · exact absurd rfl (hstop a)

/-- What a step that writes does to its call. -/
theorem leaves_of_writing {wr : Writing} {out : Outcome (Connection.Event × ℕ)} {io : FCGIWriter}
    {con' : Connection} (hwr : self.writing? A req ev = some wr)
    (hout : self.io.perform wr.stop wr.op = .ok (out, io))
    (hcon : self.con.Step http (Writing.after wr (self.missing wr.call) out).1 con') :
    ∃ call', con'.calls = self.con.calls.set wr.call call' ∧ Leaves req self wr.call ev call'
      (Writing.after wr (self.missing wr.call) out).2 := by
  obtain ⟨rs, res, goal, htask, hwrites⟩ := task_of_writing hwr
  by_cases hdone : ∃ x, out = .done x
  · obtain ⟨x, rfl⟩ := hdone
    obtain rfl := res_of_done hwrites hout
    obtain ⟨eff, hnext⟩ := hcon
    cases htask with
    | head hcall =>
      simp only [Writing.after, Connection.next, hcall] at hnext
      cases hnext
      exact ⟨_, by cases (req _).result <;> rfl, .head hcall⟩
    | chunk hcall =>
      simp only [Writing.after, Connection.next, hcall] at hnext
      cases hnext
      exact ⟨_, rfl, .chunk hcall (le_missing_of_perform hwr hout)⟩
    | last hcall =>
      simp only [Writing.after, Connection.next, hcall] at hnext
      cases hnext
      exact ⟨_, rfl, .ended rfl⟩
  · rcases (htask.ends (fun x hx => hdone ⟨x, hx⟩) hcon).2 with
      ⟨hcalls, -⟩ | ⟨rid, resp, -, hcalls⟩
    · exact ⟨_, hcalls, .ended rfl⟩
    · exact ⟨_, hcalls, .ended rfl⟩

/-- A step that writes. -/
theorem Owed.wrote {wr : Writing} {out : Outcome (Connection.Event × ℕ)} {io : FCGIWriter}
    {con' : Connection} (h : Owed req evs self) (hwr : self.writing? A req ev = some wr)
    (hout : self.io.perform wr.stop wr.op = .ok (out, io))
    (hcon : self.con.Step http (Writing.after wr (self.missing wr.call) out).1 con') :
    Owed req (evs ++ [ev])
      (self.wrote ev wr con' io (Writing.after wr (self.missing wr.call) out).2) := by
  obtain ⟨rs, res, goal, htask, -⟩ := task_of_writing hwr
  obtain ⟨call', hcalls, hleaves⟩ := leaves_of_writing hwr hout hcon
  obtain ⟨call, hcall, hfresh, hchunk⟩ : ∃ call, self.con.calls[wr.call]? = some call ∧
      (ev.chunkOf wr.call = [] ∨ call.Fresh = false) ∧
      ∀ i, i ≠ wr.call → ev.chunkOf i = [] := by
    cases htask with
    | chunk hcall => exact ⟨_, hcall, Or.inr rfl, fun i hi => if_neg hi.symm⟩
    | tooLong hcall => exact ⟨_, hcall, Or.inr rfl, fun i hi => if_neg hi.symm⟩
    | head hcall => exact ⟨_, hcall, Or.inl rfl, fun _ _ => rfl⟩
    | headFault hcall => exact ⟨_, hcall, Or.inl rfl, fun _ _ => rfl⟩
    | short hcall => exact ⟨_, hcall, Or.inl rfl, fun _ _ => rfl⟩
    | last hcall => exact ⟨_, hcall, Or.inl rfl, fun _ _ => rfl⟩
  refine ⟨fun i hi => ?_, fun i id hi => ?_⟩
  · obtain ⟨eff, hnext⟩ := hcon
    have hback := Connection.Unbegun.back hnext hi
    rw [bodySent_snoc, h.unsent i hback, List.nil_append]
    by_cases hij : i = wr.call
    · subst hij
      exact hfresh.resolve_right (by simp [hback call hcall])
    · exact hchunk i hij
  · rw [show (self.wrote ev wr con' io _).con = con' from rfl, uploads_set hcall hcalls] at hi
    show _ + Function.update self.missing wr.call _ i = _
    rw [bodySent_snoc]
    split at hi
    · rename_i hij
      rw [hij, Function.update_self]
      generalize (Writing.after wr (self.missing wr.call) out).2 = missing at hleaves ⊢
      cases hleaves with
      | ended hover =>
        rw [hover] at hi
        cases hi
      | head hcall' =>
        have hback : self.con.Unbegun wr.call := fun c hc => by
          cases hcall'.symm.trans hc
          rfl
        rw [h.unsent _ hback]
        simp [Event.chunkOf]
      | chunk hcall' hle =>
        have hrest := h.missing wr.call _ (by
          rw [Connection.uploads?, hcall']
          rfl)
        simp only [Event.chunkOf, if_true, List.length_append]
        omega
    · rename_i hij
      rw [hchunk i hij, List.append_nil, Function.update_of_ne hij]
      exact h.missing i id hi

/-- What is left of each body, behind a step. -/
theorem Owed.step (h : Owed req evs self) (hs : self.Step http A req ev self') :
    Owed req (evs ++ [ev]) self' := by
  cases next_stepped hs with
  | quiet hquiet hcon =>
    refine h.same hcon (fun j res hev => ?_) (fun _ => rfl) rfl rfl
    rw [hev] at hquiet
    cases hquiet
  | skipped =>
    refine ⟨fun j hj => ?_, fun j id hj => ?_⟩
    · rw [bodySent_snoc, h.unsent j hj]
      rfl
    · rw [bodySent_snoc, ← h.missing j id hj]
      simp [Event.chunkOf]
  | connected hcon => exact h.same hcon (fun _ _ => by simp) (fun _ => rfl) rfl rfl
  | wrote hwr hout hcon => exact h.wrote hwr hout hcon

/-! ## The steps that panic -/

/-- When the call of an event is dropped. -/
def Event.stop? : Event → Option ℕ
  | .head _ stop | .chunk _ _ stop | .finish _ stop => stop
  | _ => none

/-- Why a step panics: the parser does, at what is read; the pairs of a head cannot be added; or a
body is longer than was said, by the chunk that is next. -/
inductive Panics (req : ℕ → Head) (evs : List Event) (self : Wire) : Event → Prop
  | parser {cev sock cx f} (hreads : self.con.Reads cev sock cx)
      (hparser : self.con.inner.inner.ParserPanics sock cx f) : Panics req evs self (.quiet cev)
  | head {j stop rid} (hcall : self.con.calls[j]? = some (.sending rid))
      (hpairs : ¬ CanAdd (req j).pairs) : Panics req evs self (.head j stop)
  | chunk {j data stop rid resp} (hcall : self.con.calls[j]? = some (.exchanging rid .locked resp))
      (hlong : (req j).len.getD 0 < (bodySent evs j ++ data).length) :
      Panics req evs self (.chunk j data stop)

/-- A step of the connection that does not read does not panic. -/
theorem next_returns (hs : http.PrefixStable) {con : Connection}
    (hslots : Connection.Slots max con) {cev : Connection.Event}
    (hreads : ∀ sock cx, ¬ con.Reads cev sock cx) (f : Fault) : con.next http cev ≠ .error f := by
  intro h
  obtain ⟨sock, cx, hread, -⟩ := (hslots.faults_iff hs).mp h
  exact hreads sock cx hread

/-- What a call does behind its write is no read. -/
theorem not_reads_after {wr : Writing} {out : Outcome (Connection.Event × ℕ)} {io : FCGIWriter}
    (hwr : self.writing? A req ev = some wr)
    (hout : self.io.perform wr.stop wr.op = .ok (out, io)) (missing : ℕ) (sock : SocketRead)
    (cx : Waker) : ¬ self.con.Reads (Writing.after wr missing out).1 sock cx := by
  obtain ⟨rs, res, goal, htask, hwrites⟩ := task_of_writing hwr
  intro hreads
  cases out with
  | done x =>
    obtain rfl := res_of_done hwrites hout
    cases htask <;> cases hreads
  | failed e => cases htask <;> cases hreads
  | dropped => cases hreads

/-- A step of a call that is about to write panics where the write does. -/
theorem exists_of_next_error {wr : Writing} {f : Fault} (hs : http.PrefixStable)
    (hslots : Connection.Slots max self.con) (hwr : self.writing? A req ev = some wr)
    (h : self.next http A req ev = .error f) : ∃ w, wr.op w = .error f := by
  cases hout : self.io.perform wr.stop wr.op with
  | error e =>
    obtain rfl : e = f := by
      cases ev with
      | quiet => cases hwr
      | skip => cases hwr
      | connect => cases hwr
      | _ => simpa only [next, hwr, hout, error_bind, Except.error.injEq] using h
    exact FCGIWriter.exists_of_perform_error hout
  | ok x =>
    exfalso
    obtain ⟨out, io⟩ := x
    cases hcon : self.con.next http (Writing.after wr (self.missing wr.call) out).1 with
    | error e => exact next_returns hs hslots (not_reads_after hwr hout _) e hcon
    | ok y =>
      cases ev with
      | quiet => cases hwr
      | skip => cases hwr
      | connect => cases hwr
      | _ => cases y <;> simp [next, hwr, hout, hcon] at h

/-- A write that is not cut short panics where its call does. -/
theorem next_error_of_op {wr : Writing} {f : Fault} (hwr : self.writing? A req ev = some wr)
    (hstop : wr.stop = none) (hop : wr.op self.io = .error f) :
    self.next http A req ev = .error f := by
  have hout : self.io.perform wr.stop wr.op = .error f := by
    rw [hstop, FCGIWriter.perform, hop]
    rfl
  cases ev with
  | quiet => cases hwr
  | skip => cases hwr
  | connect => cases hwr
  | _ => simp only [next, hwr, hout, error_bind]

/-- The invariant of a run that says what panics. -/
theorem slots_owed_run {maxReqPerCon : UInt16} {answer : ℕ → WriteAnswer}
    (hrun : Runs http A req maxReqPerCon answer evs self) :
    Connection.Slots maxReqPerCon.toNat self.con ∧ Owed req evs self := by
  have hboth : Connection.Settled maxReqPerCon.toNat self.con ∧ Owed req evs self := by
    induction hrun with
    | nil => exact ⟨settled_connect _ _, owed_connect _ _⟩
    | snoc _ hs ih => exact ⟨settled_step maxReqPerCon.toNat_lt ih.1 hs, ih.2.step hs⟩
  exact ⟨hboth.1.slots, hboth.2⟩

/-- A call that panics in its write has one of two reasons. -/
theorem Owed.panics_of_op {wr : Writing} {w : FCGIWriter} {f : Fault} (h : Owed req evs self)
    (hA : A.Exact) (hwr : self.writing? A req ev = some wr) (hop : wr.op w = .error f) :
    self.Panics req evs ev := by
  cases ev with
  | head j stop =>
    simp only [writing?] at hwr
    split at hwr
    · rename_i rid hcall
      cases hwr
      refine .head hcall fun hpairs => ?_
      cases hsend : w.sendHead A rid (req j) with
      | error e => exact FCGIWriter.sendHead_canAdd hA rid hpairs w e hsend
      | ok x => simp [hsend, Except.map] at hop
    · cases hwr
  | chunk j data stop =>
    simp only [writing?] at hwr
    split at hwr
    · rename_i rid resp hcall
      split at hwr
      · cases hwr
      · cases hwr
        have hlong : self.missing j < data.length := by
          cases hsend : w.sendChunk A rid (self.missing j) data with
          | error e => exact FCGIWriter.sendChunk_error_iff.mp ⟨e, hsend⟩
          | ok x => simp [hsend, Except.map] at hop
        have hrest := h.missing j rid (by
          rw [Connection.uploads?, hcall]
          rfl)
        refine .chunk hcall ?_
        rw [List.length_append]
        omega
    · cases hwr
  | finish j stop =>
    simp only [writing?] at hwr
    split at hwr
    · rename_i rid resp hcall
      cases hwr
      cases hsend : w.sendEnd A rid (self.missing j) with
      | error e => exact absurd hsend (FCGIWriter.sendEnd_ne_error w rid _ e)
      | ok x => simp [hsend, Except.map] at hop
    · cases hwr
  | _ => cases hwr

/-- No step panics for another reason. -/
theorem Owed.panics_of_error {f : Fault} (h : Owed req evs self) (hs : http.PrefixStable)
    (hslots : Connection.Slots max self.con) (hA : A.Exact)
    (herr : self.next http A req ev = .error f) : self.Panics req evs ev := by
  cases hwr : self.writing? A req ev with
  | some wr =>
    obtain ⟨w, hop⟩ := exists_of_next_error hs hslots hwr herr
    exact h.panics_of_op hA hwr hop
  | none =>
    -- the connection does the step alone
    cases ev with
    | quiet cev =>
      simp only [next] at herr
      split at herr
      · cases hcon : self.con.next http cev with
        | error e =>
          obtain ⟨sock, cx, hreads, hparser⟩ := (hslots.faults_iff hs).mp hcon
          exact .parser hreads hparser
        | ok y => cases y <;> simp [hcon] at herr
      · cases herr
    | skip j =>
      simp only [next] at herr
      split at herr <;> cases herr
    | connect j key answer =>
      simp only [next] at herr
      cases hcon : self.con.next http (.connect j true key) with
      | error e =>
        exact absurd hcon (next_returns hs hslots (fun sock cx hreads => by cases hreads) e)
      | ok y => cases y <;> simp [hcon] at herr
    | _ => simp [next, hwr] at herr

/-- The steps that are said to panic do, if no write is cut short. -/
theorem Owed.error_of_panics (h : Owed req evs self) (hs : http.PrefixStable)
    (hslots : Connection.Slots max self.con) (hpanics : self.Panics req evs ev)
    (hstop : ev.stop? = none) (hacc : self.io.io.Accepting) :
    ∃ f, self.next http zeroed req ev = .error f := by
  cases hpanics with
  | @parser cev sock cx f hreads hparser =>
    have hquiet : cev.Quiet = true := by cases hreads <;> rfl
    refine ⟨f, ?_⟩
    rw [next, if_pos hquiet, (hslots.faults_iff hs).mpr ⟨sock, cx, hreads, hparser⟩]
    rfl
  | @head j stop rid hcall hpairs =>
    obtain rfl : stop = none := hstop
    obtain ⟨f, hfault⟩ := FCGIWriter.sendHead_fault rid hpairs hacc
    refine ⟨f, next_error_of_op (by simp only [writing?, hcall]; rfl) rfl ?_⟩
    show (self.io.sendHead zeroed rid (req j)).map _ = _
    rw [hfault]
    rfl
  | @chunk j data stop rid resp hcall hlong =>
    obtain rfl : stop = none := hstop
    have hrest := h.missing j rid (by
      rw [Connection.uploads?, hcall]
      rfl)
    rw [List.length_append] at hlong
    have hdata : data ≠ [] := by
      rintro rfl
      rw [List.length_nil] at hlong
      omega
    obtain ⟨f, hfault⟩ := (@FCGIWriter.sendChunk_error_iff zeroed self.io rid (self.missing j)
      data).mpr (by omega)
    refine ⟨f, next_error_of_op (by simp only [writing?, hcall, if_neg hdata]; rfl) rfl ?_⟩
    show (self.io.sendChunk zeroed rid (self.missing j) data).map _ = _
    rw [hfault]
    rfl

/-- **What panics of a client.** In every run, whatever the transport does and whichever calls are
dropped, a step panics only if the parser does at what it reads, if it writes the head of a request
whose pairs cannot be added, or if it writes a chunk that makes the body longer than its length was
said to be. Each of these does panic where no write is cut short. -/
theorem panics_run {maxReqPerCon : UInt16} {answer : ℕ → WriteAnswer} (hs : http.PrefixStable)
    (hrun : Runs http A req maxReqPerCon answer evs self) (ev : Event) :
    (∀ A' f, A'.Exact → self.next http A' req ev = .error f → self.Panics req evs ev) ∧
      (self.Panics req evs ev → ev.stop? = none → self.io.io.Accepting →
        ∃ f, self.next http zeroed req ev = .error f) := by
  obtain ⟨hslots, howed⟩ := slots_owed_run hrun
  exact ⟨fun A' f hA herr => howed.panics_of_error hs hslots hA herr,
    fun hpanics hstop hacc => howed.error_of_panics hs hslots hpanics hstop hacc⟩

/-- A request that said its body has one byte, and two that are there. -/
theorem panics_run_longBody : ∃ evs wire, Runs (onlyBlock []) zeroed (fun _ => post) 1
    (fun _ => .accepts 0) evs wire ∧
      wire.Panics (fun _ => post) evs (.chunk 0 [65, 66] none) ∧
      ∃ f, wire.next (onlyBlock []) zeroed (fun _ => post) (.chunk 0 [65, 66] none) = .error f := by
  have hcons : (((replay (Connection.tick (onlyBlock [])) (.connect 1)
      [.acquire, .lock 0, .check 0 .pending 7 0]).bind fun c =>
        (c.tick (onlyBlock []) (.head 0 post.result)).bind fun c =>
          replay (Connection.tick (onlyBlock [])) c [.uploadLock 0]).map fun c =>
            c.calls[0]?) = some (some (.exchanging 1 .locked none)) := by
    decide +kernel
  obtain ⟨c₃, hc, hcall⟩ := Option.map_eq_some_iff.mp hcons
  obtain ⟨c₁, h₁, hc⟩ := Option.bind_eq_some_iff.mp hc
  obtain ⟨c₂, h₂, h₃⟩ := Option.bind_eq_some_iff.mp hc
  have hacc : (Transport.new fun _ => .accepts 0).Accepting := fun _ => ⟨0, rfl⟩
  have htick := @Connection.step_of_tick (onlyBlock [])
  have hrun₁ := @quiet_run (onlyBlock []) zeroed (fun _ => post) (connect 1 fun _ => .accepts 0) _
    c₁ (run_of_replay htick _ h₁) (by decide)
  obtain ⟨rs, w₂, hs₂, hg₂⟩ := @head_goes (onlyBlock []) zeroed (fun _ => post)
    { connect 1 fun _ => .accepts 0 with con := c₁ } 0 hacc post_fits _ (htick _ _ _ h₂)
  obtain rfl := hg₂.con
  have hrun₃ := @quiet_run (onlyBlock []) zeroed (fun _ => post) w₂ _ c₃
    (run_of_replay htick _ h₃) (by decide)
  have hrun : Runs (onlyBlock []) zeroed (fun _ => post) 1 (fun _ => .accepts 0)
      [.quiet .acquire, .quiet (.lock 0), .quiet (.check 0 .pending 7 0), .head 0 none,
        .quiet (.uploadLock 0)] { w₂ with con := c₃ } := (Run.snoc hrun₁ hs₂).append hrun₃
  have hpanics : ({ w₂ with con := c₃ } : Wire).Panics (fun _ => post)
      [.quiet .acquire, .quiet (.lock 0), .quiet (.check 0 .pending 7 0), .head 0 none,
        .quiet (.uploadLock 0)] (.chunk 0 [65, 66] none) := .chunk hcall (by decide)
  exact ⟨_, _, hrun, hpanics, (panics_run (onlyBlock_prefixStable []) hrun _).2 hpanics rfl
    hg₂.accepting⟩

end Wire

end AsyncFcgi
