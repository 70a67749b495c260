import AsyncFcgi.Client.Grammar
import AsyncFcgi.Fastcgi.Received

/-!
# What the application gets of each request (`src/client/connection.rs`)

While no call is dropped and every write is accepted, an application that takes the records on a
transport apart by their ids has the requests of the calls that began them there, each with its
pairs and the chunks of its body, however the calls take turns.

* `next_proceeds`: what a step can do that is not disturbed.
* `Delivers.step`: what it adds to the requests.
* `delivers_run`: the requests of all calls.
* `uploaded_run`: a call that has its response was received as a whole.
-/

namespace AsyncFcgi

open Lib WireRecord

/-- The request was written to its end: STDIN is done, or the caller has the response. -/
def Forward.Uploaded : Forward → Bool
  | .exchanging _ .done _ | .returned _ => true
  | _ => false

namespace Wire

/-- The bytes an event writes of the body of the call at `j`. -/
def Event.chunkOf (j : ℕ) : Event → Bytes
  | .chunk i data _ => if i = j then data else []
  | _ => []

/-- The bytes that were written of the body of the call at `j`. -/
def bodySent (evs : List Event) (j : ℕ) : Bytes := (evs.map (Event.chunkOf j)).flatten

@[simp] theorem bodySent_snoc (evs : List Event) (ev : Event) (j : ℕ) :
    bodySent (evs ++ [ev]) j = bodySent evs j ++ ev.chunkOf j := by
  simp [bodySent]

/-- What was received is the request `head` with `body`, as far as it was sent. A request that is
not uploaded any more is over, and was aborted if a header was rejected or the body too short. -/
structure Delivered (head : Head) (body : Bytes) (uploading : Prop) (q : Received) : Prop where
  pairs : head.rejected = false → NameValuePair.code.decodeAll q.params = some head.pairs
  part : q.params <+: NameValuePair.code.encodeAll head.pairs
  stdin : q.stdin = body
  within : body.length ≤ head.len.getD 0
  open_ : uploading → q.phase = .stdIn ∧ q.aborted = false ∧ head.rejected = false
  done : ¬ uploading → q.phase = .over ∧
    (q.aborted = true ↔ head.rejected = true ∨ body.length < head.len.getD 0)

/-- The requests that were received on the present transport are those of the calls that began
one there, each of them once. For each id, `owners` has its calls, the last one first. -/
structure Delivers (req : ℕ → Head) (evs : List Event) (wire : Wire) (rs : List WireRecord)
    (owners : UInt16 → List ℕ) : Prop where
  sent : wire.io.io.sent = encodeAll rs
  delivered : ∀ id, List.Forall₂ (fun j q => Delivered (req j) (bodySent evs j)
    (wire.con.uploads? j = some id) q) (owners id) (receivedOf id rs)
  nodup : ∀ id, (owners id).Nodup
  begun : ∀ j, j ∈ wire.begun ↔ ∃ id, j ∈ owners id
  one : ∀ id id' j, j ∈ owners id → j ∈ owners id' → id = id'

/-- The state of the calls that goes with it. -/
structure Accounted (req : ℕ → Head) (evs : List Event) (wire : Wire)
    (owners : UInt16 → List ℕ) : Prop where
  newest : ∀ j id, wire.con.uploads? j = some id →
    (∃ rest, owners id = j :: rest) ∨ (j ∉ wire.begun ∧ owners id = [])
  missing : ∀ j id, wire.con.uploads? j = some id → j ∈ wire.begun →
    (bodySent evs j).length + wire.missing j = (req j).len.getD 0
  unsent : ∀ j, wire.con.Unbegun j → j ∉ wire.begun ∧ bodySent evs j = []
  uploaded : ∀ j call, wire.con.calls[j]? = some call → call.Uploaded = true → j ∈ wire.begun →
    (req j).rejected = false ∧ (bodySent evs j).length = (req j).len.getD 0

variable {http : Http} {A : Allocator} {req : ℕ → Head} {self self' : Wire} {ev : Event}
  {evs : List Event} {rs rs' : List WireRecord} {owners : UInt16 → List ℕ}

theorem delivers_new {wire : Wire} (hsent : wire.io.io.sent = []) (hbegun : wire.begun = []) :
    Delivers req evs wire [] fun _ => [] where
  sent := hsent
  delivered _ := .nil
  nodup _ := List.nodup_nil
  begun j := by simp [hbegun]
  one _ _ _ h := by cases h

/-- The requests of calls that go on as before. -/
theorem delivered_calls {wire wire' : Wire} {evs evs' : List Event} {id : UInt16} {js : List ℕ}
    {qs : List Received}
    (h : List.Forall₂ (fun j q => Delivered (req j) (bodySent evs j)
      (wire.con.uploads? j = some id) q) js qs)
    (hbody : ∀ j ∈ js, bodySent evs' j = bodySent evs j)
    (hup : ∀ j ∈ js, wire'.con.uploads? j = wire.con.uploads? j) :
    List.Forall₂ (fun j q => Delivered (req j) (bodySent evs' j)
      (wire'.con.uploads? j = some id) q) js qs := by
  refine List.Forall₂.imp ?_ ((List.forall₂_and_left _ _).mpr ⟨fun j hj => hj, h⟩)
  rintro j q ⟨hj, hq⟩
  rw [hbody j hj, hup j hj]
  exact hq

/-- A step without a write. -/
theorem Delivers.same {con' : Connection} (h : Delivers req evs self rs owners)
    (hev : ∀ j, ev.chunkOf j = []) (hup : ∀ j, con'.uploads? j = self.con.uploads? j) :
    Delivers req (evs ++ [ev]) { self with con := con' } rs owners where
  sent := h.sent
  delivered id := delivered_calls (h.delivered id)
    (fun j _ => by rw [bodySent_snoc, hev, List.append_nil]) fun j _ => hup j
  nodup := h.nodup
  begun := h.begun
  one := h.one

/-- The call at `j` goes on, and the others stay. -/
theorem uploads_set {con con' : Connection} {j : ℕ} {call call' : Forward}
    (hcall : con.calls[j]? = some call) (hcalls : con'.calls = con.calls.set j call') (i : ℕ) :
    con'.uploads? i = if i = j then call'.uploads? else con.uploads? i := by
  rw [Connection.uploads?, hcalls]
  split
  · rename_i hij
    rw [hij, List.getElem?_set_self (List.getElem?_eq_some_iff.mp hcall).1]
    rfl
  · rename_i hij
    rw [List.getElem?_set_ne (Ne.symm hij)]
    rfl

/-- A step in which the call at `j` writes records with the id `rid`; `mine` are the calls with
that id then. -/
theorem Delivers.wrote {j : ℕ} {rid : UInt16} {mine : List ℕ} (h : Delivers req evs self rs owners)
    (hsent : self'.io.io.sent = self.io.io.sent ++ encodeAll rs')
    (hids : ∀ r ∈ rs', r.requestId = rid)
    (hother : ∀ i, i ≠ j → ev.chunkOf i = [] ∧ self'.con.uploads? i = self.con.uploads? i)
    (hj : ∀ id, id ≠ rid → j ∉ owners id) (hnodup : mine.Nodup) (hsub : owners rid ⊆ mine)
    (hnew : ∀ i ∈ mine, i = j ∨ i ∈ owners rid)
    (hbegun : ∀ i, i ∈ self'.begun ↔ i ∈ self.begun ∨ i ∈ mine)
    (hmine : List.Forall₂ (fun i q => Delivered (req i) (bodySent (evs ++ [ev]) i)
      (self'.con.uploads? i = some rid) q) mine (receivedOf rid (rs ++ rs'))) :
    Delivers req (evs ++ [ev]) self' (rs ++ rs') (Function.update owners rid mine) where
  sent := by rw [hsent, h.sent, encodeAll_append]
  delivered id := by
    by_cases hid : id = rid
    · rw [hid, Function.update_self]
      exact hmine
    · rw [Function.update_of_ne hid, receivedOf_append_other hids (Ne.symm hid)]
      have hne : ∀ i ∈ owners id, i ≠ j := fun i hi hij => hj id hid (hij ▸ hi)
      refine delivered_calls (h.delivered id) (fun i hi => ?_) fun i hi => (hother i (hne i hi)).2
      rw [bodySent_snoc, (hother i (hne i hi)).1, List.append_nil]
  nodup id := by
    by_cases hid : id = rid
    · rwa [hid, Function.update_self]
    · rw [Function.update_of_ne hid]
      exact h.nodup id
  begun i := by
    rw [hbegun, h.begun]
    constructor
    · rintro (⟨id, hi⟩ | hi)
      · by_cases hid : id = rid
        · exact ⟨rid, by rw [Function.update_self]; exact hsub (hid ▸ hi)⟩
        · exact ⟨id, by rwa [Function.update_of_ne hid]⟩
      · exact ⟨rid, by rwa [Function.update_self]⟩
    · rintro ⟨id, hi⟩
      by_cases hid : id = rid
      · rw [hid, Function.update_self] at hi
        exact Or.inr hi
      · rw [Function.update_of_ne hid] at hi
        exact Or.inl ⟨id, hi⟩
  one id id' i hi hi' := by
    -- a call with the id `rid` has no other
    have hrid : ∀ id, id ≠ rid → i ∈ mine → i ∉ owners id := by
      intro id hid hi hi'
      rcases hnew i hi with rfl | hi
      · exact hj id hid hi'
      · exact hid (h.one id rid i hi' hi)
    by_cases hid : id = rid
    · by_cases hid' : id' = rid
      · rw [hid, hid']
      · rw [hid, Function.update_self] at hi
        rw [Function.update_of_ne hid'] at hi'
        exact absurd hi' (hrid id' hid' hi)
    · rw [Function.update_of_ne hid] at hi
      by_cases hid' : id' = rid
      · rw [hid', Function.update_self] at hi'
        exact absurd hi (hrid id hid hi')
      · rw [Function.update_of_ne hid'] at hi'
        exact h.one id id' i hi hi'

/-- The same for the state of the calls. -/
theorem Accounted.wrote {max j : ℕ} {rid : UInt16} {mine : List ℕ} {call call' : Forward}
    (h : Accounted req evs self owners) (hd : Delivers req evs self rs owners)
    (hslots : Connection.Slots max self.con) (hcall : self.con.calls[j]? = some call)
    (hrid : call.rid? = some rid) (hcalls : self'.con.calls = self.con.calls.set j call')
    (hfresh : call'.Fresh = false)
    (hother : ∀ i, i ≠ j → ev.chunkOf i = [] ∧ self'.missing i = self.missing i)
    (hnew : ∀ i ∈ mine, i = j ∨ i ∈ owners rid)
    (hbegun : ∀ i, i ∈ self'.begun ↔ i ∈ self.begun ∨ i ∈ mine)
    (hup : ∀ id, call'.uploads? = some id → id = rid ∧
      ((∃ rest, mine = j :: rest) ∨ (j ∉ self'.begun ∧ mine = [])) ∧
      (j ∈ self'.begun → (bodySent (evs ++ [ev]) j).length + self'.missing j =
        (req j).len.getD 0))
    (hdone : call'.Uploaded = true → j ∈ self'.begun → (req j).rejected = false ∧
      (bodySent (evs ++ [ev]) j).length = (req j).len.getD 0) :
    Accounted req (evs ++ [ev]) self' (Function.update owners rid mine) := by
  have hback : ∀ i, i ≠ j → i ∈ self'.begun → i ∈ self.begun := by
    intro i hij hi
    rcases (hbegun i).mp hi with hi | hi
    · exact hi
    · exact (hd.begun i).mpr ⟨rid, (hnew i hi).resolve_left hij⟩
  have hbody : ∀ i, i ≠ j → bodySent (evs ++ [ev]) i = bodySent evs i := by
    intro i hij
    rw [bodySent_snoc, (hother i hij).1, List.append_nil]
  -- nobody else uploads with the id
  have honly : ∀ i, i ≠ j → self.con.uploads? i ≠ some rid := by
    intro i hij hi
    obtain ⟨call₁, hcall₁, hrid₁, -⟩ := rid_of_uploads hi
    exact hij (eq_of_rid hslots hcall₁ hcall hrid₁ hrid)
  have hcon := uploads_set hcall hcalls
  refine ⟨fun i id hi => ?_, fun i id hi hb => ?_, fun i hi => ?_, fun i call₁ hcall₁ hu hb => ?_⟩
  · rw [hcon] at hi
    split at hi
    · rename_i hij
      obtain ⟨rfl, hrest, -⟩ := hup id hi
      rw [hij, Function.update_self]
      exact hrest
    · rename_i hij
      have hid : id ≠ rid := fun hid => honly i hij (hid ▸ hi)
      rw [Function.update_of_ne hid]
      exact (h.newest i id hi).imp_right fun hno => ⟨fun hb => hno.1 (hback i hij hb), hno.2⟩
  · rw [hcon] at hi
    split at hi
    · rename_i hij
      subst hij
      exact (hup id hi).2.2 hb
    · rename_i hij
      rw [hbody i hij, (hother i hij).2]
      exact h.missing i id hi (hback i hij hb)
  · have hij : i ≠ j := by
      rintro rfl
      have hfr := hi call' (by
        rw [hcalls, List.getElem?_set_self (List.getElem?_eq_some_iff.mp hcall).1])
      rw [hfresh] at hfr
      cases hfr
    have hback' : self.con.Unbegun i := fun call₁ hcall₁ => hi call₁ (by
      rw [hcalls, List.getElem?_set_ne (Ne.symm hij), hcall₁])
    obtain ⟨hno, hnil⟩ := h.unsent i hback'
    exact ⟨fun hb => hno (hback i hij hb), (hbody i hij).trans hnil⟩
  · by_cases hij : i = j
    · subst hij
      rw [hcalls, List.getElem?_set_self (List.getElem?_eq_some_iff.mp hcall).1] at hcall₁
      cases hcall₁
      exact hdone hu hb
    · rw [hcalls, List.getElem?_set_ne (Ne.symm hij)] at hcall₁
      rw [hbody i hij]
      exact h.uploaded i call₁ hcall₁ hu (hback i hij hb)

/-! ## Steps that are not disturbed -/

/-- The call at `j` writes the records `rs`, and goes on; `ev` is what the connection does. -/
structure Advances (http : Http) (wire : Wire) (ev : Connection.Event) (j : ℕ)
    (rs : List WireRecord) (call' : Forward) (missing' : ℕ) (wire' : Wire) : Prop where
  step : wire.con.Step http ev wire'.con
  calls : wire'.con.calls = wire.con.calls.set j call'
  sent : wire'.io.io.sent = wire.io.io.sent ++ encodeAll rs
  accepting : wire'.io.io.Accepting
  missing : wire'.missing = Function.update wire.missing j missing'
  log : wire'.con.log = wire.con.log
  requests : wire'.con.inner.inner.runningRequests = wire.con.inner.inner.runningRequests

/-- What a step can do that is not disturbed. -/
inductive Proceeds (http : Http) (req : ℕ → Head) (self : Wire) : Event → Wire → Prop
  | quiet {ev con'} (hquiet : Connection.Event.Quiet ev = true) (hkeep : ∀ j, ev ≠ .cancel j)
      (hcon : self.con.Step http ev con') :
      Proceeds http req self (.quiet ev) { self with con := con' }
  | skipped {j} : Proceeds http req self (.skip j) self
  | connected {j key answer con'} (hacc : (Transport.new answer).Accepting)
      (hcon : self.con.Step http (.connect j true key) con') :
      Proceeds http req self (.connect j key answer)
        { self with con := con', io := ⟨.new answer⟩, written := [], begun := [] }
  | head {j stop rid params tail self'} (hcall : self.con.calls[j]? = some (.sending rid))
      (hparams : ∀ r ∈ params, FCGIWriter.IsParams rid r)
      (htail : FCGIWriter.HeadTail rid (req j).result tail)
      (hconveys : (req j).Conveys (params.map content).flatten)
      (hpairs : ∀ p ∈ (req j).pairs, p.Encodable)
      (hadv : self.Advances http (.head j (req j).result) j
        (FCGIWriter.headRecord rid :: (params ++ tail)) (.afterHead rid (req j).result)
        ((req j).len.getD 0) self')
      (hbegun : self'.begun = j :: self.begun) :
      Proceeds http req self (.head j stop) self'
  | chunk {j data stop rid resp rs self'}
      (hcall : self.con.calls[j]? = some (.exchanging rid .locked resp)) (hdata : data ≠ [])
      (hle : data.length ≤ self.missing j) (hrecs : FCGIWriter.ChunkRecords .stdIn rid data rs)
      (hadv : self.Advances http (.upload j .chunk) j rs (.exchanging rid .idle resp)
        (self.missing j - data.length) self')
      (hbegun : self'.begun = self.begun) :
      Proceeds http req self (.chunk j data stop) self'
  | short {j stop rid resp self'}
      (hcall : self.con.calls[j]? = some (.exchanging rid .locked resp)) (hpos : 0 < self.missing j)
      (hadv : self.Advances http (.upload j .writeFailed) j [FCGIWriter.abortRecord rid]
        (.failed rid resp) (self.missing j) self')
      (hbegun : self'.begun = self.begun) :
      Proceeds http req self (.finish j stop) self'
  | last {j stop rid resp last self'}
      (hcall : self.con.calls[j]? = some (.exchanging rid .locked resp))
      (hzero : self.missing j = 0)
      (hlast : FCGIWriter.OfStream .stdIn rid last) (hempty : last.content = [])
      (hadv : self.Advances http (.upload j .last) j [last] (.exchanging rid .done resp) 0 self')
      (hbegun : self'.begun = self.begun) :
      Proceeds http req self (.finish j stop) self'

/-- The write of a call that is not dropped, on a transport that accepts it. -/
theorem performed_whole {wr : Writing} {res : Except Fault (Except IoError (Connection.Event × ℕ))}
    (hs : self.Step http A req ev self') (hwr : self.writing? A req ev = some wr)
    (hstop : wr.stop = none) (hacc : self.io.io.Accepting)
    (hwrites : FCGIWriter.Writes wr.op (encodeAll rs) res) :
    ∃ r io con', res = .ok r ∧ io.io.sent = self.io.io.sent ++ encodeAll rs ∧ io.io.Accepting ∧
      self.con.Step http (Writing.after wr (self.missing wr.call) (.ofResult r)).1 con' ∧
      self' = self.wrote ev wr con' io (Writing.after wr (self.missing wr.call) (.ofResult r)).2 := by
  obtain ⟨out, io, con', hout, hcon, rfl⟩ := (next_stepped hs).of_writing hwr
  obtain ⟨io', hop, hsent, hacc'⟩ := hwrites.of_accepting hacc
  rw [hstop, FCGIWriter.perform, hop] at hout
  cases res with
  | error f => cases hout
  | ok r =>
    cases hout
    exact ⟨r, io, con', rfl, hsent, hacc', hcon, rfl⟩

theorem head_proceeds {j : ℕ} (hs : self.Step http A req (.head j none) self')
    (hacc : self.io.io.Accepting) : Proceeds http req self (.head j none) self' := by
  have hstepped := next_stepped hs
  cases hstepped with
  | @wrote _ wr out io con' hwr hout hcon =>
    have hwr' := hwr
    simp only [writing?] at hwr'
    split at hwr'
    · rename_i rid hcall
      cases hwr'
      obtain ⟨params, tail, res, hwrites, hparams, hres⟩ := FCGIWriter.sendHead_sends A rid (req j)
      obtain ⟨r, io', con₁, hr, hsent, hacc', ⟨eff, hnext⟩, hself⟩ :=
        performed_whole hs hwr rfl hacc (writes_map hwrites _)
      rcases hres with ⟨-, f, rfl⟩ | ⟨rfl, htail, hconveys, hpairs⟩
      · cases hr
      · cases hr
        have hcon : self.con.Step http (.head j (req j).result) con₁ := ⟨eff, hnext⟩
        rw [hself]
        simp only [Outcome.ofResult, Except.map, Writing.after, Connection.next, hcall] at hnext ⊢
        refine .head hcall hparams htail hconveys hpairs ⟨hcon, ?_, hsent, hacc', rfl, ?_, ?_⟩ rfl
        · cases hnext
          cases (req j).result <;> rfl
        · cases hnext
          rfl
        · cases hnext
          rfl
    · cases hwr'

theorem chunk_proceeds {j : ℕ} {data : Bytes} (hs : self.Step http A req (.chunk j data none) self')
    (hacc : self.io.io.Accepting) : Proceeds http req self (.chunk j data none) self' := by
  have hstepped := next_stepped hs
  cases hstepped with
  | @wrote _ wr out io con' hwr hout hcon =>
    have hwr' := hwr
    simp only [writing?] at hwr'
    split at hwr'
    · rename_i rid resp hcall
      split at hwr'
      · cases hwr'
      · rename_i hdata
        cases hwr'
        by_cases hle : data.length ≤ self.missing j
        · obtain ⟨rs, hwrites, hrecs⟩ := FCGIWriter.sendChunk_writes A rid hle
          obtain ⟨r, io', con₁, hr, hsent, hacc', ⟨eff, hnext⟩, hself⟩ :=
            performed_whole hs hwr rfl hacc (writes_map hwrites _)
          cases hr
          have hcon : self.con.Step http (.upload j .chunk) con₁ := ⟨eff, hnext⟩
          rw [hself]
          simp only [Outcome.ofResult, Except.map, Writing.after, Connection.next, hcall] at hnext ⊢
          cases hnext
          exact .chunk hcall hdata hle hrecs ⟨hcon, rfl, hsent, hacc', rfl, rfl, rfl⟩ rfl
        · -- the counter would overflow
          simp only [FCGIWriter.perform, FCGIWriter.sendChunk, if_pos (Nat.not_le.mp hle)] at hout
          cases hout
    · cases hwr'

theorem finish_proceeds {j : ℕ} (hs : self.Step http A req (.finish j none) self')
    (hacc : self.io.io.Accepting) : Proceeds http req self (.finish j none) self' := by
  have hstepped := next_stepped hs
  cases hstepped with
  | @wrote _ wr out io con' hwr hout hcon =>
    have hwr' := hwr
    simp only [writing?] at hwr'
    split at hwr'
    · rename_i rid resp hcall
      cases hwr'
      rcases Nat.eq_zero_or_pos (self.missing j) with hzero | hpos
      · obtain ⟨last, hwrites, hlast, hempty⟩ := FCGIWriter.sendEnd_last A rid
        rw [← hzero] at hwrites
        obtain ⟨r, io', con₁, hr, hsent, hacc', ⟨eff, hnext⟩, hself⟩ :=
          performed_whole hs hwr rfl hacc
            (by simpa using writes_map hwrites _ : FCGIWriter.Writes _ (encodeAll [last]) _)
        cases hr
        have hcon : self.con.Step http (.upload j .last) con₁ := ⟨eff, hnext⟩
        rw [hself]
        simp only [Outcome.ofResult, Except.map, Writing.after, Connection.next, hcall] at hnext ⊢
        cases hnext
        exact .last hcall hzero hlast hempty ⟨hcon, rfl, hsent, hacc', rfl, rfl, rfl⟩ rfl
      · obtain ⟨r, io', con₁, hr, hsent, hacc', ⟨eff, hnext⟩, hself⟩ :=
          performed_whole hs hwr rfl hacc
            (by simpa using writes_map (FCGIWriter.sendEnd_short A rid hpos) _ :
              FCGIWriter.Writes _ (encodeAll [FCGIWriter.abortRecord rid]) _)
        cases hr
        have hcon : self.con.Step http (.upload j .writeFailed) con₁ := ⟨eff, hnext⟩
        rw [hself]
        simp only [Outcome.ofResult, Except.map, Writing.after, Connection.next, hcall] at hnext ⊢
        cases hnext
        exact .short hcall hpos ⟨hcon, rfl, hsent, hacc', rfl, rfl, rfl⟩ rfl
    · cases hwr'

theorem next_proceeds (hs : self.Step http A req ev self') (hacc : self.io.io.Accepting)
    (hev : ev.Undisturbed) : Proceeds http req self ev self' := by
  cases ev with
  | head j stop =>
    obtain rfl : stop = none := hev
    exact head_proceeds hs hacc
  | chunk j data stop =>
    obtain rfl : stop = none := hev
    exact chunk_proceeds hs hacc
  | finish j stop =>
    obtain rfl : stop = none := hev
    exact finish_proceeds hs hacc
  | quiet ev =>
    have hstepped := next_stepped hs
    cases hstepped with
    | quiet hquiet hcon => exact .quiet hquiet hev hcon
    | wrote hwr => cases hwr
  | skip j =>
    have hstepped := next_stepped hs
    cases hstepped with
    | skipped => exact .skipped
    | wrote hwr => cases hwr
  | connect j key answer =>
    have hstepped := next_stepped hs
    cases hstepped with
    | connected hcon => exact .connected hev hcon
    | wrote hwr => cases hwr

theorem Proceeds.accepting (h : Proceeds http req self ev self') (hacc : self.io.io.Accepting) :
    self'.io.io.Accepting := by
  cases h with
  | quiet => exact hacc
  | skipped => exact hacc
  | connected hacc' => exact hacc'
  | head _ _ _ _ _ hadv => exact hadv.accepting
  | chunk _ _ _ _ hadv => exact hadv.accepting
  | short _ _ hadv => exact hadv.accepting
  | last _ _ _ _ hadv => exact hadv.accepting

/-! ## What is delivered -/

/-- A request whose head was sent, and whose body was not begun. -/
theorem delivered_head {head : Head} {rid : UInt16} {params tail : List WireRecord}
    (hparams : ∀ r ∈ params, FCGIWriter.IsParams rid r)
    (htail : FCGIWriter.HeadTail rid head.result tail)
    (hconveys : head.Conveys (params.map content).flatten)
    (hpairs : ∀ p ∈ head.pairs, p.Encodable) :
    Delivered head [] ((Forward.afterHead rid head.result).uploads? = some rid)
      ((params ++ tail).foldl Received.next .new) := by
  rw [List.foldl_append, Received.foldl_next_params
    (fun r hr => ⟨(hparams r hr).1.rtype, (hparams r hr).2⟩) .new rfl]
  obtain ⟨pairs, rejected, len⟩ := head
  cases rejected with
  | true =>
    obtain rfl : tail = [FCGIWriter.abortRecord rid] := htail
    rw [List.foldl_cons, List.foldl_nil, Received.next_abort (Or.inl rfl) rfl]
    exact ⟨nofun, hconveys, rfl, Nat.zero_le _, nofun, fun _ => ⟨rfl, by simp⟩⟩
  | false =>
    have hparams' : (params.map content).flatten = NameValuePair.code.encodeAll pairs := hconveys
    have hdecode : NameValuePair.code.decodeAll (params.map content).flatten = some pairs := by
      rw [hparams']
      exact Code.decodeAll_encodeAll hpairs
    cases len with
    | some n =>
      obtain ⟨stop, rfl, hstop, hempty⟩ := htail
      rw [List.foldl_cons, List.foldl_nil, Received.next_closes_params rfl ⟨hstop.rtype, hempty⟩]
      exact ⟨fun _ => hdecode, hparams' ▸ List.prefix_rfl, rfl, Nat.zero_le _,
        fun _ => ⟨rfl, rfl, rfl⟩, fun hno => absurd rfl hno⟩
    | none =>
      obtain ⟨stop, last, rfl, hstop, hempty, hlast, hlastEmpty⟩ := htail
      rw [List.foldl_cons, List.foldl_cons, List.foldl_nil,
        Received.next_closes_params rfl ⟨hstop.rtype, hempty⟩,
        Received.next_closes_stdIn rfl ⟨hlast.rtype, hlastEmpty⟩]
      exact ⟨fun _ => hdecode, hparams' ▸ List.prefix_rfl, rfl, Nat.zero_le _, nofun,
        fun _ => ⟨rfl, by simp [Received.new]⟩⟩

/-- A request without a body is uploaded with its head. -/
theorem uploaded_afterHead {head : Head} {rid : UInt16}
    (h : (Forward.afterHead rid head.result).Uploaded = true) :
    head.rejected = false ∧ head.len = none := by
  obtain ⟨pairs, rejected, len⟩ := head
  cases rejected with
  | true => cases h
  | false =>
    cases len with
    | some n => cases h
    | none => exact ⟨rfl, rfl⟩

/-- A chunk of the body. -/
theorem Delivered.chunk {head : Head} {body data : Bytes} {rid : UInt16} {q : Received}
    {uploading uploading' : Prop} (h : Delivered head body uploading q) (hup : uploading)
    (hup' : uploading') (hdata : data ≠ []) (hrecs : FCGIWriter.ChunkRecords .stdIn rid data rs)
    (hle : body.length + data.length ≤ head.len.getD 0) :
    Delivered head (body ++ data) uploading' (rs.foldl Received.next q) := by
  obtain ⟨hphase, haborted, hrejected⟩ := h.open_ hup
  rw [Received.foldl_next_stdIn
    (fun r hr => ⟨(hrecs.ofStream r hr).rtype, hrecs.nonempty hdata r hr⟩) q hphase, hrecs.contents]
  exact ⟨h.pairs, h.part, by rw [h.stdin], by rwa [List.length_append],
    fun _ => ⟨hphase, haborted, hrejected⟩, fun hno => absurd hup' hno⟩

/-- ABORT_REQUEST. -/
theorem Delivered.short {head : Head} {body : Bytes} {rid : UInt16} {q : Received}
    {uploading uploading' : Prop} (h : Delivered head body uploading q) (hup : uploading)
    (hup' : ¬ uploading') (hlt : body.length < head.len.getD 0) :
    Delivered head body uploading' ([FCGIWriter.abortRecord rid].foldl Received.next q) := by
  obtain ⟨hphase, -, -⟩ := h.open_ hup
  rw [List.foldl_cons, List.foldl_nil, Received.next_abort (Or.inr hphase) rfl]
  exact ⟨h.pairs, h.part, h.stdin, h.within, fun hin => absurd hin hup',
    fun _ => ⟨rfl, by simp [hlt]⟩⟩

/-- The end of STDIN. -/
theorem Delivered.last {head : Head} {body : Bytes} {rid : UInt16} {q : Received}
    {last : WireRecord} {uploading uploading' : Prop} (h : Delivered head body uploading q)
    (hup : uploading) (hup' : ¬ uploading') (hlast : FCGIWriter.OfStream .stdIn rid last)
    (hempty : last.content = []) (heq : body.length = head.len.getD 0) :
    Delivered head body uploading' ([last].foldl Received.next q) := by
  obtain ⟨hphase, haborted, hrejected⟩ := h.open_ hup
  rw [List.foldl_cons, List.foldl_nil, Received.next_closes_stdIn hphase ⟨hlast.rtype, hempty⟩]
  exact ⟨h.pairs, h.part, h.stdin, h.within, fun hin => absurd hin hup',
    fun _ => ⟨rfl, by simp [haborted, hrejected, heq]⟩⟩

/-! ## Steps of the calls -/

/-- A call that was not begun writes the head of its request. -/
theorem Delivers.head {max j : ℕ} {rid : UInt16} {params tail : List WireRecord} {stop : Option ℕ}
    (h : Delivers req evs self rs owners) (ha : Accounted req evs self owners)
    (hslots : Connection.Slots max self.con) (hcall : self.con.calls[j]? = some (.sending rid))
    (hparams : ∀ r ∈ params, FCGIWriter.IsParams rid r)
    (htail : FCGIWriter.HeadTail rid (req j).result tail)
    (hconveys : (req j).Conveys (params.map content).flatten)
    (hpairs : ∀ p ∈ (req j).pairs, p.Encodable)
    {cev : Connection.Event}
    (hadv : self.Advances http cev j (FCGIWriter.headRecord rid :: (params ++ tail))
      (.afterHead rid (req j).result) ((req j).len.getD 0) self')
    (hbegun : self'.begun = j :: self.begun) :
    ∃ rs, Delivers req (evs ++ [.head j stop]) self' rs
        (Function.update owners rid (j :: owners rid)) ∧
      Accounted req (evs ++ [.head j stop]) self'
        (Function.update owners rid (j :: owners rid)) := by
  have hfresh : self.con.Unbegun j := fun call hcall' => by
    cases hcall.symm.trans hcall'
    rfl
  obtain ⟨hno, hbody⟩ := ha.unsent j hfresh
  have hids : ∀ r ∈ params ++ tail, r.requestId = rid := fun r hr =>
    (List.mem_append.mp hr).elim (fun hr => (hparams r hr).1.requestId) (htail.requestId r)
  have hall : ∀ r ∈ FCGIWriter.headRecord rid :: (params ++ tail), r.requestId = rid :=
    List.forall_mem_cons.mpr ⟨rfl, hids⟩
  have hbegin : ∀ r ∈ params ++ tail, r.rtype ≠ .beginRequest := fun r hr =>
    (List.mem_append.mp hr).elim (fun hr => by simp [(hparams r hr).1.rtype]) (htail.ne_begin r)
  have hup := uploads_set hcall hadv.calls
  have hother : ∀ i, i ≠ j → (Event.head j stop).chunkOf i = [] ∧
      self'.con.uploads? i = self.con.uploads? i := fun i hij => ⟨rfl, by rw [hup, if_neg hij]⟩
  have hnot : ∀ id, j ∉ owners id := fun id hj => hno ((h.begun j).mpr ⟨id, hj⟩)
  have hne : ∀ i ∈ owners rid, i ≠ j := fun i hi hij => hnot rid (hij ▸ hi)
  have hbodies : ∀ i, bodySent (evs ++ [.head j stop]) i = bodySent evs i := fun i => by
    rw [bodySent_snoc]
    exact List.append_nil _
  have hmem : ∀ i, i ∈ self'.begun ↔ i ∈ self.begun ∨ i ∈ j :: owners rid := fun i => by
    rw [hbegun, List.mem_cons, List.mem_cons]
    have hold : i ∈ owners rid → i ∈ self.begun := fun hi => (h.begun i).mpr ⟨rid, hi⟩
    tauto
  have hnew : ∀ i ∈ j :: owners rid, i = j ∨ i ∈ owners rid := fun i hi => List.mem_cons.mp hi
  refine ⟨_, h.wrote hadv.sent hall hother
    (fun id _ => hnot id) (List.nodup_cons.mpr ⟨hnot rid, h.nodup rid⟩)
    (List.subset_cons_self _ _) hnew hmem ?_,
    ha.wrote h hslots hcall rfl hadv.calls ?_ (fun i hij => ⟨rfl, ?_⟩) hnew hmem ?_ ?_⟩
  · rw [receivedOf_append, ofId_eq_self hall, List.foldl_cons,
      Received.arrive_begin rfl, Received.foldl_arrive hbegin]
    refine .cons ?_ (delivered_calls (h.delivered rid) (fun i _ => hbodies i)
      fun i hi => (hother i (hne i hi)).2)
    rw [hbodies, hbody, hup, if_pos rfl]
    exact delivered_head hparams htail hconveys hpairs
  · cases (req j).result <;> rfl
  · rw [hadv.missing, Function.update_of_ne hij]
  · intro id hid
    obtain rfl : id = rid := by
      cases hres : (req j).result <;> rw [hres] at hid <;> cases hid
      rfl
    refine ⟨rfl, Or.inl ⟨_, rfl⟩, fun _ => ?_⟩
    rw [hbodies, hbody, hadv.missing, Function.update_self]
    exact Nat.zero_add _
  · intro hdone _
    rw [hbodies, hbody]
    obtain ⟨hrejected, hlen⟩ := uploaded_afterHead hdone
    exact ⟨hrejected, by rw [hlen]; rfl⟩

/-- A call writes records of its body, or what is behind it. What `hq` and `hdone` say of the
request holds if it was begun on the present transport. -/
theorem Delivers.upload {max j : ℕ} {rid : UInt16} {resp : Option CreateResponse} {call' : Forward}
    {missing' : ℕ} {cev : Connection.Event} (h : Delivers req evs self rs owners)
    (ha : Accounted req evs self owners) (hslots : Connection.Slots max self.con)
    (hcall : self.con.calls[j]? = some (.exchanging rid .locked resp))
    (hadv : self.Advances http cev j rs' call' missing' self') (hbegun : self'.begun = self.begun)
    (hids : ∀ r ∈ rs', r.requestId = rid) (hbegin : ∀ r ∈ rs', r.rtype ≠ .beginRequest)
    (hchunk : ∀ i, i ≠ j → ev.chunkOf i = []) (hfresh : call'.Fresh = false)
    (hid : ∀ id, call'.uploads? = some id → id = rid)
    (hq : ∀ q, (bodySent evs j).length + self.missing j = (req j).len.getD 0 →
      Delivered (req j) (bodySent evs j) True q →
      Delivered (req j) (bodySent evs j ++ ev.chunkOf j) (call'.uploads? = some rid)
          (rs'.foldl Received.next q) ∧
        (call'.uploads? = some rid →
          (bodySent evs j ++ ev.chunkOf j).length + missing' = (req j).len.getD 0) ∧
        (call'.Uploaded = true →
          (bodySent evs j ++ ev.chunkOf j).length = (req j).len.getD 0)) :
    ∃ rs, Delivers req (evs ++ [ev]) self' rs owners ∧
      Accounted req (evs ++ [ev]) self' owners := by
  have hj : self.con.uploads? j = some rid := by
    rw [Connection.uploads?, hcall]
    rfl
  have hup := uploads_set hcall hadv.calls
  have hother : ∀ i, i ≠ j → ev.chunkOf i = [] ∧ self'.con.uploads? i = self.con.uploads? i :=
    fun i hij => ⟨hchunk i hij, by rw [hup, if_neg hij]⟩
  have hmem : ∀ i, i ∈ self'.begun ↔ i ∈ self.begun ∨ i ∈ owners rid := fun i => by
    rw [hbegun]
    have hold : i ∈ owners rid → i ∈ self.begun := fun hi => (h.begun i).mpr ⟨rid, hi⟩
    tauto
  have hsame : ∀ i, i ≠ j → ev.chunkOf i = [] ∧ self'.missing i = self.missing i := fun i hij =>
    ⟨hchunk i hij, by rw [hadv.missing, Function.update_of_ne hij]⟩
  have hmissing : self'.missing j = missing' := by rw [hadv.missing, Function.update_self]
  rw [← Function.update_eq_self rid owners]
  rcases ha.newest j rid hj with ⟨rest, hrest⟩ | ⟨hno, hnil⟩
  · have hown : j ∈ owners rid := hrest ▸ List.mem_cons_self
    have hnot : ∀ id, id ≠ rid → j ∉ owners id := fun id hne hmem => hne (h.one id rid j hmem hown)
    have hold := h.delivered rid
    have hnodup := h.nodup rid
    rw [hrest] at hold hnodup
    obtain ⟨q, qs, hdel, hdels, hqs⟩ := List.forall₂_cons_left_iff.mp hold
    obtain ⟨hdel', hmissing', hdone⟩ := hq q
      (ha.missing j rid hj ((h.begun j).mpr ⟨rid, hown⟩)) (by rwa [eq_true hj] at hdel)
    refine ⟨_, h.wrote hadv.sent hids hother hnot (h.nodup rid) (List.Subset.refl _)
      (fun i hi => Or.inr hi) hmem ?_,
      ha.wrote h hslots hcall rfl hadv.calls hfresh hsame (fun i hi => Or.inr hi) hmem ?_ ?_⟩
    · rw [receivedOf_append, ofId_eq_self hids, hqs, Received.foldl_arrive hbegin, hrest]
      have hne : ∀ i ∈ rest, i ≠ j := fun i hi hij => (List.nodup_cons.mp hnodup).1 (hij ▸ hi)
      refine .cons ?_ (delivered_calls hdels (fun i hi => ?_) fun i hi => (hother i (hne i hi)).2)
      · rwa [bodySent_snoc, hup, if_pos rfl]
      · rw [bodySent_snoc, hchunk i (hne i hi), List.append_nil]
    · intro id hid'
      obtain rfl := hid id hid'
      refine ⟨rfl, Or.inl ⟨rest, hrest⟩, fun _ => ?_⟩
      rw [bodySent_snoc, hmissing]
      exact hmissing' hid'
    · intro hu _
      rw [bodySent_snoc]
      exact ⟨(hdel.open_ hj).2.2, hdone hu⟩
  · -- a call that began its request on an earlier transport
    have hnot : ∀ id, j ∉ owners id := fun id hmem => hno ((h.begun j).mpr ⟨id, hmem⟩)
    have hnone : receivedOf rid rs = [] := List.forall₂_nil_left_iff.mp (hnil ▸ h.delivered rid)
    have hno' : j ∉ self'.begun := hbegun ▸ hno
    refine ⟨_, h.wrote hadv.sent hids hother (fun id _ => hnot id) (h.nodup rid)
      (List.Subset.refl _) (fun i hi => Or.inr hi) hmem ?_,
      ha.wrote h hslots hcall rfl hadv.calls hfresh hsame (fun i hi => Or.inr hi) hmem
        (fun id hid' => ⟨hid id hid', Or.inr ⟨hno', hnil⟩, fun hb => absurd hb hno'⟩)
        fun _ hb => absurd hb hno'⟩
    rw [receivedOf_append, ofId_eq_self hids, hnone, Received.foldl_arrive_nil hbegin, hnil]
    exact .nil

theorem turn_uploaded_back {ev : Connection.Event} {call call' : Forward}
    (h : Forward.Turn ev call call') (hhead : ∀ j res, ev ≠ .head j res)
    (hupload : ∀ j res, ev ≠ .upload j res) (hu : call'.Uploaded = true) :
    call.Uploaded = true := by
  cases h with
  | head => exact absurd rfl (hhead _ _)
  | upload => exact absurd rfl (hupload _ _)
  | @respond _ _ _ _ upload => cases upload <;> first | rfl | cases hu
  | finish => rfl
  | read => rfl
  | _ => cases hu

theorem uploaded_back {con con' : Connection} {ev : Connection.Event} {j : ℕ} {call' : Forward}
    (hcon : con.Step http ev con') (hhead : ∀ j res, ev ≠ .head j res)
    (hupload : ∀ j res, ev ≠ .upload j res) (hcall' : con'.calls[j]? = some call')
    (hu : call'.Uploaded = true) :
    ∃ call, con.calls[j]? = some call ∧ call.Uploaded = true := by
  obtain ⟨eff, hnext⟩ := hcon
  rcases Connection.next_turn hnext with ⟨-, hcalls⟩ | ⟨i, call₀, call₁, -, hcall₀, hcalls, hturn⟩
  · rw [hcalls, List.getElem?_append] at hcall'
    split at hcall'
    · exact ⟨call', hcall', hu⟩
    · rw [List.mem_singleton.mp (List.mem_of_getElem? hcall')] at hu
      cases hu
  · by_cases hij : i = j
    · subst hij
      rw [hcalls, List.getElem?_set_self (List.getElem?_eq_some_iff.mp hcall₀).1] at hcall'
      cases hcall'
      exact ⟨call₀, hcall₀, turn_uploaded_back hturn hhead hupload hu⟩
    · rw [hcalls, List.getElem?_set_ne hij] at hcall'
      exact ⟨call', hcall', hu⟩

/-- A step without a write. -/
theorem Accounted.same {ev' : Connection.Event} {con' : Connection}
    (h : Accounted req evs self owners) (hev : ∀ j, ev.chunkOf j = [])
    (hcon : self.con.Step http ev' con') (hhead : ∀ j res, ev' ≠ .head j res)
    (hupload : ∀ j res, ev' ≠ .upload j res) (hkeep : ∀ j, ev' ≠ .cancel j) :
    Accounted req (evs ++ [ev]) { self with con := con' } owners := by
  have hup : ∀ j, con'.uploads? j = self.con.uploads? j := by
    obtain ⟨eff, hnext⟩ := hcon
    exact Connection.uploads_next hnext hhead hupload hkeep
  have hbody : ∀ j, bodySent (evs ++ [ev]) j = bodySent evs j := fun j => by
    rw [bodySent_snoc, hev, List.append_nil]
  refine ⟨fun j id hj => h.newest j id (hup j ▸ hj), fun j id hj hb => ?_, fun j hj => ?_,
    fun j call' hcall' hu hb => ?_⟩
  · rw [hbody]
    exact h.missing j id (hup j ▸ hj) hb
  · obtain ⟨eff, hnext⟩ := hcon
    rw [hbody]
    exact h.unsent j (Connection.Unbegun.back hnext hj)
  · obtain ⟨call, hcall, hu'⟩ := uploaded_back hcon hhead hupload hcall' hu
    rw [hbody]
    exact h.uploaded j call hcall hu' hb

/-- A new transport, to which nobody wrote. -/
theorem Accounted.connected {ev' : Connection.Event} {con' : Connection} {io : FCGIWriter}
    (h : Accounted req evs self owners) (hev : ∀ j, ev.chunkOf j = [])
    (hcon : self.con.Step http ev' con') :
    Accounted req (evs ++ [ev]) { self with con := con', io := io, written := [], begun := [] }
      fun _ => [] where
  newest _ _ _ := Or.inr ⟨List.not_mem_nil, rfl⟩
  missing _ _ _ hb := absurd hb List.not_mem_nil
  unsent j hj := by
    obtain ⟨eff, hnext⟩ := hcon
    refine ⟨List.not_mem_nil, ?_⟩
    rw [bodySent_snoc, hev, List.append_nil]
    exact (h.unsent j (Connection.Unbegun.back hnext hj)).2
  uploaded _ _ _ _ hb := absurd hb List.not_mem_nil

/-- The calls with each id, behind an event. -/
def ownersAfter (self : Wire) (ev : Event) (owners : UInt16 → List ℕ) : UInt16 → List ℕ :=
  match ev with
  | .connect _ _ _ => fun _ => []
  | .head j _ =>
    match self.con.calls[j]? with
    | some (.sending rid) => Function.update owners rid (j :: owners rid)
    | _ => owners
  | _ => owners

/-- One step: what it adds to the requests of the calls. -/
theorem Delivers.step {max : ℕ} (h : Delivers req evs self rs owners)
    (ha : Accounted req evs self owners) (hslots : Connection.Slots max self.con)
    (hp : Proceeds http req self ev self') :
    ∃ rs, Delivers req (evs ++ [ev]) self' rs (self.ownersAfter ev owners) ∧
      Accounted req (evs ++ [ev]) self' (self.ownersAfter ev owners) := by
  cases hp with
  | @quiet ev con' hquiet hkeep hcon =>
    have hhead : ∀ j res, ev ≠ .head j res := by
      rintro j res rfl
      cases hquiet
    have hupload : ∀ j res, ev ≠ .upload j res := by
      rintro j res rfl
      cases hquiet
    refine ⟨rs, h.same (fun _ => rfl) ?_, ha.same (fun _ => rfl) hcon hhead hupload hkeep⟩
    obtain ⟨eff, hnext⟩ := hcon
    exact Connection.uploads_next hnext hhead hupload hkeep
  | skipped =>
    have hbody : ∀ j i, bodySent (evs ++ [.skip j]) i = bodySent evs i := fun j i => by
      rw [bodySent_snoc]
      exact List.append_nil _
    refine ⟨rs, h.same (fun _ => rfl) fun _ => rfl, ha.newest, ?_, ?_, ?_⟩
    · simpa only [hbody] using ha.missing
    · simpa only [hbody] using ha.unsent
    · simpa only [hbody] using ha.uploaded
  | connected hacc hcon => exact ⟨[], delivers_new rfl rfl, ha.connected (fun _ => rfl) hcon⟩
  | head hcall hparams htail hconveys hpairs hadv hbegun =>
    rw [ownersAfter, hcall]
    exact h.head ha hslots hcall hparams htail hconveys hpairs hadv hbegun
  | @chunk j data stop rid resp rs' _ hcall hdata hle hrecs hadv hbegun =>
    have hchunk : (Event.chunk j data stop).chunkOf j = data := if_pos rfl
    refine h.upload ha hslots hcall hadv hbegun (fun r hr => (hrecs.ofStream r hr).requestId)
      (fun r hr => by simp [(hrecs.ofStream r hr).rtype]) (fun i hij => if_neg (Ne.symm hij)) rfl
      (fun id hid => (Option.some.inj hid).symm) fun q hlen hdel => ?_
    rw [hchunk, List.length_append]
    exact ⟨hdel.chunk trivial rfl hdata hrecs (by omega), fun _ => by omega,
      fun hu => (by cases hu)⟩
  | short hcall hpos hadv hbegun =>
    refine h.upload ha hslots hcall hadv hbegun (by simp [FCGIWriter.abortRecord])
      (by simp [FCGIWriter.abortRecord]) (fun _ _ => rfl) rfl (fun id hid => by cases hid)
      fun q hlen hdel => ?_
    rw [show ∀ j stop, (Event.finish j stop).chunkOf j = [] from fun _ _ => rfl, List.append_nil]
    exact ⟨hdel.short trivial (fun h => by cases h) (by omega), fun hup => (by cases hup),
      fun hu => (by cases hu)⟩
  | last hcall hzero hlast hempty hadv hbegun =>
    refine h.upload ha hslots hcall hadv hbegun (by simp [hlast.requestId])
      (by simp [hlast.rtype]) (fun _ _ => rfl) rfl (fun id hid => by cases hid)
      fun q hlen hdel => ?_
    rw [show ∀ j stop, (Event.finish j stop).chunkOf j = [] from fun _ _ => rfl, List.append_nil]
    exact ⟨hdel.last trivial (fun h => by cases h) hlast hempty (by omega), fun hup => (by cases hup),
      fun _ => by omega⟩

/-- A run from a new connection. -/
theorem accounted_run {maxReqPerCon : UInt16} {answer : ℕ → WriteAnswer} {wire : Wire}
    (hrun : Runs http A req maxReqPerCon answer evs wire)
    (hacc : (Transport.new answer).Accepting) (hevs : ∀ ev ∈ evs, ev.Undisturbed) :
    ∃ rs owners, Delivers req evs wire rs owners ∧ Accounted req evs wire owners := by
  have hinv : Connection.Settled maxReqPerCon.toNat wire.con ∧ wire.io.io.Accepting ∧
      ∃ rs owners, Delivers req evs wire rs owners ∧ Accounted req evs wire owners := by
    induction hrun with
    | nil =>
      refine ⟨settled_connect _ _, hacc, [], _, delivers_new rfl rfl, fun j id hj => ?_,
        fun _ _ _ hb => absurd hb List.not_mem_nil, fun _ _ => ⟨List.not_mem_nil, rfl⟩,
        fun _ _ _ _ hb => absurd hb List.not_mem_nil⟩
      exact Or.inr ⟨List.not_mem_nil, rfl⟩
    | snoc _ hs ih =>
      obtain ⟨hsettled, hacc', rs, owners, hd, ha⟩ :=
        ih fun ev hev => hevs ev (List.mem_append_left _ hev)
      have hp := next_proceeds hs hacc' (hevs _ (by simp))
      obtain ⟨rs', hstep⟩ := hd.step ha hsettled.slots hp
      exact ⟨settled_step maxReqPerCon.toNat_lt hsettled hs, hp.accepting hacc', rs', _, hstep⟩
  exact hinv.2.2

/-- **The application receives the requests of the calls.** At any moment of a run of any number
of calls, in which no call is dropped and no write fails, the bytes on the present transport are
records, and taken apart by their ids they are the requests of the calls that began one there,
each exactly once: with its pairs, with the bytes of its body that were written so far, and over
or aborted if and only if its call got that far. -/
theorem delivers_run {maxReqPerCon : UInt16} {answer : ℕ → WriteAnswer} {wire : Wire}
    (hrun : Runs http A req maxReqPerCon answer evs wire)
    (hacc : (Transport.new answer).Accepting) (hevs : ∀ ev ∈ evs, ev.Undisturbed) :
    ∃ rs owners, Delivers req evs wire rs owners := by
  obtain ⟨rs, owners, hd, -⟩ := accounted_run hrun hacc hevs
  exact ⟨rs, owners, hd⟩

/-- A call that finished its upload was received as a whole. -/
theorem Delivers.uploaded {wire : Wire} {owners : UInt16 → List ℕ}
    (hd : Delivers req evs wire rs owners) (ha : Accounted req evs wire owners) {j : ℕ}
    {call : Forward} (hcall : wire.con.calls[j]? = some call) (hu : call.Uploaded = true)
    (hj : j ∈ wire.begun) :
    (req j).rejected = false ∧ ∃ id, ∃ q ∈ receivedOf id rs,
      NameValuePair.code.decodeAll q.params = some (req j).pairs ∧ q.stdin = bodySent evs j ∧
      q.stdin.length = (req j).len.getD 0 ∧ q.phase = .over ∧ q.aborted = false := by
  obtain ⟨hrejected, hlen⟩ := ha.uploaded j call hcall hu hj
  obtain ⟨id, hid⟩ := (hd.begun j).mp hj
  obtain ⟨i, hi, hget⟩ := List.getElem_of_mem hid
  have hi' : i < (receivedOf id rs).length := (hd.delivered id).length_eq ▸ hi
  have hdel := (List.forall₂_iff_get.mp (hd.delivered id)).2 i hi hi'
  simp only [List.get_eq_getElem, hget] at hdel
  have hno : ¬ wire.con.uploads? j = some id := by
    intro hup
    obtain ⟨call', hcall', -, hup'⟩ := rid_of_uploads hup
    cases hcall.symm.trans hcall'
    cases call with
    | exchanging rid upload resp =>
      cases upload with
      | done => cases hup'
      | _ => cases hu
    | _ => cases hup'
  obtain ⟨hphase, habort⟩ := hdel.done hno
  refine ⟨hrejected, id, _, List.getElem_mem hi', hdel.pairs hrejected, hdel.stdin, ?_, hphase, ?_⟩
  · rw [hdel.stdin, hlen]
  · rw [← Bool.not_eq_true, habort, hrejected, hlen]
    simp

/-- A call that writes a request with a body of one byte. -/
def postEvents : List Event :=
  [.quiet .acquire, .quiet (.lock 0), .quiet (.check 0 .pending 7 0), .head 0 none,
    .quiet (.uploadLock 0), .chunk 0 [65] none, .quiet (.uploadLock 0), .finish 0 none]

theorem postEvents_undisturbed : ∀ ev ∈ postEvents, ev.Undisturbed := by
  simp [postEvents, Event.Undisturbed]

theorem runs_postEvents : ∃ wire call,
    Runs (onlyBlock []) zeroed (fun _ => post) 1 (fun _ => .accepts 0) postEvents wire ∧
      wire.con.calls[0]? = some call ∧ call.Uploaded = true ∧ 0 ∈ wire.begun := by
  have hcons : (((replay (Connection.tick (onlyBlock [])) (.connect 1)
      [.acquire, .lock 0, .check 0 .pending 7 0]).bind fun c =>
        (c.tick (onlyBlock []) (.head 0 post.result)).bind fun c =>
          (replay (Connection.tick (onlyBlock [])) c [.uploadLock 0]).bind fun c =>
            (c.tick (onlyBlock []) (.upload 0 .chunk)).bind fun c =>
              (replay (Connection.tick (onlyBlock [])) c [.uploadLock 0]).bind fun c =>
                c.tick (onlyBlock []) (.upload 0 .last)).bind fun c =>
                  c.calls[0]?.map Forward.Uploaded) = some true := by
    decide +kernel
  obtain ⟨c₆, hc, hcall⟩ := Option.bind_eq_some_iff.mp hcons
  obtain ⟨call, hcall, hu⟩ := Option.map_eq_some_iff.mp hcall
  obtain ⟨c₁, h₁, hc⟩ := Option.bind_eq_some_iff.mp hc
  obtain ⟨c₂, h₂, hc⟩ := Option.bind_eq_some_iff.mp hc
  obtain ⟨c₃, h₃, hc⟩ := Option.bind_eq_some_iff.mp hc
  obtain ⟨c₄, h₄, hc⟩ := Option.bind_eq_some_iff.mp hc
  obtain ⟨c₅, h₅, h₆⟩ := Option.bind_eq_some_iff.mp hc
  have hacc : (Transport.new fun _ => .accepts 0).Accepting := fun _ => ⟨0, rfl⟩
  have htick := @Connection.step_of_tick (onlyBlock [])
  have hrun₁ := @quiet_run (onlyBlock []) zeroed (fun _ => post) (connect 1 fun _ => .accepts 0) _ c₁
    (run_of_replay htick _ h₁) (by decide)
  obtain ⟨rs₁, w₂, hs₂, hg₂⟩ := @head_goes (onlyBlock []) zeroed (fun _ => post)
    { connect 1 fun _ => .accepts 0 with con := c₁ } 0 hacc post_fits _ (htick _ _ _ h₂)
  have hbegun₂ : 0 ∈ w₂.begun := by
    have hp := next_proceeds hs₂ hacc rfl
    cases hp with
    | head _ _ _ _ _ _ hbegun => exact hbegun ▸ List.mem_cons_self
  obtain rfl := hg₂.con
  have hrun₃ := @quiet_run (onlyBlock []) zeroed (fun _ => post) w₂ _ c₃
    (run_of_replay htick _ h₃) (by decide)
  obtain ⟨rs₂, w₄, hs₄, -, -, hg₄⟩ := @chunk_goes (onlyBlock []) zeroed (fun _ => post)
    { w₂ with con := c₃ } 0 [65] hg₂.accepting nofun (by simp [hg₂.missing, post]) _
    (htick _ _ _ h₄)
  have hbegun₄ : 0 ∈ w₄.begun := by
    have hp := next_proceeds hs₄ hg₂.accepting rfl
    cases hp with
    | chunk _ _ _ _ _ hbegun => exact hbegun ▸ hbegun₂
  obtain rfl := hg₄.con
  have hrun₅ := @quiet_run (onlyBlock []) zeroed (fun _ => post) w₄ _ c₅
    (run_of_replay htick _ h₅) (by decide)
  obtain ⟨rs₃, w₆, hs₆, hg₆⟩ := @finish_goes (onlyBlock []) zeroed (fun _ => post)
    { w₄ with con := c₅ } 0 hg₄.accepting (by simp [hg₄.missing, hg₂.missing, post]) _
    (htick _ _ _ h₆)
  have hbegun₆ : 0 ∈ w₆.begun := by
    have hp := next_proceeds hs₆ hg₄.accepting rfl
    cases hp with
    | short _ _ _ hbegun => exact hbegun ▸ hbegun₄
    | last _ _ _ _ _ hbegun => exact hbegun ▸ hbegun₄
  obtain rfl := hg₆.con
  exact ⟨w₆, call,
    .snoc ((Run.snoc ((Run.snoc hrun₁ hs₂).append hrun₃) hs₄).append hrun₅) hs₆, hcall, hu, hbegun₆⟩

/-- One request with a body. -/
theorem delivers_run_post : ∃ wire rs owners,
    Runs (onlyBlock []) zeroed (fun _ => post) 1 (fun _ => .accepts 0) postEvents wire ∧
      0 ∈ wire.begun ∧ Delivers (fun _ => post) postEvents wire rs owners := by
  obtain ⟨wire, call, hrun, -, -, hj⟩ := runs_postEvents
  obtain ⟨rs, owners, hd⟩ := delivers_run hrun (fun _ => ⟨0, rfl⟩) postEvents_undisturbed
  exact ⟨wire, rs, owners, hrun, hj, hd⟩

end Wire

end AsyncFcgi
