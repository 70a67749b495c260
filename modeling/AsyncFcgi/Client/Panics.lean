import AsyncFcgi.Client.Slots

/-!
# What panics (`src/client/connection.rs`)

`forward`, `poll_frame` and the drop of a body index the table of requests, unwrap the oldest
buffer of one, subtract from ids and expect header names to be valid. The records themselves are
parsed on the way, by a parser that panics at what it does not know.

* `pollResp_error_iff`: what the requests are has no part in a panic of `poll_resp`.
* `RecordReader.read_error`: the parser panics at types and contents only.
* `Slots.faults_iff`, `next_error_iff`: nothing else panics.
-/

namespace AsyncFcgi

open Lib

section HeaderBlocks

variable {http : Http}

theorem insertHeaders_returns (headers : List (Bytes × Bytes)) : ∀ headerMap : HeaderMap,
    (∀ header ∈ headers, (http.headerName header.1).isSome) →
    ∃ headerMap', insertHeaders http headerMap headers = .ok headerMap' := by
  induction headers with
  | nil => exact fun headerMap _ => ⟨headerMap, rfl⟩
  | cons header headers ih =>
    intro headerMap hnames
    obtain ⟨name, hname⟩ := Option.isSome_iff_exists.mp (hnames header List.mem_cons_self)
    rw [insertHeaders, hname]
    exact ih _ fun h hh => hnames h (List.mem_cons_of_mem _ hh)

/-- The names `httparse` returns are valid, and the offset is within the bytes. -/
theorem parse_returns (hs : http.PrefixStable) (bytes : Bytes) (headerMap : HeaderMap) :
    ∃ res headerMap', parse http bytes headerMap = .ok (res, headerMap') := by
  unfold parse
  cases hp : http.parseHeaders maxHeaders bytes with
  | error e => exact ⟨_, _, rfl⟩
  | ok status =>
    cases status with
    | more => exact ⟨_, _, rfl⟩
    | complete pos headers =>
      obtain ⟨headerMap', hmap⟩ :=
        insertHeaders_returns headers headerMap (hs.headerName_isSome hp)
      have hadv : advance bytes pos = .ok (bytes.drop pos) := if_pos (hs.pos_le hp)
      simp only [hmap, hadv, ok_bind]
      exact ⟨_, _, rfl⟩

theorem CreateResponse.receive_returns (hs : http.PrefixStable) (fcgibody : FCGIBody)
    (left : Option Bytes) (rheaders : HeaderMap) (b : Bytes) :
    ∃ resp, receive http fcgibody left rheaders b = .ok resp := by
  obtain ⟨res, rheaders', hparse⟩ := parse_returns hs (left.getD [] ++ b) rheaders
  simp only [receive, hparse, ok_bind]
  cases res with
  | ok bodydata =>
    simp only
    split <;> exact ⟨_, rfl⟩
  | pending => exact ⟨_, rfl⟩
  | err => exact ⟨_, rfl⟩

end HeaderBlocks

/-! ## The parser -/

/-- The byte is no record type, or `parse_body` does not take the content. -/
def Fault.OfRecord (f : Fault) : Prop :=
  (∃ o, RecordType.tryFrom o = .error f) ∨
    ∃ payload ptype, Record.parseBody payload ptype = .error f

namespace RecordReader

variable {f : Fault}

/-- The header is there when it is parsed. -/
theorem parse_error {data : Bytes} (hlen : 8 ≤ data.length) (h : Header.parse data = .error f) :
    f.OfRecord := by
  match data, hlen with
  | version :: ty :: id₁ :: id₀ :: len₁ :: len₀ :: pad :: reserved :: rest, _ =>
    cases hty : RecordType.tryFrom ty with
    | error e =>
      simp only [Header.parse, getU8, ok_bind, hty] at h
      cases h
      exact Or.inl ⟨ty, hty⟩
    | ok rtype =>
      simp [Header.parse, getU8, getU16, advance, hty] at h

theorem deliver_error {header : Header} {bodyLen : ℕ} {current : Option Header} {data : Bytes}
    (hlen : bodyLen ≤ data.length) (h : deliver header bodyLen current data = .error f) :
    f.OfRecord := by
  have hslice : slice data 0 bodyLen = .ok (data.take bodyLen) := by simp [slice, hlen]
  simp only [deliver, hslice, advance_of_le hlen, ok_bind] at h
  split at h
  · split at h
    · cases h
    · cases hbody : Record.parseBody (data.take bodyLen) header.rtype with
      | error e =>
        rw [hbody] at h
        cases h
        exact Or.inr ⟨_, _, hbody⟩
      | ok body => simp [hbody] at h
  · rename_i hpad
    rw [advance_of_le (Nat.not_lt.mp hpad), ok_bind] at h
    cases hbody : Record.parseBody (data.take bodyLen) header.rtype with
    | error e =>
      rw [hbody] at h
      cases h
      exact Or.inr ⟨_, _, hbody⟩
    | ok body => simp [hbody] at h

/-- The reader never goes past the end of what it has. -/
theorem read_error {self : RecordReader} {data : Bytes} (h : self.read data = .error f) :
    f.OfRecord := by
  have hbody : ∀ {header : Header} {data : Bytes}, readBody header data = .error f →
      f.OfRecord := by
    intro header data h
    simp only [readBody] at h
    split at h
    · split at h
      · cases h
      · exact deliver_error le_rfl h
    · exact deliver_error (by omega) h
  unfold read at h
  split at h
  · exact hbody h
  · split at h
    · cases h
    · rename_i hlen
      cases hparse : Header.parse data with
      | error e =>
        rw [hparse] at h
        cases h
        exact parse_error (Nat.not_lt.mp hlen) hparse
      | ok x =>
        rw [hparse, ok_bind] at h
        exact hbody h

theorem drain_error {self : RecordReader} {data : Bytes}
    (h : incremental.drain self data = .error f) : f.OfRecord := by
  induction self, data using Incremental.drain_induction (I := incremental) with
  | error s d e hr =>
    rw [Incremental.drain, Incremental.drainWith_error hr] at h
    cases h
    exact read_error hr
  | none s d s' d' hr =>
    rw [Incremental.drain, Incremental.drainWith_none hr] at h
    cases h
  | some s d r s' d' hr ih =>
    rw [Incremental.drain, Incremental.drainWith_some hr, Incremental.drainWith_append] at h
    cases hrest : incremental.drain s' d' with
    | error e =>
      rw [hrest] at h
      cases h
      exact ih hrest
    | ok x =>
      rw [hrest] at h
      cases h

end RecordReader

namespace InnerConnection

/-- The parser panics at what `poll_fill_buf` returns. -/
def ParserPanics (self : InnerConnection) (sock : SocketRead) (cx : Waker) (f : Fault) : Prop :=
  ∃ rbuf, self.slice sock cx = .ready (.ok rbuf) ∧ rbuf ≠ [] ∧
    RecordReader.incremental.drain self.fcgiParser rbuf = .error f

theorem pollResp_error_iff {self : InnerConnection} {sock : SocketRead} {cx : Waker} {f : Fault} :
    self.pollResp sock cx = .error f ↔ self.ParserPanics sock cx f := by
  unfold pollResp ParserPanics slice
  rcases hfill : self.io.pollFillBuf sock cx with ⟨(e | rbuf) | _, io⟩
  · simp
  · by_cases hnil : rbuf = []
    · simp [hnil]
    · have hlen : rbuf.length ≠ 0 := fun h => hnil (List.length_eq_zero_iff.mp h)
      simp only [if_neg hlen, parseAndDistribute_eq]
      cases hdrain : RecordReader.incremental.drain self.fcgiParser rbuf with
      | error e => simp [Except.map, hnil, hdrain]
      | ok x =>
        simp only [Except.map, ok_bind]
        split
        · simp [hnil, hdrain]
        · simp [hnil, hdrain]
  · simp

end InnerConnection

namespace FCGIBody

/-- `poll_frame` itself does not panic. -/
theorem pollFrame_error_iff {self : FCGIBody} {con : Mutex InnerConnection} {sock : SocketRead}
    {cx : Waker} {f : Fault} : self.pollFrame con sock cx = .error f ↔
      self.done = false ∧ con.waiters = none ∧ con.inner.ParserPanics sock cx f := by
  rw [← InnerConnection.pollResp_error_iff]
  unfold pollFrame Mutex.pollLock
  cases self.done with
  | true => simp
  | false =>
    cases con.waiters with
    | some q => simp
    | none =>
      simp only [Bool.false_eq_true, if_false, true_and]
      cases hresp : con.inner.pollResp sock cx with
      | error e => simp
      | ok x =>
        obtain ⟨res, self', inner, eff, hserve⟩ := serve_returns self x.2.1 cx
        simp [hserve]

end FCGIBody

namespace Connection

variable {http : Http} {maxReqPerCon : UInt16} {max : ℕ} {self : Connection} {ev : Event}
  {evs : List Event} {f : Fault}

/-- The event calls `poll_resp`, with what the socket gives. -/
inductive Reads (self : Connection) : Event → SocketRead → Waker → Prop
  | check {j sock cx key} (hcall : self.calls[j]? = some .checking) :
      Reads self (.check j sock cx key) sock cx
  | respond {j sock cx rid upload resp body}
      (hcall : self.calls[j]? = some (.exchanging rid upload resp))
      (hbody : (Forward.exchanging rid upload resp).polled? = some body)
      (hlive : body.done = false) (hfree : self.inner.waiters = none) :
      Reads self (.respond j sock cx) sock cx
  | read {j sock cx body} (hcall : self.calls[j]? = some (.returned body))
      (hlive : body.done = false) (hfree : self.inner.waiters = none) :
      Reads self (.read j sock cx) sock cx

theorem nextCheck_error_iff {j : ℕ} {sock : SocketRead} {cx : Waker} {key : ℕ} :
    self.nextCheck j sock cx key = .error f ↔ self.inner.inner.pollResp sock cx = .error f := by
  unfold nextCheck
  cases self.inner.inner.pollResp sock cx with
  | error e => simp
  | ok x =>
    simp only [ok_bind, reduceCtorEq, iff_false]
    intro h
    split at h
    · cases h
    · cases h
    · split at h <;> cases h

theorem nextRead_error_iff {j : ℕ} {body : FCGIBody} {sock : SocketRead} {cx : Waker} :
    self.nextRead j body sock cx = .error f ↔
      body.pollFrame self.inner sock cx = .error f := by
  unfold nextRead
  cases body.pollFrame self.inner sock cx with
  | error e => simp
  | ok x => simp [step]

/-- `create_response` panics where its body does, while its request is there. -/
theorem poll_error_iff (hs : http.PrefixStable) {resp : CreateResponse}
    {con : Mutex InnerConnection} {sock : SocketRead} {cx : Waker}
    (hentry : ∀ body bodydata rheaders, resp = .putting body bodydata rheaders →
      ∃ m, con.inner.runningRequests.get? body.rid = some m) :
    resp.poll http con sock cx = .error f ↔ ∃ body buf rheaders,
      resp = .reading body buf rheaders ∧ body.pollFrame con sock cx = .error f := by
  cases resp with
  | reading body buf rheaders =>
    rw [CreateResponse.poll]
    cases hframe : body.pollFrame con sock cx with
    | error e => simp [hframe]
    | ok x =>
      obtain ⟨res, body', con', eff⟩ := x
      have hok : ∀ b, ∃ resp, CreateResponse.receive http body' buf rheaders b = .ok resp :=
        CreateResponse.receive_returns hs body' buf rheaders
      rcases res with (_ | _ | b) | _
      · simp [hframe]
      · simp [hframe]
      · obtain ⟨resp, hresp⟩ := hok b
        simp [hframe, hresp]
      · simp [hframe]
  | putting body bodydata rheaders =>
    obtain ⟨m, hm⟩ := hentry body bodydata rheaders rfl
    rw [CreateResponse.poll]
    cases con.waiters with
    | some q => simp
    | none => simp [CreateResponse.putBack, hm]
  | returned => simp [CreateResponse.poll]

/-- A turn of `create_response` panics where the parser does. -/
theorem nextRespond_error_iff (hs : http.PrefixStable) (hslots : Slots max self) {j : ℕ}
    {rid : UInt16} {upload : Upload} {resp : Option CreateResponse}
    (hcall : self.calls[j]? = some (.exchanging rid upload resp)) {sock : SocketRead} {cx : Waker} :
    self.nextRespond http j rid upload resp sock cx = .error f ↔
      ∃ body, (Forward.exchanging rid upload resp).polled? = some body ∧ body.done = false ∧
        self.inner.waiters = none ∧ self.inner.inner.ParserPanics sock cx f := by
  have hopen := hslots.open_ j _ hcall
  -- the function, polled for the first time or again
  obtain ⟨resp₀, hresp₀⟩ : ∃ resp₀, responseOf rid resp = .ok resp₀ := by
    cases resp with
    | some resp => exact ⟨resp, rfl⟩
    | none => exact ⟨_, if_neg hopen⟩
  obtain ⟨-, -, hsome⟩ := responseOf_cases hresp₀ upload
  have hentry : ∀ body bodydata rheaders, resp₀ = .putting body bodydata rheaders →
      ∃ m, self.inner.inner.runningRequests.get? body.rid = some m := by
    rintro body bodydata rheaders rfl
    rcases hsome with rfl | ⟨-, hnew⟩
    · obtain ⟨m, hm, -⟩ := hslots.owns j _ _ hcall (hslots.putting_key hcall)
      exact ⟨m, hm⟩
    · cases hnew
  have hpoll : self.nextRespond http j rid upload resp sock cx = .error f ↔
      resp₀.poll http self.inner sock cx = .error f := by
    unfold nextRespond
    rw [hresp₀, ok_bind]
    cases resp₀.poll http self.inner sock cx with
    | error e => simp
    | ok x => simp [step]
  rw [hpoll, poll_error_iff hs hentry]
  constructor
  · rintro ⟨body, buf, rheaders, rfl, hframe⟩
    refine ⟨body, ?_, FCGIBody.pollFrame_error_iff.mp hframe⟩
    rcases hsome with rfl | ⟨rfl, hnew⟩
    · rfl
    · cases hnew
      rfl
  · rintro ⟨body, hbody, hpanics⟩
    have hframe : body.pollFrame self.inner sock cx = .error f :=
      FCGIBody.pollFrame_error_iff.mpr hpanics
    rcases hsome with rfl | ⟨rfl, rfl⟩
    · cases resp₀ with
      | reading body₀ buf rheaders =>
        cases hbody
        exact ⟨_, _, _, rfl, hframe⟩
      | putting => cases hbody
      | returned => cases hbody
    · cases hbody
      exact ⟨_, _, _, rfl, hframe⟩

/-- A step reads records and the parser panics at them, or it does not panic. -/
theorem Slots.faults_iff (hs : http.PrefixStable) (hslots : Slots max self) :
    self.next http ev = .error f ↔
      ∃ sock cx, self.Reads ev sock cx ∧ self.inner.inner.ParserPanics sock cx f := by
  constructor
  · intro h
    cases ev with
    | check j sock cx key =>
      simp only [next] at h
      split at h
      · rename_i hcall
        have hpanics := InnerConnection.pollResp_error_iff.mp (nextCheck_error_iff.mp h)
        exact ⟨sock, cx, .check hcall, hpanics⟩
      · cases h
    | respond j sock cx =>
      simp only [next] at h
      split at h
      · rename_i rid upload resp hcall
        obtain ⟨body, hbody, hlive, hfree, hpanics⟩ :=
          (nextRespond_error_iff hs hslots hcall).mp h
        exact ⟨sock, cx, .respond hcall hbody hlive hfree, hpanics⟩
      · cases h
    | read j sock cx =>
      simp only [next] at h
      split at h
      · rename_i body hcall
        obtain ⟨hlive, hfree, hpanics⟩ :=
          FCGIBody.pollFrame_error_iff.mp (nextRead_error_iff.mp h)
        exact ⟨sock, cx, .read hcall hlive hfree, hpanics⟩
      · cases h
    | acquire =>
      simp only [next] at h
      split at h <;> cases h
    | connect j ok key =>
      simp only [next] at h
      split at h
      · split at h
        · split at h <;> cases h
        · cases h
      · cases h
    | _ =>
      simp only [next] at h
      split at h <;> cases h
  · rintro ⟨sock, cx, hreads, hpanics⟩
    cases hreads with
    | check hcall =>
      simp only [next, hcall]
      exact nextCheck_error_iff.mpr (InnerConnection.pollResp_error_iff.mpr hpanics)
    | respond hcall hbody hlive hfree =>
      simp only [next, hcall]
      exact (nextRespond_error_iff hs hslots hcall).mpr ⟨_, hbody, hlive, hfree, hpanics⟩
    | read hcall hlive hfree =>
      simp only [next, hcall]
      exact nextRead_error_iff.mpr (FCGIBody.pollFrame_error_iff.mpr ⟨hlive, hfree, hpanics⟩)

end Connection

end AsyncFcgi
