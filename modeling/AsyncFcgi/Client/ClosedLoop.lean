import AsyncFcgi.Client.Attended
import AsyncFcgi.Client.Headers

/-!
# Both ends of a connection (`src/client/connection.rs`)

The application answers the requests it gets, and the calls read what comes back.

* `Attends.step`: seen from one call, the application writes the page for its request.
* `answered_run`: what the caller of each call reads.
* `headed_run`: which status and headers its response has.
-/

namespace AsyncFcgi

open Lib WireRecord

/-! ## What the caller reads -/

namespace Connection

variable {http : Http} {self : Connection} {ev : Event} {j k : ℕ} {call : Forward}

/-- The caller sees the end when it reads the body. -/
theorem see_finished {seen : Seen} (h : (self.see j k seen ev).finished = true) :
    seen.finished = true ∨
      ∃ sock cx body, ev = .read j sock cx ∧ self.calls[j]? = some (.returned body) := by
  cases ev with
  | read i sock cx =>
    simp only [see] at h
    split at h
    · rename_i hij
      subst hij
      cases hc : self.calls[i]? with
      | none =>
        rw [hc] at h
        exact Or.inl h
      | some call =>
        cases call with
        | returned body => exact Or.inr ⟨sock, cx, body, rfl, rfl⟩
        | _ =>
          rw [hc] at h
          exact Or.inl h
    · exact Or.inl h
  | respond i sock cx =>
    left
    simp only [see] at h
    split at h
    · split at h
      · split at h <;> exact h
      · exact h
    · exact h
  | _ => exact Or.inl h

/-- Behind the end, the call has no request. -/
theorem Serves.key_of_finished {max n : ℕ} {block body : Bytes} {st : Watched} {ex : Exchange}
    (h : Serves max n j k (block ++ body) st ex)
    (hplaced : Exchange.Placed k block (block ++ body) ex) (hfin : st.seen.finished = true)
    (hcall : st.con.calls[j]? = some call)
    (hover : (∃ body, call = .returned body) ∨ call = .left) : call.key? = none := by
  rw [h.seen] at hfin
  obtain ⟨hdone, -⟩ := finished_placed hplaced hfin
  obtain ⟨call', hcall', hgone | hserving⟩ := h.call
  · cases hcall.symm.trans hcall'
    rcases hover with ⟨body, rfl⟩ | rfl
    · cases hgone
    · rfl
  · cases hcall.symm.trans hcall'
    rw [shows_key hserving.shows_ (h.slots.open_ j _ hcall), if_pos hdone]

/-- When `create_response` of one call among many is done, status and headers are those of what the
application wrote to its request. -/
theorem head_of_run {maxReqPerCon : UInt16} (hstable : http.Stable) {stdout : Bytes}
    {evs₀ evs : List Event} {s₀ : Connection} (hruns : Runs http maxReqPerCon evs₀ s₀)
    (hins : s₀.Inserted j k) {st : Watched}
    (hrun : Run (Watched.Step http s₀.log.length j k stdout) ⟨s₀, [], false, none⟩ evs st)
    {rid : UInt16} {upload : Upload} {body : FCGIBody} {status : ℕ} {rheaders : HeaderMap}
    (hcall : st.con.calls[j]? =
      some (.exchanging rid upload (some (.returned body status rheaders)))) :
    (status, rheaders) = headOf http stdout := by
  obtain ⟨exEvs, ex, hexrun, hserves⟩ := run_serves hruns hins hrun
  have hheading : ex.Heading http k stdout :=
    hexrun.inv (Exchange.heading_start hins.entry) fun _ _ _ h hs => h.step hstable hs
  obtain ⟨call, hcall', hlive⟩ := hserves.call
  cases hcall.symm.trans hcall'
  have hserving := hlive.resolve_left Bool.false_ne_true
  obtain ⟨-, hresp⟩ := hserving.shows_
  rw [Exchange.Heading, hresp] at hheading
  exact hheading

end Connection

/-- A connection with its transport, and what the caller of one of its calls has seen. -/
structure Audience where
  wire : Wire
  seen : Connection.Seen

/-- A step of any call: none is dropped, no write fails, the transport is not lost, and the
application serves it. -/
structure Audience.Step (http : Http) (A : Allocator) (req : ℕ → Head) (app : App) (j k : ℕ)
    (st : Audience) (ev : Wire.Event) (st' : Audience) : Prop where
  keep : Wire.KeepStep http A req st.wire ev st'.wire
  see : st'.seen = st.wire.see j k st.seen ev
  serves : app.Serves st'.wire

namespace Wire

variable {http : Http} {A : Allocator} {req : ℕ → Head} {ev : Event} {evs : List Event}
  {max j k : ℕ} {old : List ℕ} {app : App} {w₀ : Wire} {data : Bytes}

/-- The state in which a request is inserted. -/
structure Starts (http : Http) (app : App) (maxReqPerCon : UInt16) (j k : ℕ) (old : List ℕ)
    (w₀ : Wire) : Prop where
  runs : ∃ cevs, Connection.Runs http maxReqPerCon cevs w₀.con
  inserted : w₀.con.Inserted j k
  reqNo : reqNo (Connection.ridOf k) = some k
  ended : ∀ a ∈ answersTo (Connection.ridOf k) w₀.con.log, a.ended = true
  length : (answersTo (Connection.ridOf k) w₀.con.log).length = old.length

/-- What `data` is the page for comes to the caller, or the call has failed. -/
structure Attends (http : Http) (req : ℕ → Head) (app : App) (max j k : ℕ) (old : List ℕ)
    (w₀ : Wire) (data : Bytes) (evs : List Event) (st : Audience) (call : Forward) : Prop where
  attended : ∃ rs owners, Attended req max j k old evs st.wire rs owners call
  log : ∃ recs, st.wire.con.log = w₀.con.log ++ recs
  finished : st.seen.finished = true → (∃ body, call = .returned body) ∨ call = .left
  whole : st.seen.finished = true → (bodySent evs j).length = (req j).len.getD 0
  watched : (∃ cevs, Run (Connection.Watched.Step http w₀.con.log.length j k
      (app.page (req j).pairs data)) ⟨w₀.con, [], false, none⟩ cevs ⟨st.wire.con, st.seen⟩) ∨
    (call.Gone = true ∧ st.seen.finished = false)

theorem Attends.step {maxReqPerCon : UInt16} (hstable : http.PrefixStable)
    (happ : ∀ ps d, http.Block (app ps d).1) (h₀ : Starts http app maxReqPerCon j k old w₀)
    {st st' : Audience} {call : Forward}
    (h : Attends http req app maxReqPerCon.toNat j k old w₀ data evs st call)
    (hs : Audience.Step http A req app j k st ev st') (hpre : bodySent (evs ++ [ev]) j <+: data)
    (hdata : data.length ≤ (req j).len.getD 0) :
    ∃ call', Attends http req app maxReqPerCon.toNat j k old w₀ data (evs ++ [ev]) st' call' := by
  have hmax := maxReqPerCon.toNat_lt
  obtain ⟨rs, owners, hatt⟩ := h.attended
  obtain ⟨recs, hlog⟩ := h.log
  obtain ⟨rs', call', hatt'⟩ := hatt.step hmax hs.keep
  have hdoes := hs.keep.does hatt.accepting
  have hwhole : (bodySent evs j).length = (req j).len.getD 0 →
      (bodySent (evs ++ [ev]) j).length = (req j).len.getD 0 := by
    have hle := hatt'.length_bodySent
    rw [bodySent_snoc, List.length_append] at hle ⊢
    omega
  rcases hdoes.con with ⟨hcon, hsee⟩ | ⟨cev, ⟨eff, hnext⟩, hcancel, hloses, hsee, -⟩
  · -- the connection is left alone
    have hcalls := hatt'.calls
    rw [hcon, hatt.calls] at hcalls
    cases hcalls
    have hseen : st'.seen = st.seen := hs.see.trans (hsee j k st.seen)
    refine ⟨call, ⟨_, _, hatt'⟩, ⟨recs, hcon ▸ hlog⟩, hseen ▸ h.finished,
      fun hfin => hwhole (h.whole (hseen ▸ hfin)), ?_⟩
    rw [hcon, hseen]
    exact h.watched
  have hseen : st'.seen = st.wire.con.see j k st.seen cev := hs.see.trans (hsee j k st.seen)
  obtain ⟨recs', hgrow⟩ := (Connection.next_stepped hnext).grows.1
  have hlog' : st'.wire.con.log = w₀.con.log ++ (recs ++ recs') := by
    rw [hgrow, hlog, List.append_assoc]
  obtain ⟨call₁, hcall₁, hturn⟩ := Connection.call_next hnext hatt.calls
  obtain rfl : call' = call₁ := Option.some.inj (hatt'.calls.symm.trans hcall₁)
  -- the caller has seen the end of a body only
  have hover : st'.seen.finished = true → (∃ body, call = .returned body) ∨ call = .left := by
    intro hfin
    rcases Connection.see_finished (hseen ▸ hfin) with hf | ⟨_, _, body, -, hc⟩
    · exact h.finished hf
    · exact Or.inl ⟨body, Option.some.inj (hatt.calls.symm.trans hc)⟩
  have hover' : st'.seen.finished = true → (∃ body, call' = .returned body) ∨ call' = .left := by
    intro hfin
    rcases hturn with ⟨-, rfl⟩ | ⟨hev, hturn⟩
    · exact hover hfin
    · rcases hover hfin with ⟨body, rfl⟩ | rfl
      · exact Connection.turn_returned hturn
      · cases (Connection.next_left hatt.calls hev).symm.trans hnext
  have hwhole' : st'.seen.finished = true →
      (bodySent (evs ++ [ev]) j).length = (req j).len.getD 0 := by
    intro hfin
    rcases Connection.see_finished (hseen ▸ hfin) with hf | ⟨_, _, body, -, hc⟩
    · exact hwhole (h.whole hf)
    · cases hatt.calls.symm.trans hc
      exact hwhole (hatt.accounted.uploaded j _ hatt.calls rfl (hatt.begun rfl)).2
  refine ⟨call', ⟨_, _, hatt'⟩, ⟨_, hlog'⟩, hover', hwhole', ?_⟩
  rcases h.watched with ⟨cevs, hrun⟩ | ⟨hgone, hfin⟩
  · by_cases hfailed : call'.Gone = true ∧ st'.seen.finished = false
    · exact Or.inr hfailed
    refine Or.inl ⟨_, .snoc hrun ⟨⟨eff, hnext⟩, hseen, fun hcut => hloses hcut.1, ?_⟩⟩
    intro c hc hkey
    obtain rfl : call = c := Option.some.inj (hatt.calls.symm.trans hc)
    have hgone : call'.Gone = false := by
      by_contra hgone
      rw [Bool.not_eq_false] at hgone
      have hfin : st'.seen.finished = true := by
        rw [← Bool.not_eq_false]
        exact fun hno => hfailed ⟨hgone, hno⟩
      rcases Connection.see_finished (hseen ▸ hfin) with hf | ⟨sock, cx, body, rfl, hc⟩
      · -- behind the end there is no request
        obtain ⟨cevs₀, hruns⟩ := h₀.runs
        obtain ⟨ex, hserves, hplaced⟩ :=
          Connection.run_placed hstable (happ _ _) hruns h₀.inserted hrun
        rw [hserves.key_of_finished hplaced hf hatt.calls (h.finished hf)] at hkey
        cases hkey
      · cases hatt.calls.symm.trans hc
        rcases hturn with ⟨hno, -⟩ | ⟨-, hturn⟩
        · exact hno rfl
        · cases hturn
          cases hgone
    exact hatt'.fits hs.serves hlog' h₀.reqNo h₀.ended h₀.length
      (hatt.latest_next hmax hdoes hatt'.calls hkey) hgone hpre hdata
  · right
    have hgone' : call'.Gone = true := by
      rcases hturn with ⟨-, rfl⟩ | ⟨-, hturn⟩
      · exact hgone
      · exact Connection.turn_gone hturn hgone
    refine ⟨hgone', ?_⟩
    rw [← Bool.not_eq_true]
    intro hfin'
    rcases Connection.see_finished (hseen ▸ hfin') with hf | ⟨_, _, body, -, hc⟩
    · rw [hfin] at hf
      cases hf
    · cases hatt.calls.symm.trans hc
      cases hgone

theorem attended_run {maxReqPerCon : UInt16} (st₀ : Audience) {st : Audience} {evs₀ : List Event}
    {call₀ : Forward}
    (h₀ : ∃ rs owners, Attended req maxReqPerCon.toNat j k old evs₀ st₀.wire rs owners call₀)
    (hrun : Run (Audience.Step http A req app j k) st₀ evs st) : ∃ rs owners call,
    Attended req maxReqPerCon.toNat j k old (evs₀ ++ evs) st.wire rs owners call := by
  induction hrun with
  | nil =>
    obtain ⟨rs, owners, h⟩ := h₀
    exact ⟨rs, owners, call₀, (List.append_nil evs₀).symm ▸ h⟩
  | snoc _ hs ih =>
    obtain ⟨rs, owners, call, h⟩ := ih
    obtain ⟨rs', call', h'⟩ := h.step maxReqPerCon.toNat_lt hs.keep
    exact ⟨rs', _, call', List.append_assoc evs₀ _ _ ▸ h'⟩

theorem attends_run {maxReqPerCon : UInt16} (hstable : http.PrefixStable)
    (happ : ∀ ps d, http.Block (app ps d).1) (h₀ : Starts http app maxReqPerCon j k old w₀)
    {evs₀ : List Event} {call₀ : Forward} {st : Audience}
    (hatt₀ : ∃ rs owners, Attended req maxReqPerCon.toNat j k old evs₀ w₀ rs owners call₀)
    (hrun : Run (Audience.Step http A req app j k) ⟨w₀, [], false, none⟩ evs st)
    (hdata : data.length ≤ (req j).len.getD 0) : bodySent (evs₀ ++ evs) j <+: data →
    ∃ call, Attends http req app maxReqPerCon.toNat j k old w₀ data (evs₀ ++ evs) st call := by
  induction hrun with
  | nil =>
    intro _
    rw [List.append_nil]
    exact ⟨call₀, hatt₀, ⟨[], (List.append_nil _).symm⟩, fun h => (by cases h),
      fun h => (by cases h), Or.inl ⟨[], .nil⟩⟩
  | @snoc evs st ev st' _ hs ih =>
    intro hpre
    rw [← List.append_assoc] at hpre ⊢
    have hback : bodySent (evs₀ ++ evs) j <+: data := by
      rw [bodySent_snoc] at hpre
      exact (List.prefix_append _ _).trans hpre
    obtain ⟨call, h⟩ := ih hback
    exact h.step hstable happ h₀ hs hpre hdata

/-- When a request is inserted, its caller is about to see the answer. -/
theorem starts_of_run {maxReqPerCon : UInt16} {answer : ℕ → WriteAnswer} {evs₀ : List Event}
    (hrun₀ : Run (KeepStep http A req) (connect maxReqPerCon answer) evs₀ w₀)
    (hacc : (Transport.new answer).Accepting) (hserves : app.Serves w₀)
    (hins : w₀.con.Inserted j k) : ∃ rs owners,
    Attended req maxReqPerCon.toNat j k (owners (Connection.ridOf k)) evs₀ w₀ rs owners
      (.sending (Connection.ridOf k)) ∧
    Starts http app maxReqPerCon j k (owners (Connection.ridOf k)) w₀ := by
  obtain ⟨rs, owners, hatt₀, hno, hended, hlen⟩ := attended_start hrun₀ hacc hins hserves
  exact ⟨rs, owners, hatt₀, con_run (hrun₀.mono fun _ _ _ h => h.1), hins, hno, hended, hlen⟩

/-- **Each caller reads the answer to its own request.** Any number of calls share a connection, in
any order of steps; none is dropped, no write fails and the transport is not lost. The application
is a function of a whole request, and with each id it answers the requests in their order, in any
records and at any time behind them. When a caller has seen the end of its body, then its request
was sent as a whole, and what the caller read is the body that the application makes of the pairs
and the body of this request, but for one thing: what `create_response` put back behind what was
queued then comes behind it. -/
theorem answered_run {maxReqPerCon : UInt16} {answer : ℕ → WriteAnswer}
    (hstable : http.PrefixStable) (happ : ∀ ps d, http.Block (app ps d).1) {evs₀ : List Event}
    (hrun₀ : Run (KeepStep http A req) (connect maxReqPerCon answer) evs₀ w₀)
    (hacc : (Transport.new answer).Accepting) (hserves : app.Serves w₀)
    (hins : w₀.con.Inserted j k) {st : Audience}
    (hrun : Run (Audience.Step http A req app j k) ⟨w₀, [], false, none⟩ evs st)
    (hfin : st.seen.finished = true) :
    (bodySent (evs₀ ++ evs) j).length = (req j).len.getD 0 ∧
    ∃ rest queued tail, (app (req j).pairs (bodySent (evs₀ ++ evs) j)).2 = rest ++ queued ++ tail ∧
      st.seen.frames.flatten = queued ++ rest ++ tail ∧
      (st.seen.back = some (rest, queued) ∨ (st.seen.back = none ∧ rest = [] ∧ queued = [])) := by
  obtain ⟨rs, owners, hatt₀, h₀⟩ := starts_of_run hrun₀ hacc hserves hins
  obtain ⟨_, _, _, hatt⟩ := attended_run ⟨w₀, [], false, none⟩ ⟨_, _, hatt₀⟩ hrun
  obtain ⟨call, h⟩ := attends_run hstable happ h₀ ⟨_, _, hatt₀⟩ hrun hatt.length_bodySent
    List.prefix_rfl
  refine ⟨h.whole hfin, ?_⟩
  rcases h.watched with ⟨cevs, hwatched⟩ | ⟨-, hno⟩
  · obtain ⟨cevs₀, hruns⟩ := h₀.runs
    obtain ⟨ex, hserves, hplaced⟩ :=
      Connection.run_placed hstable (happ _ _) hruns hins hwatched
    have hseen := hserves.seen
    simp only at hseen
    rw [hseen] at hfin ⊢
    exact (Connection.finished_placed hplaced hfin).2
  · rw [hfin] at hno
    cases hno

/-- **Each caller gets the head of the answer to its own request.** The same runs: when a call is
about to return its response, its request was sent as a whole, and status and headers of the
response are those of what the application writes for the pairs and the body of this request. -/
theorem headed_run {maxReqPerCon : UInt16} {answer : ℕ → WriteAnswer}
    (hstable : http.PrefixStable) (happ : ∀ ps d, http.Block (app ps d).1) {evs₀ : List Event}
    (hrun₀ : Run (KeepStep http A req) (connect maxReqPerCon answer) evs₀ w₀)
    (hacc : (Transport.new answer).Accepting) (hserves : app.Serves w₀)
    (hins : w₀.con.Inserted j k) {st : Audience}
    (hrun : Run (Audience.Step http A req app j k) ⟨w₀, [], false, none⟩ evs st)
    {rid : UInt16} {body : FCGIBody} {status : ℕ} {rheaders : HeaderMap}
    (hcall : st.wire.con.calls[j]? =
      some (.exchanging rid .done (some (.returned body status rheaders)))) :
    (bodySent (evs₀ ++ evs) j).length = (req j).len.getD 0 ∧
      (status, rheaders) =
        headOf http (app.page (req j).pairs (bodySent (evs₀ ++ evs) j)) := by
  obtain ⟨rs, owners, hatt₀, h₀⟩ := starts_of_run hrun₀ hacc hserves hins
  obtain ⟨_, _, _, hatt⟩ := attended_run ⟨w₀, [], false, none⟩ ⟨_, _, hatt₀⟩ hrun
  obtain ⟨call, h⟩ := attends_run hstable happ h₀ ⟨_, _, hatt₀⟩ hrun hatt.length_bodySent
    List.prefix_rfl
  obtain ⟨_, _, hatt⟩ := h.attended
  cases hatt.calls.symm.trans hcall
  obtain ⟨-, hwhole⟩ := hatt.accounted.uploaded j _ hatt.calls rfl (hatt.begun rfl)
  refine ⟨hwhole, ?_⟩
  rcases h.watched with ⟨cevs, hwatched⟩ | ⟨hgone, -⟩
  · obtain ⟨cevs₀, hruns⟩ := h₀.runs
    exact Connection.head_of_run hstable.stable hruns hins hwatched hcall
  · cases hgone

/-! ## A run -/

/-- The event drops a call. -/
def cancels : Connection.Event → Bool
  | .cancel _ => true
  | _ => false

/-- The state behind an event that keeps the connection and does not write, if no records were
processed or those of `log`. -/
def quietTick (http : Http) (j k : ℕ) (log : List Record) (st : Connection.Watched)
    (ev : Connection.Event) : Option Connection.Watched :=
  (st.con.tick http ev).bind fun con =>
    if ev.Quiet = true ∧ cancels ev = false ∧ st.con.Stays ev ∧ (con.log = [] ∨ con.log = log) then
      some ⟨con, st.con.see j k st.seen ev⟩
    else none

theorem audience_of_tick (wire : Wire) {log : List Record}
    (hserves : ∀ con : Connection, con.log = [] ∨ con.log = log →
      app.Serves { wire with con := con }) (st : Connection.Watched) (ev : Connection.Event)
    (st' : Connection.Watched) (h : quietTick http j k log st ev = some st') :
    Audience.Step http A req app j k ⟨{ wire with con := st.con }, st.seen⟩ (.quiet ev)
      ⟨{ wire with con := st'.con }, st'.seen⟩ := by
  obtain ⟨con, hcon, h⟩ := Option.bind_eq_some_iff.mp h
  split at h
  · rename_i hok
    obtain ⟨hquiet, hcancel, hstays, hlog⟩ := hok
    cases h
    refine ⟨keepStep_quiet rfl hcon hquiet ?_ hstays.not_loses, rfl, hserves con hlog⟩
    rintro i rfl
    cases hcancel
  · cases h

/-- The calls do what they do between the writes. -/
theorem audience_of_replay (wire : Wire) {log : List Record}
    (hserves : ∀ con : Connection, con.log = [] ∨ con.log = log →
      app.Serves { wire with con := con }) {st st' : Connection.Watched}
    {cevs : List Connection.Event} (h : replay (quietTick http j k log) st cevs = some st') :
    Run (Audience.Step http A req app j k) ⟨{ wire with con := st.con }, st.seen⟩
      (cevs.map .quiet) ⟨{ wire with con := st'.con }, st'.seen⟩ := by
  have hrun : Run (fun st ev st' => quietTick http j k log st ev = some st') st cevs st' :=
    run_of_replay (fun _ _ _ h => h) cevs h
  exact hrun.map (fun st => (⟨{ wire with con := st.con }, st.seen⟩ : Audience)) Event.quiet
    (audience_of_tick wire hserves)

theorem serves_nil {wire : Wire} {rs : List WireRecord} (hsent : wire.io.io.sent = encodeAll rs)
    (hlog : wire.con.log = []) : app.Serves wire := by
  refine ⟨rs, hsent, fun id => ⟨_, [], (List.append_nil _).symm, ?_⟩⟩
  rw [hlog]
  exact .nil

/-- An application that answers with what it was sent. -/
def echo : App := fun _ stdin => (Exchange.emptyHead, stdin)

/-- Its answer to a body of one byte. -/
def echoRecord : WireRecord := { Exchange.firstHalf with
  content := [13, 10, 65]
  content_le := by decide }

/-- The records it is processed as. -/
def echoLog : List Record :=
  [⟨echoRecord.header, .stdOut [13, 10, 65]⟩,
    ⟨Exchange.lastRecord.header, .endRequest ⟨0, .complete⟩⟩]

/-- It arrives, and the call has a response for it. -/
def responding : List Connection.Event :=
  [.respond 0 (.ready (echoRecord.encode ++ Exchange.lastRecord.encode)) 7, .respond 0 .pending 7]

/-- The caller gets this response, and reads it. -/
def reading : List Connection.Event := [.finish 0, .read 0 .pending 7, .read 0 .pending 7]

/-- Nothing was seen. -/
def unseen : Connection.Seen := ⟨[], false, none⟩

theorem answersTo_echoLog : answersTo 1 echoLog = [⟨[13, 10, 65], true⟩] ∧
    ∀ id, id ≠ 1 → answersTo id echoLog = [] := by
  have hone : ∀ rec ∈ echoLog, rec.getRequestId = 1 := by decide
  refine ⟨by decide, fun id hid => answersTo_other fun rec hrec heq => hid ?_⟩
  rw [← heq, hone rec hrec]

/-- When the call has uploaded its request, the answer to it serves. -/
theorem serves_echo {wire : Wire} {rs : List WireRecord} {owners : UInt16 → List ℕ}
    {resp : Option CreateResponse}
    (h : Attended (fun _ => post) max 0 0 [] evs wire rs owners (.exchanging 1 .done resp))
    (hbody : bodySent evs 0 = [65]) (hkey : (Forward.exchanging 1 .done resp).key? = some 0)
    {con : Connection} (hlog : con.log = echoLog) :
    echo.Serves { wire with con := con } := by
  have howners : owners 1 = [0] := h.latest hkey
  have hdel := h.delivers.delivered 1
  rw [howners] at hdel
  obtain ⟨q, qs, hq, hqs, hrecv⟩ := List.forall₂_cons_left_iff.mp hdel
  obtain rfl := List.forall₂_nil_left_iff.mp hqs
  have hno : ¬ wire.con.uploads? 0 = some 1 := by
    rw [Connection.uploads?, h.calls]
    intro hup
    cases hup
  obtain ⟨hphase, haborted⟩ := hq.done hno
  obtain ⟨hone, hothers⟩ := answersTo_echoLog
  refine ⟨rs, h.delivers.sent, fun id => ?_⟩
  rw [hlog]
  by_cases hid : id = 1
  · subst hid
    refine ⟨[], [q], hrecv, ?_⟩
    rw [hone]
    refine .cons ⟨hphase, fun _ ps _ => ?_⟩ .nil
    rw [hq.stdin, hbody]
    exact ⟨List.prefix_rfl, fun _ => rfl⟩
  · rw [hothers id hid]
    exact ⟨_, [], (List.append_nil _).symm, .nil⟩

/-- The writes of a request with a body of one byte. -/
def uploading : List Event :=
  [.head 0 none, .quiet (.uploadLock 0), .chunk 0 [65] none, .quiet (.uploadLock 0), .finish 0 none]

/-- The call uploads it, to an application that does not answer yet. -/
theorem audience_uploading {app : App} {w₀ : Wire} {c₂ c₃ c₄ c₅ c₆ : Connection}
    (hacc : w₀.io.io.Accepting) (hsent : w₀.io.io.sent = [])
    (h₂ : w₀.con.tick http (.head 0 post.result) = some c₂) (hlog₂ : c₂.log = [])
    (h₃ : quietTick http 0 0 [] ⟨c₂, unseen⟩ (.uploadLock 0) = some ⟨c₃, unseen⟩)
    (h₄ : c₃.tick http (.upload 0 .chunk) = some c₄) (hlog₄ : c₄.log = [])
    (h₅ : quietTick http 0 0 [] ⟨c₄, unseen⟩ (.uploadLock 0) = some ⟨c₅, unseen⟩)
    (h₆ : c₅.tick http (.upload 0 .last) = some c₆) (hlog₆ : c₆.log = []) :
    ∃ w₆ rs, w₆.con = c₆ ∧ w₆.io.io.sent = encodeAll rs ∧
      Run (Audience.Step http zeroed (fun _ => post) app 0 0) ⟨w₀, unseen⟩ uploading
        ⟨w₆, unseen⟩ := by
  have hstep := @Connection.step_of_tick http
  obtain ⟨rs₁, w₂, hs₂, hg₂⟩ := @head_goes http zeroed (fun _ => post) w₀ 0 hacc post_fits c₂
    (hstep _ _ _ h₂)
  obtain rfl := hg₂.con
  have hsent₂ : w₂.io.io.sent = encodeAll rs₁ := by rw [hg₂.sent, hsent, List.nil_append]
  have hmiss₂ : w₂.missing 0 = 1 := by
    rw [hg₂.missing, Function.update_self]
    rfl
  obtain ⟨rs₂, w₄, hs₄, -, -, hg₄⟩ := @chunk_goes http zeroed (fun _ => post)
    { w₂ with con := c₃ } 0 [65] hg₂.accepting (List.cons_ne_nil _ _) (le_of_eq hmiss₂.symm) c₄
    (hstep _ _ _ h₄)
  obtain rfl := hg₄.con
  have hsent₄ : w₄.io.io.sent = encodeAll (rs₁ ++ rs₂) := by
    rw [hg₄.sent, hsent₂, encodeAll_append]
  have hmiss₄ : w₄.missing 0 = 0 := by
    rw [hg₄.missing, Function.update_self]
    show w₂.missing 0 - 1 = 0
    omega
  obtain ⟨rs₃, w₆, hs₆, hg₆⟩ := @finish_goes http zeroed (fun _ => post) { w₄ with con := c₅ } 0
    hg₄.accepting hmiss₄ c₆ (hstep _ _ _ h₆)
  obtain rfl := hg₆.con
  have hsent₆ : w₆.io.io.sent = encodeAll (rs₁ ++ rs₂ ++ rs₃) := by
    rw [hg₆.sent, hsent₄, encodeAll_append (rs₁ ++ rs₂)]
  have ha₂ : Audience.Step http zeroed (fun _ => post) app 0 0 ⟨w₀, unseen⟩ (.head 0 none)
      ⟨w₂, unseen⟩ := ⟨⟨hs₂, rfl, id⟩, rfl, serves_nil hsent₂ hlog₂⟩
  have ha₃ : Audience.Step http zeroed (fun _ => post) app 0 0 ⟨w₂, unseen⟩
      (.quiet (.uploadLock 0)) ⟨{ w₂ with con := c₃ }, unseen⟩ :=
    audience_of_tick w₂ (fun con hlog => serves_nil hsent₂ (or_self_iff.mp hlog))
      ⟨w₂.con, unseen⟩ _ ⟨c₃, unseen⟩ h₃
  have ha₄ : Audience.Step http zeroed (fun _ => post) app 0 0 ⟨{ w₂ with con := c₃ }, unseen⟩
      (.chunk 0 [65] none) ⟨w₄, unseen⟩ := ⟨⟨hs₄, rfl, id⟩, rfl, serves_nil hsent₄ hlog₄⟩
  have ha₅ : Audience.Step http zeroed (fun _ => post) app 0 0 ⟨w₄, unseen⟩
      (.quiet (.uploadLock 0)) ⟨{ w₄ with con := c₅ }, unseen⟩ :=
    audience_of_tick w₄ (fun con hlog => serves_nil hsent₄ (or_self_iff.mp hlog))
      ⟨w₄.con, unseen⟩ _ ⟨c₅, unseen⟩ h₅
  have ha₆ : Audience.Step http zeroed (fun _ => post) app 0 0 ⟨{ w₄ with con := c₅ }, unseen⟩
      (.finish 0 none) ⟨w₆, unseen⟩ := ⟨⟨hs₆, rfl, id⟩, rfl, serves_nil hsent₆ hlog₆⟩
  exact ⟨w₆, _, rfl, hsent₆, .snoc (.snoc (.snoc (.snoc (.snoc .nil ha₂) ha₃) ha₄) ha₅) ha₆⟩

/-- The call with its response. -/
def responded : Forward :=
  .exchanging 1 .done (some (.returned ⟨0, false, true⟩ 200 []))

/-- The states between the writes of the request, and what holds in them. -/
theorem echo_states : ∃ c₁ c₂ c₃ c₄ c₅ c₆ t₇ t₈,
    replay (quietTick (onlyBlock Exchange.emptyHead) 0 0 []) ⟨.connect 1, unseen⟩
        Connection.inserting = some ⟨c₁, unseen⟩ ∧
      c₁.calls = [.sending 1] ∧ c₁.log = [] ∧
      c₁.inner.inner.runningRequests.get? 0 = some (.new 0) ∧
      c₁.tick (onlyBlock Exchange.emptyHead) (.head 0 post.result) = some c₂ ∧ c₂.log = [] ∧
      quietTick (onlyBlock Exchange.emptyHead) 0 0 [] ⟨c₂, unseen⟩ (.uploadLock 0) =
        some ⟨c₃, unseen⟩ ∧
      c₃.tick (onlyBlock Exchange.emptyHead) (.upload 0 .chunk) = some c₄ ∧ c₄.log = [] ∧
      quietTick (onlyBlock Exchange.emptyHead) 0 0 [] ⟨c₄, unseen⟩ (.uploadLock 0) =
        some ⟨c₅, unseen⟩ ∧
      c₅.tick (onlyBlock Exchange.emptyHead) (.upload 0 .last) = some c₆ ∧ c₆.log = [] ∧
      c₆.calls = [.exchanging 1 .done none] ∧
      replay (quietTick (onlyBlock Exchange.emptyHead) 0 0 echoLog) ⟨c₆, unseen⟩ responding =
        some t₇ ∧
      t₇.con.calls = [responded] ∧
      replay (quietTick (onlyBlock Exchange.emptyHead) 0 0 echoLog) t₇ reading = some t₈ ∧
      t₈.seen.finished = true ∧ t₈.seen.back = some ([65], []) := by
  have hcomp : ((replay (quietTick (onlyBlock Exchange.emptyHead) 0 0 []) ⟨.connect 1, unseen⟩
        Connection.inserting).bind fun t₁ =>
      (t₁.con.tick (onlyBlock Exchange.emptyHead) (.head 0 post.result)).bind fun c₂ =>
      (quietTick (onlyBlock Exchange.emptyHead) 0 0 [] ⟨c₂, unseen⟩ (.uploadLock 0)).bind fun t₃ =>
      (t₃.con.tick (onlyBlock Exchange.emptyHead) (.upload 0 .chunk)).bind fun c₄ =>
      (quietTick (onlyBlock Exchange.emptyHead) 0 0 [] ⟨c₄, unseen⟩ (.uploadLock 0)).bind fun t₅ =>
      (t₅.con.tick (onlyBlock Exchange.emptyHead) (.upload 0 .last)).bind fun c₆ =>
      (replay (quietTick (onlyBlock Exchange.emptyHead) 0 0 echoLog) ⟨c₆, unseen⟩
        responding).bind fun t₇ =>
      (replay (quietTick (onlyBlock Exchange.emptyHead) 0 0 echoLog) t₇ reading).map fun t₈ =>
        decide (t₁.seen = unseen ∧ t₁.con.calls = [.sending 1] ∧ t₁.con.log = [] ∧
          t₁.con.inner.inner.runningRequests.get? 0 = some (.new 0) ∧ c₂.log = [] ∧
          t₃.seen = unseen ∧ c₄.log = [] ∧ t₅.seen = unseen ∧ c₆.log = [] ∧
          c₆.calls = [.exchanging 1 .done none] ∧ t₇.con.calls = [responded] ∧
          t₈.seen.finished = true ∧ t₈.seen.back = some ([65], []))) = some true := by
    decide +kernel
  obtain ⟨⟨c₁, seen₁⟩, h₁, hcomp⟩ := Option.bind_eq_some_iff.mp hcomp
  obtain ⟨c₂, h₂, hcomp⟩ := Option.bind_eq_some_iff.mp hcomp
  obtain ⟨⟨c₃, seen₃⟩, h₃, hcomp⟩ := Option.bind_eq_some_iff.mp hcomp
  obtain ⟨c₄, h₄, hcomp⟩ := Option.bind_eq_some_iff.mp hcomp
  obtain ⟨⟨c₅, seen₅⟩, h₅, hcomp⟩ := Option.bind_eq_some_iff.mp hcomp
  obtain ⟨c₆, h₆, hcomp⟩ := Option.bind_eq_some_iff.mp hcomp
  obtain ⟨t₇, h₇, hcomp⟩ := Option.bind_eq_some_iff.mp hcomp
  obtain ⟨t₈, h₈, hcomp⟩ := Option.map_eq_some_iff.mp hcomp
  obtain ⟨rfl, hcalls₁, hlog₁, hentry₁, hlog₂, rfl, hlog₄, rfl, hlog₆, hcalls₆, hcalls₇, hfin,
    hback⟩ := of_decide_eq_true hcomp
  exact ⟨c₁, c₂, c₃, c₄, c₅, c₆, t₇, t₈, h₁, hcalls₁, hlog₁, hentry₁, h₂, hlog₂, h₃, h₄, hlog₄, h₅,
    h₆, hlog₆, hcalls₆, h₇, hcalls₇, h₈, hfin, hback⟩

/-- The run of one call, to its response and to the end of it. -/
theorem echo_run : ∃ w₀ evs₀ evs st evs' st',
    Run (KeepStep (onlyBlock Exchange.emptyHead) zeroed fun _ => post)
        (connect 1 fun _ => .accepts 0) evs₀ w₀ ∧ echo.Serves w₀ ∧ w₀.con.Inserted 0 0 ∧
      Run (Audience.Step (onlyBlock Exchange.emptyHead) zeroed (fun _ => post) echo 0 0)
        ⟨w₀, unseen⟩ evs st ∧
      bodySent (evs₀ ++ evs) 0 = [65] ∧ st.wire.con.calls[0]? = some responded ∧
      Run (Audience.Step (onlyBlock Exchange.emptyHead) zeroed (fun _ => post) echo 0 0)
        ⟨w₀, unseen⟩ evs' st' ∧
      bodySent (evs₀ ++ evs') 0 = [65] ∧ st'.seen.finished = true ∧
      st'.seen.back = some ([65], []) := by
  obtain ⟨c₁, c₂, c₃, c₄, c₅, c₆, t₇, t₈, h₁, hcalls₁, hlog₁, hentry₁, h₂, hlog₂, h₃, h₄, hlog₄, h₅,
    h₆, hlog₆, hcalls₆, h₇, hcalls₇, h₈, hfin, hback⟩ := echo_states
  have hacc : (Transport.new fun _ => .accepts 0).Accepting := fun _ => ⟨0, rfl⟩
  -- the call inserts its request
  have hrun₁ : Run (Audience.Step (onlyBlock Exchange.emptyHead) zeroed (fun _ => post) echo 0 0)
      ⟨connect 1 fun _ => .accepts 0, unseen⟩ (Connection.inserting.map .quiet)
      ⟨{ connect 1 fun _ => .accepts 0 with con := c₁ }, unseen⟩ :=
    audience_of_replay (connect 1 fun _ => .accepts 0)
      (fun con hlog => serves_nil encodeAll_nil.symm (or_self_iff.mp hlog)) h₁
  have hkeep := hrun₁.map Audience.wire id fun _ _ _ h => h.keep
  have hins : c₁.Inserted 0 0 := ⟨⟨1, by rw [hcalls₁]; rfl⟩, hentry₁⟩
  have hserves₀ : echo.Serves { connect 1 fun _ => .accepts 0 with con := c₁ } :=
    serves_nil encodeAll_nil.symm hlog₁
  -- it uploads the request
  obtain ⟨w₆, rs, rfl, hsent₆, hrun₆⟩ := @audience_uploading _ echo
    { connect 1 fun _ => .accepts 0 with con := c₁ } c₂ c₃ c₄ c₅ c₆ hacc rfl h₂ hlog₂ h₃ h₄ hlog₄
    h₅ h₆ hlog₆
  -- the application has it, and answers
  obtain ⟨_, owners, hatt₀, -, -, hlen⟩ := attended_start hkeep hacc hins hserves₀
  have hold : owners (Connection.ridOf 0) = [] := by
    rw [show answersTo (Connection.ridOf 0) c₁.log = [] by rw [hlog₁]; rfl] at hlen
    exact List.length_eq_zero_iff.mp hlen.symm
  rw [hold] at hatt₀
  obtain ⟨_, _, call, hatt⟩ := attended_run ⟨_, unseen⟩ ⟨_, _, hatt₀⟩ hrun₆
  obtain rfl : call = .exchanging 1 .done none := by
    have hcall := hatt.calls
    rw [hcalls₆] at hcall
    exact (Option.some.inj hcall).symm
  have hserves₆ : ∀ con : Connection, con.log = [] ∨ con.log = echoLog →
      echo.Serves { w₆ with con := con } := by
    rintro con (hlog | hlog)
    · exact @serves_nil echo { w₆ with con := con } rs hsent₆ hlog
    · exact serves_echo hatt rfl rfl hlog
  have hrun₇ : Run (Audience.Step (onlyBlock Exchange.emptyHead) zeroed (fun _ => post) echo 0 0)
      ⟨w₆, unseen⟩ (responding.map .quiet) ⟨{ w₆ with con := t₇.con }, t₇.seen⟩ :=
    audience_of_replay w₆ hserves₆ h₇
  have hrun₈ : Run (Audience.Step (onlyBlock Exchange.emptyHead) zeroed (fun _ => post) echo 0 0)
      ⟨{ w₆ with con := t₇.con }, t₇.seen⟩ (reading.map .quiet)
      ⟨{ w₆ with con := t₈.con }, t₈.seen⟩ :=
    audience_of_replay w₆ hserves₆ h₈
  exact ⟨_, _, _, _, _, _, hkeep, hserves₀, hins, hrun₆.append hrun₇, rfl, by rw [hcalls₇]; rfl,
    (hrun₆.append hrun₇).append hrun₈, rfl, hfin, hback⟩

/-- The caller of a request with a body of one byte reads this byte. -/
theorem answered_run_echo : ∃ w₀ evs₀ evs st,
    Run (KeepStep (onlyBlock Exchange.emptyHead) zeroed fun _ => post)
        (connect 1 fun _ => .accepts 0) evs₀ w₀ ∧
      Run (Audience.Step (onlyBlock Exchange.emptyHead) zeroed (fun _ => post) echo 0 0)
        ⟨w₀, unseen⟩ evs st ∧
      st.seen.finished = true ∧ st.seen.frames.flatten = [65] := by
  obtain ⟨w₀, evs₀, -, -, evs, st, hkeep, hserves₀, hins, -, -, -, hrun, hbody, hfin, hback⟩ :=
    echo_run
  have hacc : (Transport.new fun _ => .accepts 0).Accepting := fun _ => ⟨0, rfl⟩
  have happ : ∀ ps d, (onlyBlock Exchange.emptyHead).Block (echo ps d).1 :=
    fun _ _ => onlyBlock_block _
  obtain ⟨-, rest, queued, tail, hread, hframes, hcase⟩ :=
    answered_run (onlyBlock_prefixStable _) happ hkeep hacc hserves₀ hins hrun hfin
  obtain ⟨rfl, rfl⟩ : [65] = rest ∧ [] = queued := by
    rcases hcase with hsome | ⟨hnone, -⟩
    · exact Prod.mk.inj (Option.some.inj (hback.symm.trans hsome))
    · cases hback.symm.trans hnone
  rw [hbody] at hread
  obtain rfl : [] = tail := List.tail_eq_of_cons_eq hread
  exact ⟨w₀, evs₀, evs, st, hkeep, hrun, hfin, hframes⟩

/-- The response to it has the status and the headers of the answer. -/
theorem headed_run_echo : ∃ w₀ evs₀ evs st,
    Run (KeepStep (onlyBlock Exchange.emptyHead) zeroed fun _ => post)
        (connect 1 fun _ => .accepts 0) evs₀ w₀ ∧
      Run (Audience.Step (onlyBlock Exchange.emptyHead) zeroed (fun _ => post) echo 0 0)
        ⟨w₀, unseen⟩ evs st ∧
      st.wire.con.calls[0]? = some responded ∧
      (200, []) = headOf (onlyBlock Exchange.emptyHead) (echo.page post.pairs [65]) := by
  obtain ⟨w₀, evs₀, evs, st, -, -, hkeep, hserves₀, hins, hrun, hbody, hcall, -⟩ := echo_run
  have hacc : (Transport.new fun _ => .accepts 0).Accepting := fun _ => ⟨0, rfl⟩
  have happ : ∀ ps d, (onlyBlock Exchange.emptyHead).Block (echo ps d).1 :=
    fun _ _ => onlyBlock_block _
  have hhead :=
    (headed_run (onlyBlock_prefixStable _) happ hkeep hacc hserves₀ hins hrun hcall).2
  rw [hbody] at hhead
  exact ⟨w₀, evs₀, evs, st, hkeep, hrun, hcall, hhead⟩

end Wire

end AsyncFcgi
