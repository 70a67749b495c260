import AsyncFcgi.Client.PollResp

/-!
# When a connection counts as closed (`src/client/connection.rs`)

Sequences of `poll_resp` calls on a connection whose other side sends STDOUT and STDERR
records. The socket hands the stream out in reads of any length; a call finds the next read
there or not.

* `parseAndDistribute_output`: one call of `parse_and_distribute` on such a stream.
* `closes_at_end_iff`: the connection is declared closed only at the end of the stream, in
  every sequence of calls, exactly if no read ends inside a header or inside padding.
-/

namespace AsyncFcgi

open Lib

namespace WireRecord

/-- A place inside the header, or inside the padding. -/
def OutsideContent (r : WireRecord) (pos : ℕ) : Prop :=
  (0 < pos ∧ pos < Header.headerLen) ∨ Header.headerLen + r.content.length < pos

instance (r : WireRecord) (pos : ℕ) : Decidable (r.OutsideContent pos) :=
  inferInstanceAs (Decidable (_ ∨ _))

end WireRecord

namespace Cursor

/-- Where the reader is stuck with bytes at hand, these are a part of a header or of padding. -/
theorem within_outsideContent_iff {c : Cursor} (hv : c.Valid) {d fut : Bytes}
    (hu : c.unread = d ++ fut) (hs : c.Stuck d) :
    c.Within d WireRecord.OutsideContent ↔ d ≠ [] := by
  obtain ⟨ds, cur, todo⟩ := c
  rw [← List.length_pos_iff]
  cases cur with
  | none =>
    have hlt : d.length < 8 := hs
    cases todo with
    | nil =>
      have := congrArg List.length hu
      simp only [unread, WireRecord.encodeAll_nil, List.append_nil, List.length_nil,
        List.length_append] at this
      exact iff_of_false id (by omega)
    | cons r rs =>
      simp only [Within, WireRecord.OutsideContent, Header.headerLen]
      omega
  | some x =>
    obtain ⟨r, got⟩ := x
    obtain ⟨hle, -⟩ := hv r got rfl
    simp only [Stuck] at hs
    simp only [Within, WireRecord.OutsideContent, Header.headerLen]
    split at hs
    · subst hs
      simp only [List.length_nil]
      omega
    · omega

/-- Stuck with bytes at hand, the reader is stalled. -/
theorem Stuck.stalled {c : Cursor} (hv : c.Valid) {d : Bytes} (hs : c.Stuck d) (hne : d ≠ []) :
    c.reader.Stalled d := by
  obtain ⟨ds, cur, todo⟩ := c
  cases cur with
  | none => exact hs
  | some x =>
    obtain ⟨r, got⟩ := x
    obtain ⟨hle, -⟩ := hv r got rfl
    simp only [Stuck] at hs
    split at hs
    · exact absurd hs hne
    · refine ⟨?_, Or.inl (by rw [restHeader_padding]; exact hs)⟩
      apply UInt16.toNat_inj.mp
      rw [toNat_restHeader]
      simp only [UInt16.toNat_zero]
      omega

end Cursor

namespace InnerConnection

/-- The `ended` flag of the request at a key. -/
def endedAt (requests : Slab FCGIRequest) (key : ℕ) : Option Bool :=
  (requests.get? key).map FCGIRequest.ended

/-- A stream of STDOUT and STDERR records ends no request. -/
def KeepsEnded (requests : Slab FCGIRequest) (acc : Slab FCGIRequest × Effects) (c : Cursor) :
    Prop :=
  (∀ r ∈ c.stream, r.IsOutput) ∧ ∀ key, endedAt acc.1 key = endedAt requests key

theorem endedAt_distributeTo {requests : Slab FCGIRequest} {rec : Record}
    (hbody : ∀ b, rec.body ≠ .endRequest b) (key : ℕ) :
    endedAt (distributeTo requests rec).1 key = endedAt requests key := by
  rw [endedAt, endedAt, get?_distributeTo]
  by_cases hk : reqNo rec.getRequestId = some key
  · rw [if_pos hk]
    cases requests.get? key with
    | none => rfl
    | some mpxs =>
      rw [Option.bind_some]
      cases hb : rec.body with
      | endRequest b => exact absurd hb (hbody b)
      | stdOut s =>
        simp only [FCGIRequest.receive]
        split
        · rfl
        · split <;> rfl
      | _ => rfl
  · rw [if_neg hk]

theorem parseBody_output {r : WireRecord} (h : r.IsOutput) (x : Bytes) :
    ∃ b, Record.parseBody x r.rtype = .ok b ∧ ∀ e, b ≠ .endRequest e := by
  rcases h with h | h
  · rw [h]
    exact ⟨_, rfl, nofun⟩
  · rw [h]
    exact ⟨_, rfl, nofun⟩

theorem keepsEnded_keeps (requests : Slab FCGIRequest) :
    RecordReader.Keeps distribute (KeepsEnded requests) where
  quiet {acc c c'} h hst := by
    rw [KeepsEnded, hst.stream_eq]
    exact h
  piece {acc c r x c' rec} h hst hb hty hid := by
    refine ⟨by rw [hst.stream_eq]; exact h.1, fun key => ?_⟩
    obtain ⟨b, hb', hne⟩ := parseBody_output (h.1 r hst.mem_stream) x
    obtain rfl : rec.body = b := Except.ok.inj (hb.symm.trans hb')
    exact (endedAt_distributeTo hne key).trans (h.2 key)

/-- No call of the reader panics on a stream of STDOUT and STDERR records. -/
theorem keepsEnded_preserves (requests : Slab FCGIRequest) (rs : List WireRecord) (fut : Bytes) :
    RecordReader.incremental.Preserves distribute
      (RecordReader.AtCursor (KeepsEnded requests) rs) fut := by
  intro acc s d hat
  have hok := (keepsEnded_keeps requests).preservesOk rs fut acc s d hat
  obtain ⟨c, hs, hv, rfl, hu, hP⟩ := hat
  rcases RecordReader.read_spec hv d fut hu with ⟨c', d', hst, -, -, -, hr⟩ |
    ⟨r, x, c', d', hst, -, -, -, h, hty, hid, hr⟩
  · exact ⟨none, _, _, hr, hok none _ _ hr⟩
  · obtain ⟨b, hb, -⟩ := parseBody_output (hP.1 r hst.mem_stream) x
    rw [hb] at hr
    exact ⟨some ⟨h, b⟩, _, _, hr, hok _ _ _ hr⟩

/-- One call of `parse_and_distribute` at a place in a stream of STDOUT and STDERR records: it
returns, ends no request, and leaves the parser stuck. -/
theorem parseAndDistribute_output {c : Cursor} (hrs : ∀ r ∈ c.stream, r.IsOutput) (hv : c.Valid)
    {d fut : Bytes} (hu : c.unread = d ++ fut) (requests : Slab FCGIRequest) :
    ∃ (requests' : Slab FCGIRequest) (eff : Effects) (c' : Cursor) (d' : Bytes),
      parseAndDistribute d requests c.reader =
        .ok ((requests', eff), c'.reader, d') ∧
      c'.stream = c.stream ∧ c'.Valid ∧ c'.unread = d' ++ fut ∧ c'.Stuck d' ∧
      ∀ key, endedAt requests' key = endedAt requests key := by
  have hat : RecordReader.AtCursor (KeepsEnded requests) c.stream (requests, .none) c.reader
      (d ++ fut) := ⟨c, rfl, hv, rfl, hu, hrs, fun _ => rfl⟩
  obtain ⟨⟨acc', s', d'⟩, hd⟩ := Incremental.drainWith_total
    (keepsEnded_preserves requests c.stream fut) c.reader d (requests, .none) hat
  obtain ⟨c', hs, hv', rfl, hu', hP, hstuck⟩ :=
    RecordReader.drainWith_cursor (keepsEnded_keeps requests) hat hd
  exact ⟨acc'.1, acc'.2, c', d', hd, hs, hv', hu', hstuck, hP.2⟩

/-! ## Sequences of calls -/

/-- One call of `poll_resp`: the state before it, what `poll_fill_buf` returned to it, what it
returned, and the state after it. -/
structure Call where
  before : InnerConnection
  slice : Poll (Except IoError Bytes)
  res : Poll (Option (Except IoError Unit))
  after : InnerConnection

/-- What the socket gives to a call, with the reads still to come and whether the next of them
has arrived. -/
def socketAt (arrived : Bool) (reads : List Bytes) : SocketRead :=
  if arrived then .ready (reads.headD []) else .pending

/-- The calls of `poll_resp` by tasks `polls.map Prod.fst`. The socket is asked only when the
buffer is empty. -/
def pollRun (inner : InnerConnection) (reads : List Bytes) :
    List (Waker × Bool) → Except Fault (List Call)
  | [] => .ok []
  | (cx, arrived) :: polls => do
    let sock := socketAt arrived reads
    let (res, after, _) ← inner.pollResp sock cx
    let reads := if inner.io.buf = [] ∧ arrived then reads.tail else reads
    let calls ← pollRun after reads polls
    .ok ({ before := inner, slice := (inner.io.pollFillBuf sock cx).1, res, after } :: calls)

/-- The call marks a request as ended. -/
def Call.Ends (call : Call) : Prop :=
  ∃ key, endedAt call.before.runningRequests key = some false ∧
    endedAt call.after.runningRequests key = some true

/-- The call declares the connection closed, to its caller, to `check_alive` or to a request,
only at the end of the stream. -/
def Call.ClosesAtEnd (call : Call) : Prop :=
  call.res = .ready none ∨ checkAlive call.res = .ok false ∨ call.Ends →
    call.slice = .ready (.ok [])

/-- Between two calls: nothing is left in the buffer, and the parser is stuck at a cursor of
the stream. -/
def Between (rs : List WireRecord) (inner : InnerConnection) (reads : List Bytes) : Prop :=
  inner.io.buf = [] ∧ ∃ c : Cursor, c.stream = rs ∧ c.Valid ∧ c.reader = inner.fcgiParser ∧
    c.unread = reads.flatten ∧ c.Stuck []

/-- A call that finds the next read there uses all of it, or leaves the reader stuck in front
of what is left. -/
theorem pollResp_next {rs : List WireRecord} (hrs : ∀ r ∈ rs, r.IsOutput)
    {inner : InnerConnection} {c : Bytes} {cs : List Bytes} (hne : c ≠ [])
    (h : Between rs inner (c :: cs)) (cx : Waker) :
    ∃ res after eff, inner.pollResp (.ready c) cx = .ok (res, after, eff) ∧
      ∃ (k : Cursor) (d : Bytes), k.stream = rs ∧ k.Valid ∧ k.unread = d ++ cs.flatten ∧
        k.Stuck d ∧
        ((d = c ∧ res = .ready none) ∨
          (res = .ready (some (.ok ())) ∧ after.io.buf = d ∧ k.reader = after.fcgiParser ∧
            ∀ key, endedAt after.runningRequests key = endedAt inner.runningRequests key)) := by
  obtain ⟨hbuf, k₀, rfl, hv, hr, hu, -⟩ := h
  have hfill : inner.io.pollFillBuf (.ready c) cx = (.ready (.ok c), { inner.io with buf := c }) := by
    rw [BufReader.pollFillBuf, hbuf, if_neg (by simp)]
  rw [List.flatten_cons] at hu
  obtain ⟨requests', eff', k, d, hparse, hs, hv', hu', hstuck, hended⟩ :=
    parseAndDistribute_output hrs hv hu inner.runningRequests
  rw [hr] at hparse
  obtain ⟨res, after, eff, hres⟩ := @pollResp_returns inner (.ready c) cx (by
    intro rbuf h _
    rw [hfill] at h
    simp only [Poll.ready.injEq, Except.ok.injEq] at h
    exact ⟨_, h ▸ hparse⟩)
  refine ⟨res, after, eff, hres, k, d, hs, hv', hu', hstuck, ?_⟩
  cases pollResp_polled hres with
  | pending h => rw [hfill] at h; simp at h
  | failed h => rw [hfill] at h; simp at h
  | ended h => rw [hfill] at h; simp [hne] at h
  | stalled h hne' hstall hparse' =>
    rw [hfill] at h
    simp only [Prod.mk.injEq, Poll.ready.injEq, Except.ok.injEq] at h
    obtain ⟨rfl, rfl⟩ := h
    rw [hparse] at hparse'
    simp only [Except.ok.injEq, Prod.mk.injEq] at hparse'
    exact Or.inl ⟨hparse'.2.2, rfl⟩
  | read h hne' hstall hparse' =>
    rw [hfill] at h
    simp only [Prod.mk.injEq, Poll.ready.injEq, Except.ok.injEq] at h
    obtain ⟨rfl, rfl⟩ := h
    rw [hparse] at hparse'
    simp only [Except.ok.injEq, Prod.mk.injEq] at hparse'
    obtain ⟨⟨rfl, -⟩, rfl, rfl⟩ := hparse'
    exact Or.inr ⟨rfl, rfl, rfl, hended⟩

/-- Every call of the sequence returns and closes only at the end. -/
def RunClosesAtEnd (inner : InnerConnection) (reads : List Bytes) (polls : List (Waker × Bool)) :
    Prop :=
  ∃ calls, pollRun inner reads polls = .ok calls ∧ ∀ call ∈ calls, call.ClosesAtEnd

theorem runClosesAtEnd_cons {inner after : InnerConnection} {reads : List Bytes} {cx : Waker}
    {arrived : Bool} {polls : List (Waker × Bool)} {res : Poll (Option (Except IoError Unit))}
    {eff : Effects}
    (h : inner.pollResp (socketAt arrived reads) cx = .ok (res, after, eff)) :
    RunClosesAtEnd inner reads ((cx, arrived) :: polls) ↔
      Call.ClosesAtEnd ⟨inner, (inner.io.pollFillBuf (socketAt arrived reads) cx).1, res, after⟩ ∧
        RunClosesAtEnd after (if inner.io.buf = [] ∧ arrived then reads.tail else reads) polls := by
  unfold RunClosesAtEnd
  rw [pollRun]
  simp only [h, ok_bind]
  generalize (if inner.io.buf = [] ∧ arrived = true then reads.tail else reads) = reads'
  cases pollRun after reads' polls with
  | error e => simp
  | ok calls => simp

/-- The place of the last byte at hand is outside a content exactly if bytes are left. -/
theorem cuts_iff_left {rs : List WireRecord} {c : Cursor} (hs : c.stream = rs) (hv : c.Valid)
    {d : Bytes} {reads : List Bytes} (hu : c.unread = d ++ reads.flatten) (hstuck : c.Stuck d)
    {pos : ℕ} (hpos : pos + reads.flatten.length = (WireRecord.encodeAll rs).length) :
    RecordReader.Cuts WireRecord.OutsideContent rs pos ↔ d ≠ [] := by
  subst hs
  rw [RecordReader.cuts_iff_within _ hv hu hstuck hpos, Cursor.within_outsideContent_iff hv hu hstuck]

theorem not_cuts_of_between {rs : List WireRecord} {inner : InnerConnection} {reads : List Bytes}
    (hb : Between rs inner reads) {pos : ℕ}
    (hpos : pos + reads.flatten.length = (WireRecord.encodeAll rs).length) :
    ¬ RecordReader.Cuts WireRecord.OutsideContent rs pos := by
  obtain ⟨-, k, hs, hv, -, hu, hstuck⟩ := hb
  rw [cuts_iff_left (d := []) hs hv hu hstuck hpos]
  exact fun h => h rfl

/-- While no read ends outside a content, every call closes only at the end. -/
theorem runClosesAtEnd_of_uncut {rs : List WireRecord} (hrs : ∀ r ∈ rs, r.IsOutput)
    (polls : List (Waker × Bool)) :
    ∀ (reads : List Bytes) (pos : ℕ) (inner : InnerConnection), (∀ c ∈ reads, c ≠ []) →
      Between rs inner reads →
      pos + reads.flatten.length = (WireRecord.encodeAll rs).length →
      (∀ as, as <+: reads →
        ¬ RecordReader.Cuts WireRecord.OutsideContent rs (pos + as.flatten.length)) →
      RunClosesAtEnd inner reads polls := by
  induction polls with
  | nil => intro reads pos inner _ _ _ _; exact ⟨[], rfl, by simp⟩
  | cons p polls ih =>
    obtain ⟨cx, arrived⟩ := p
    intro reads pos inner hne hb hpos huncut
    have hbuf := hb.1
    cases arrived with
    | false =>
      -- the socket is pending: nothing changes but the registration
      have hcall : inner.pollResp (socketAt false reads) cx =
          .ok (.pending, { inner with io := { inner.io with registered := some cx } }, .none) := by
        simp [pollResp, BufReader.pollFillBuf, hbuf, socketAt]
      rw [runClosesAtEnd_cons hcall]
      refine ⟨?_, ih _ pos _ (by simpa using hne) ?_ (by simpa using hpos) (by simpa using huncut)⟩
      · rintro (h | h | ⟨key, h, h'⟩)
        · cases h
        · cases h
        · rw [h] at h'; cases h'
      · simpa using ⟨hbuf, hb.2⟩
    | true =>
      cases reads with
      | nil =>
        -- the end of the stream
        have hfill : inner.io.pollFillBuf (socketAt true []) cx =
            (.ready (.ok []), { inner.io with buf := [] }) := by
          simp [BufReader.pollFillBuf, hbuf, socketAt]
        have hcall : inner.pollResp (socketAt true []) cx =
            .ok (.ready none, { inner with
              io := { inner.io with buf := [] }
              runningRequests := (notifyEveryone inner.runningRequests).1 },
              .none ++ (notifyEveryone inner.runningRequests).2) := by
          rw [pollResp, hfill]
          rfl
        rw [runClosesAtEnd_cons hcall]
        refine ⟨fun _ => by rw [hfill], ih _ pos _ (by simp) ?_ (by simpa using hpos) ?_⟩
        · exact ⟨rfl, by simpa using hb.2⟩
        · simpa using huncut
      | cons c cs =>
        obtain ⟨res, after, eff, hcall, k, d, hs, hv, hu, hstuck, hres⟩ :=
          pollResp_next hrs (hne c List.mem_cons_self) hb cx
        have hpos' : pos + c.length + cs.flatten.length = (WireRecord.encodeAll rs).length := by
          rw [← hpos, List.flatten_cons, List.length_append, Nat.add_assoc]
        have hd : d = [] := by
          by_contra hd
          refine huncut [c] ⟨cs, rfl⟩ ?_
          rw [List.flatten_singleton]
          exact (cuts_iff_left hs hv hu hstuck hpos').mpr hd
        subst hd
        rcases hres with ⟨hd, -⟩ | ⟨rfl, hafter, hr, hended⟩
        · exact absurd hd.symm (hne c List.mem_cons_self)
        · have hcall₁ : inner.pollResp (socketAt true (c :: cs)) cx =
              .ok (.ready (some (.ok ())), after, eff) := hcall
          rw [runClosesAtEnd_cons hcall₁]
          refine ⟨?_, ?_⟩
          · rintro (h | h | ⟨key, h, h'⟩)
            · cases h
            · cases h
            · rw [hended key, h] at h'; cases h'
          · rw [if_pos ⟨hbuf, rfl⟩, List.tail_cons]
            refine ih cs (pos + c.length) after (fun x hx => hne x (List.mem_cons_of_mem _ hx))
              ⟨hafter, k, hs, hv, hr, hu, hstuck⟩ hpos' fun as has => ?_
            have := huncut (c :: as) ((List.prefix_cons_inj c).mpr has)
            rwa [List.flatten_cons, List.length_append, ← Nat.add_assoc] at this

/-- A read that ends outside a content makes some sequence of calls close too early. -/
theorem exists_polls_of_cut {rs : List WireRecord} (hrs : ∀ r ∈ rs, r.IsOutput)
    (reads : List Bytes) :
    ∀ (pos : ℕ) (inner : InnerConnection) (as : List Bytes), (∀ c ∈ reads, c ≠ []) →
      Between rs inner reads →
      pos + reads.flatten.length = (WireRecord.encodeAll rs).length → as <+: reads →
      RecordReader.Cuts WireRecord.OutsideContent rs (pos + as.flatten.length) →
      ∃ polls, ¬ RunClosesAtEnd inner reads polls := by
  induction reads with
  | nil =>
    intro pos inner as _ hb hpos has hcut
    obtain rfl := List.prefix_nil.mp has
    exact absurd hcut (not_cuts_of_between hb hpos)
  | cons c cs ih =>
    intro pos inner as hne hb hpos has hcut
    cases as with
    | nil =>
      exact absurd hcut (not_cuts_of_between hb hpos)
    | cons a as =>
      obtain ⟨rfl, has'⟩ := List.cons_prefix_cons.mp has
      have hbuf := hb.1
      obtain ⟨res, after, eff, hcall, k, d, hs, hv, hu, hstuck, hres⟩ :=
        pollResp_next hrs (hne a List.mem_cons_self) hb 0
      have hpos' : pos + a.length + cs.flatten.length = (WireRecord.encodeAll rs).length := by
        rw [← hpos, List.flatten_cons, List.length_append, Nat.add_assoc]
      have hfill : (inner.io.pollFillBuf (.ready a) 0).1 = .ready (.ok a) := by
        rw [BufReader.pollFillBuf, hbuf, if_neg (by simp)]
      have hcall₁ : inner.pollResp (socketAt true (a :: cs)) 0 = .ok (res, after, eff) := hcall
      have hcons : ∀ polls, RunClosesAtEnd inner (a :: cs) ((0, true) :: polls) →
          Call.ClosesAtEnd ⟨inner, .ready (.ok a), res, after⟩ ∧ RunClosesAtEnd after cs polls := by
        intro polls hrun
        have h := (runClosesAtEnd_cons hcall₁).mp hrun
        rw [if_pos ⟨hbuf, rfl⟩, List.tail_cons, socketAt, if_pos rfl, List.headD_cons, hfill] at h
        exact h
      rcases hres with ⟨rfl, rfl⟩ | ⟨rfl, hafter, hr, -⟩
      · -- nothing of the read could be used
        refine ⟨[(0, true)], fun hrun => hne d List.mem_cons_self ?_⟩
        have hslice := (hcons [] hrun).1 (Or.inl rfl)
        simpa using hslice
      · by_cases hd : d = []
        · subst hd
          obtain ⟨polls, hpolls⟩ := ih (pos + a.length) after as
            (fun x hx => hne x (List.mem_cons_of_mem _ hx)) ⟨hafter, k, hs, hv, hr, hu, hstuck⟩
            hpos' has' (by rwa [List.flatten_cons, List.length_append, ← Nat.add_assoc] at hcut)
          exact ⟨(0, true) :: polls, fun hrun => hpolls (hcons polls hrun).2⟩
        · -- the next call finds only what was left
          refine ⟨[(0, true), (0, true)], fun hrun => hd ?_⟩
          have hrun₂ := (hcons _ hrun).2
          obtain ⟨calls, hrun', hall⟩ := id hrun₂
          have hfill' : (after.io.pollFillBuf (socketAt true cs) 0).1 = .ready (.ok d) := by
            unfold BufReader.pollFillBuf
            rw [hafter, if_pos hd]
          rw [pollRun] at hrun'
          obtain ⟨⟨res', after', eff'⟩, hcall', hrun'⟩ := bind_eq_ok.mp hrun'
          have hclosed := (pollResp_closed_iff hcall').mpr
            ⟨d, hfill', Or.inr (hr ▸ hstuck.stalled hv hd)⟩
          have hslice := ((runClosesAtEnd_cons hcall').mp hrun₂).1 (Or.inl hclosed)
          rw [hfill'] at hslice
          simpa using hslice

theorem between_fresh {rs : List WireRecord} (requests : Slab FCGIRequest) {reads : List Bytes}
    (h : reads.flatten = WireRecord.encodeAll rs) : Between rs (fresh requests) reads :=
  ⟨rfl, .start rs, rfl, Cursor.valid_none _ _, rfl, h.symm, show 0 < 8 by decide⟩

/-- **When the connection counts as closed.** Any table of requests, and a stream of STDOUT and
STDERR records cut into any reads: every sequence of `poll_resp` calls declares the connection
closed only at the end of the stream exactly if no read ends inside a header or padding. -/
theorem closes_at_end_iff (requests : Slab FCGIRequest) (rs : List WireRecord)
    (hrs : ∀ r ∈ rs, r.IsOutput) (reads : List Bytes) (hne : ∀ c ∈ reads, c ≠ [])
    (hreads : reads.flatten = WireRecord.encodeAll rs) :
    (∀ polls, RunClosesAtEnd (fresh requests) reads polls) ↔
      ∀ as, as <+: reads →
        ¬ RecordReader.Cuts WireRecord.OutsideContent rs as.flatten.length := by
  have hpos : 0 + reads.flatten.length = (WireRecord.encodeAll rs).length := by
    rw [hreads, Nat.zero_add]
  constructor
  · intro hrun as has hcut
    obtain ⟨polls, hpolls⟩ := exists_polls_of_cut hrs reads 0 (fresh requests) as hne
      (between_fresh requests hreads) hpos has (by rwa [Nat.zero_add])
    exact hpolls (hrun polls)
  · intro huncut polls
    refine runClosesAtEnd_of_uncut hrs polls reads 0 (fresh requests) hne
      (between_fresh requests hreads) hpos fun as has => ?_
    rw [Nat.zero_add]
    exact huncut as has

/-- Two greetings in two reads that end in front of a padding byte and behind it. -/
theorem closes_at_end_iff_greetings :
    ([greeting.encode.take 11, greeting.encode.drop 11 ++ greeting.encode].flatten =
        WireRecord.encodeAll [greeting, greeting]) ∧
      ∀ polls, RunClosesAtEnd (fresh oneRequest)
        [greeting.encode.take 11, greeting.encode.drop 11 ++ greeting.encode] polls := by
  refine ⟨by decide, (closes_at_end_iff oneRequest [greeting, greeting] (by decide)
    [greeting.encode.take 11, greeting.encode.drop 11 ++ greeting.encode] (by decide)
    (by decide)).mpr fun as has => ?_⟩
  rw [← List.mem_inits] at has
  revert as
  decide

/-- The first read ends inside the second header: the second call closes the connection and
ends the request, though the rest of the stream is still to come. -/
theorem closed_inside_header :
    ([greeting.encode ++ greeting.encode.take 5, greeting.encode.drop 5].flatten =
        WireRecord.encodeAll [greeting, greeting]) ∧
      ¬ ∀ polls, RunClosesAtEnd (fresh oneRequest)
        [greeting.encode ++ greeting.encode.take 5, greeting.encode.drop 5] polls := by
  refine ⟨by decide, fun h => ?_⟩
  obtain ⟨calls, hrun, hall⟩ := h [(0, true), (0, true)]
  have hearly : (pollRun (fresh oneRequest)
      [greeting.encode ++ greeting.encode.take 5, greeting.encode.drop 5]
      [(0, true), (0, true)]).map
        (fun calls => calls.any fun call => call.res = .ready none ∧ call.slice ≠ .ready (.ok [])) =
      .ok true := by
    decide +kernel
  rw [hrun] at hearly
  obtain ⟨call, hmem, hcall⟩ := List.any_eq_true.mp (Except.ok.inj hearly)
  rw [decide_eq_true_eq] at hcall
  exact hcall.2 (hall call hmem (Or.inl hcall.1))

end InnerConnection

end AsyncFcgi
