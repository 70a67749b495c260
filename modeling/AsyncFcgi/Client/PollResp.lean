import AsyncFcgi.Client.Distribute
import AsyncFcgi.Io

/-!
# Driving a connection (`src/client/connection.rs`)

The `BufReader` below a connection, `InnerConnection`, `poll_resp` and `CheckAlive::poll`.

`poll_resp` takes a call in which the parser consumed nothing for the end of the stream.

* `drainWith_stalled`: the parser consumes nothing of a non-empty slice exactly where it is
  `Stalled`: in front of a part of a header, or of a part of the padding.
* `pollResp_closed_iff`: `poll_resp` returns `Ready(None)` exactly at an empty slice or there.
* `pollResp_polled`: what one call can do.
-/

namespace AsyncFcgi

open Lib

/-- What the socket gives when it is polled for reading; no bytes are the end of the
stream. -/
inductive SocketRead
  | pending
  | ready (bs : Bytes)
  | failed (e : IoError)
  deriving DecidableEq, Repr

/-- `tokio::io::BufReader` over the socket: the bytes not consumed, and the waker the socket
remembers, which is that of the last poll that found it pending. -/
structure BufReader where
  buf : Bytes
  registered : Option Waker
  deriving DecidableEq, Repr

namespace BufReader

/-- `BufReader::new`. -/
def new : BufReader := ⟨[], none⟩

/-- `poll_fill_buf`: the bytes not consumed, or the next read from the socket. -/
def pollFillBuf (io : BufReader) (sock : SocketRead) (cx : Waker) :
    Poll (Except IoError Bytes) × BufReader :=
  if io.buf ≠ [] then (.ready (.ok io.buf), io)
  else
    match sock with
    | .pending => (.pending, { io with registered := some cx })
    | .ready bs => (.ready (.ok bs), { io with buf := bs })
    | .failed e => (.ready (.error e), io)

/-- `consume`. -/
def consume (io : BufReader) (amt : ℕ) : BufReader := { io with buf := io.buf.drop amt }

end BufReader

/-- `InnerConnection` (lines 99–103). -/
structure InnerConnection where
  io : BufReader
  runningRequests : Slab FCGIRequest
  fcgiParser : RecordReader
  deriving DecidableEq, Repr

namespace InnerConnection

/-- A connection whose parser and buffer are new. -/
def fresh (requests : Slab FCGIRequest) : InnerConnection where
  io := .new
  runningRequests := requests
  fcgiParser := .new

/-- `InnerConnection::poll_resp` (lines 605–656). -/
def pollResp (self : InnerConnection) (sock : SocketRead) (cx : Waker) :
    Except Fault (Poll (Option (Except IoError Unit)) × InnerConnection × Effects) :=
  match self.io.pollFillBuf sock cx with
  | (.pending, io) => .ok (.pending, { self with io }, .none)
  | (.ready (.error e), io) =>
    let (runningRequests, eff) := notifyEveryone self.runningRequests
    .ok (.ready (some (.error e)), { self with io, runningRequests }, eff)
  | (.ready (.ok rbuf), io) => do
    let dataAvailable := rbuf.length
    let ((runningRequests, eff), fcgiParser, data) ←
      if dataAvailable = 0 then .ok ((self.runningRequests, .none), self.fcgiParser, [])
      else parseAndDistribute rbuf self.runningRequests self.fcgiParser
    let read := dataAvailable - data.length
    if read = 0 then
      let (runningRequests, eff') := notifyEveryone runningRequests
      .ok (.ready none, { io, runningRequests, fcgiParser }, eff ++ eff')
    else
      .ok (.ready (some (.ok ())), { io := io.consume read, runningRequests, fcgiParser }, eff)

/-- `CheckAlive::poll` (lines 578–591) on what `poll_resp` returned. -/
def checkAlive (res : Poll (Option (Except IoError Unit))) : Except IoError Bool :=
  match res with
  | .ready none => .ok false
  | .ready (some (.error e)) => if e.kind = .notConnected then .ok false else .error e
  | _ => .ok true

end InnerConnection

/-! ## Where the parser consumes nothing -/

namespace RecordReader

/-- The parser state and the bytes at hand (some) of which `read` consumes none: a part of a
header, a part of the padding behind a finished content. The last case, a record without any
byte missing, is never left in `current`. -/
def Stalled (self : RecordReader) (data : Bytes) : Prop :=
  match self.current with
  | none => data.length < 8
  | some h => h.contentLength = 0 ∧
      (data.length < h.paddingLength.toNat ∨ (h.paddingLength = 0 ∧ data.length < 8))

instance (self : RecordReader) (data : Bytes) : Decidable (self.Stalled data) := by
  unfold Stalled
  cases self.current with
  | none => exact inferInstanceAs (Decidable (_ < _))
  | some h => exact inferInstanceAs (Decidable (_ ∧ _))

/-- What `deliver` consumes: the content and the padding, or the content alone. -/
theorem deliver_consumes {h : Header} {n : ℕ} {cur : Option Header} {d d' : Bytes}
    {o : Option Record} {s' : RecordReader} (hr : deliver h n cur d = .ok (o, s', d')) :
    (d.length < n + h.paddingLength.toNat ∧ Consumes n d d' ∧ (n = 0 → o = none)) ∨
      (Consumes (n + h.paddingLength.toNat) d d' ∧ s' = ⟨cur⟩ ∧ o.isSome) := by
  unfold deliver at hr
  obtain ⟨body, -, hr⟩ := bind_eq_ok.mp hr
  obtain ⟨d₁, hadv, hr⟩ := bind_eq_ok.mp hr
  have h₁ := advance_consumes hadv
  split at hr
  · rename_i hlt
    left
    have := h₁.2
    split at hr
    · simp only [Except.ok.injEq, Prod.mk.injEq] at hr
      obtain ⟨rfl, -, rfl⟩ := hr
      exact ⟨by omega, h₁, fun _ => rfl⟩
    · obtain ⟨b, -, hr⟩ := bind_eq_ok.mp hr
      simp only [Except.ok.injEq, Prod.mk.injEq] at hr
      obtain ⟨-, -, rfl⟩ := hr
      exact ⟨by omega, h₁, fun hn => by omega⟩
  · right
    obtain ⟨d₂, hadv₂, hr⟩ := bind_eq_ok.mp hr
    obtain ⟨b, -, hr⟩ := bind_eq_ok.mp hr
    simp only [Except.ok.injEq, Prod.mk.injEq] at hr
    obtain ⟨rfl, rfl, rfl⟩ := hr
    exact ⟨h₁.trans (advance_consumes hadv₂), rfl, rfl⟩

/-- Having reached its content, `deliver` consumes at least that. -/
theorem deliver_lt {h : Header} {n : ℕ} {cur : Option Header} {d d' : Bytes}
    {o : Option Record} {s' : RecordReader} (hr : deliver h n cur d = .ok (o, s', d')) :
    n + d'.length ≤ d.length := by
  rcases deliver_consumes hr with ⟨-, hc, -⟩ | ⟨hc, -⟩
  · rw [← hc.2, Nat.add_comm]
  · have hlen := hc.2
    omega

theorem readBody_suffix {h : Header} {d d' : Bytes} {o : Option Record} {s' : RecordReader}
    (hr : readBody h d = .ok (o, s', d')) : d' <:+ d := by
  unfold readBody at hr
  simp only at hr
  split at hr
  · split at hr
    · simp only [Except.ok.injEq, Prod.mk.injEq] at hr
      rw [← hr.2.2]
    · rcases deliver_consumes hr with ⟨-, hc, -⟩ | ⟨hc, -⟩ <;> exact hc.1
  · rcases deliver_consumes hr with ⟨-, hc, -⟩ | ⟨hc, -⟩ <;> exact hc.1

/-- While content is missing, bytes at hand are used. -/
theorem readBody_lt {h : Header} {d d' : Bytes} {o : Option Record} {s' : RecordReader}
    (hc : h.contentLength ≠ 0) (hne : d ≠ []) (hr : readBody h d = .ok (o, s', d')) :
    d'.length < d.length := by
  have hd := List.length_pos_iff.mpr hne
  have hpos : 0 < h.contentLength.toNat :=
    Nat.pos_of_ne_zero fun h0 => hc (UInt16.toNat_inj.mp h0)
  unfold readBody at hr
  simp only at hr
  split at hr
  · split at hr
    · omega
    · have hle := deliver_lt hr
      omega
  · have hle := deliver_lt hr
    omega

/-- Behind the content, the padding is used as a whole. -/
theorem readBody_padding {h : Header} {d d' : Bytes} {o : Option Record} {s' : RecordReader}
    (hc : h.contentLength = 0) (hr : readBody h d = .ok (o, s', d')) :
    (d.length < h.paddingLength.toNat ∧ d'.length = d.length ∧ o = none) ∨
      (h.paddingLength.toNat + d'.length = d.length ∧ s' = ⟨none⟩ ∧ o.isSome) := by
  unfold readBody at hr
  simp only [hc, UInt16.toNat_zero, Nat.not_lt_zero, if_false] at hr
  rcases deliver_consumes hr with ⟨hlt, hlen, ho⟩ | ⟨hlen, hs, ho⟩
  · exact Or.inl ⟨by omega, hlen.2, ho rfl⟩
  · exact Or.inr ⟨by have := hlen.2; omega, hs, ho⟩

theorem read_suffix {s s' : RecordReader} {d d' : Bytes} {o : Option Record}
    (hr : s.read d = .ok (o, s', d')) : d' <:+ d := by
  unfold read at hr
  split at hr
  · exact readBody_suffix hr
  · split at hr
    · simp only [Except.ok.injEq, Prod.mk.injEq] at hr
      rw [← hr.2.2]
    · obtain ⟨⟨h, d₁⟩, hp, hr⟩ := bind_eq_ok.mp hr
      exact (readBody_suffix hr).trans (parse_consumes hp).1

/-- Without a stored header, bytes are used exactly if a whole header is there. -/
theorem read_fresh {d d' : Bytes} {o : Option Record} {s' : RecordReader}
    (hr : read ⟨none⟩ d = .ok (o, s', d')) :
    (d.length < 8 ∧ o = none ∧ d'.length = d.length) ∨ (8 ≤ d.length ∧ d'.length < d.length) := by
  unfold read at hr
  simp only at hr
  split at hr
  · simp only [Except.ok.injEq, Prod.mk.injEq] at hr
    obtain ⟨rfl, -, rfl⟩ := hr
    exact Or.inl ⟨by assumption, rfl, rfl⟩
  · obtain ⟨⟨h, d₁⟩, hp, hr⟩ := bind_eq_ok.mp hr
    have hlen := (parse_consumes hp).2
    have hle : d'.length ≤ d₁.length := (readBody_suffix hr).length_le
    exact Or.inr ⟨by omega, by omega⟩

section

variable {τ : Type*} {f : τ → Record → τ}

theorem drainWith_suffix {acc acc' : τ} {s s' : RecordReader} {d d' : Bytes}
    (hd : incremental.drainWith f acc s d = .ok (acc', s', d')) : d' <:+ d := by
  induction s, d using Incremental.drain_induction (I := incremental) generalizing acc with
  | error s d e h => rw [Incremental.drainWith_error h] at hd; cases hd
  | none s d s₁ d₁ h =>
    rw [Incremental.drainWith_none h] at hd
    cases hd
    exact read_suffix h
  | some s d r s₁ d₁ h ih =>
    rw [Incremental.drainWith_some h] at hd
    exact (ih hd).trans (read_suffix h)

/-- The end of a loop whose first call returned. -/
theorem drainWith_first {acc acc' : τ} {s s' : RecordReader} {d d' : Bytes}
    (hd : incremental.drainWith f acc s d = .ok (acc', s', d')) :
    ∃ o s₁ d₁, s.read d = .ok (o, s₁, d₁) ∧ (o = none → d' = d₁) ∧
      ∀ r, o = some r → incremental.drainWith f (f acc r) s₁ d₁ = .ok (acc', s', d') := by
  rcases hr : s.read d with e | ⟨_ | r, s₁, d₁⟩
  · rw [Incremental.drainWith_error (I := incremental) hr] at hd
    cases hd
  · rw [Incremental.drainWith_none (I := incremental) hr] at hd
    simp only [Except.ok.injEq, Prod.mk.injEq] at hd
    exact ⟨none, s₁, d₁, rfl, fun _ => hd.2.2.symm, nofun⟩
  · rw [Incremental.drainWith_some (I := incremental) hr] at hd
    refine ⟨some r, s₁, d₁, rfl, nofun, fun r' h => ?_⟩
    rw [← Option.some.inj h]
    exact hd

theorem drainWith_fresh {acc acc' : τ} {s' : RecordReader} {d d' : Bytes}
    (hd : incremental.drainWith f acc ⟨none⟩ d = .ok (acc', s', d')) :
    d'.length = d.length ↔ d.length < 8 := by
  obtain ⟨o, s₁, d₁, hr, hnone, hsome⟩ := drainWith_first hd
  have hle : d'.length ≤ d₁.length := by
    cases o with
    | none => rw [hnone rfl]
    | some r => exact (drainWith_suffix (hsome r rfl)).length_le
  rcases read_fresh hr with ⟨hlt, ho, hlen⟩ | ⟨hge, hlt⟩
  · rw [hnone ho, hlen]
    exact iff_of_true rfl hlt
  · exact iff_of_false (by omega) (by omega)

/-- The loop leaves a slice as it is exactly where the parser is stalled. -/
theorem drainWith_stalled {acc acc' : τ} {s s' : RecordReader} {d d' : Bytes} (hne : d ≠ [])
    (hd : incremental.drainWith f acc s d = .ok (acc', s', d')) :
    d'.length = d.length ↔ s.Stalled d := by
  obtain ⟨_ | h⟩ := s
  · exact drainWith_fresh hd
  obtain ⟨o, s₁, d₁, hr, hnone, hsome⟩ := drainWith_first hd
  have hle : d'.length ≤ d₁.length := by
    cases o with
    | none => rw [hnone rfl]
    | some r => exact (drainWith_suffix (hsome r rfl)).length_le
  have hpad : h.paddingLength = 0 ↔ h.paddingLength.toNat = 0 := by
    rw [← UInt8.toNat_inj]; rfl
  simp only [Stalled, hpad]
  by_cases hc : h.contentLength = 0
  · rcases readBody_padding hc hr with ⟨hlt, hlen, ho⟩ | ⟨hlen, rfl, ho⟩
    · rw [hnone ho, hlen]
      exact iff_of_true rfl ⟨hc, Or.inl hlt⟩
    · -- the record is finished, and without padding the next one starts in the same bytes
      obtain ⟨r, rfl⟩ := Option.isSome_iff_exists.mp ho
      have hfresh := drainWith_fresh (hsome r rfl)
      simp only [hc, true_and]
      omega
  · have hlt := readBody_lt hc hne hr
    exact iff_of_false (by omega) fun hst => hc hst.1

end

end RecordReader

namespace BufReader

/-- A slice is what the reader then holds, and nothing is registered for it. -/
theorem pollFillBuf_ready {io io' : BufReader} {sock : SocketRead} {cx : Waker} {rbuf : Bytes}
    (h : io.pollFillBuf sock cx = (.ready (.ok rbuf), io')) :
    io' = { io with buf := rbuf } := by
  unfold pollFillBuf at h
  split at h
  · simp only [Prod.mk.injEq, Poll.ready.injEq, Except.ok.injEq] at h
    rw [← h.1, ← h.2]
  · cases sock <;> simp only [Prod.mk.injEq, Poll.ready.injEq, Except.ok.injEq, reduceCtorEq,
      false_and] at h
    rw [← h.1, ← h.2]

/-- Pending: nothing to consume, and the socket remembers the waker. -/
theorem pollFillBuf_pending {io io' : BufReader} {sock : SocketRead} {cx : Waker}
    (h : io.pollFillBuf sock cx = (.pending, io')) :
    io.buf = [] ∧ sock = .pending ∧ io' = { io with registered := some cx } := by
  unfold pollFillBuf at h
  split at h
  · simp at h
  · cases sock <;> simp_all

end BufReader

namespace InnerConnection

/-- What one call of `poll_resp` can do: find the socket pending, an error or its end, use
bytes, or find bytes of which it can use none. -/
inductive Polled (self : InnerConnection) (sock : SocketRead) (cx : Waker) :
    Poll (Option (Except IoError Unit)) → InnerConnection → Effects → Prop
  | pending {io} (hfill : self.io.pollFillBuf sock cx = (.pending, io)) :
      Polled self sock cx .pending { self with io } .none
  | failed {io e} (hfill : self.io.pollFillBuf sock cx = (.ready (.error e), io)) :
      Polled self sock cx (.ready (some (.error e)))
        { self with io, runningRequests := (notifyEveryone self.runningRequests).1 }
        (notifyEveryone self.runningRequests).2
  | ended {io} (hfill : self.io.pollFillBuf sock cx = (.ready (.ok []), io)) :
      Polled self sock cx (.ready none)
        { self with io, runningRequests := (notifyEveryone self.runningRequests).1 }
        (notifyEveryone self.runningRequests).2
  | stalled {io rbuf requests eff parser}
      (hfill : self.io.pollFillBuf sock cx = (.ready (.ok rbuf), io)) (hne : rbuf ≠ [])
      (hstall : self.fcgiParser.Stalled rbuf)
      (hparse : parseAndDistribute rbuf self.runningRequests self.fcgiParser =
        .ok ((requests, eff), parser, rbuf)) :
      Polled self sock cx (.ready none)
        { io, runningRequests := (notifyEveryone requests).1, fcgiParser := parser }
        (eff ++ (notifyEveryone requests).2)
  | read {io rbuf requests eff parser data}
      (hfill : self.io.pollFillBuf sock cx = (.ready (.ok rbuf), io)) (hne : rbuf ≠ [])
      (hstall : ¬ self.fcgiParser.Stalled rbuf)
      (hparse : parseAndDistribute rbuf self.runningRequests self.fcgiParser =
        .ok ((requests, eff), parser, data)) :
      Polled self sock cx (.ready (some (.ok ())))
        { io := { io with buf := data }, runningRequests := requests, fcgiParser := parser } eff

theorem pollResp_polled {self self' : InnerConnection} {sock : SocketRead} {cx : Waker}
    {res : Poll (Option (Except IoError Unit))} {eff : Effects}
    (h : self.pollResp sock cx = .ok (res, self', eff)) : Polled self sock cx res self' eff := by
  unfold pollResp at h
  rcases hfill : self.io.pollFillBuf sock cx with ⟨(e | rbuf) | _, io⟩
  · rw [hfill] at h
    simp only [Except.ok.injEq, Prod.mk.injEq] at h
    obtain ⟨rfl, rfl, rfl⟩ := h
    exact .failed hfill
  · rw [hfill] at h
    simp only at h
    by_cases hne : rbuf = []
    · subst hne
      simp only [List.length_nil, if_true, ok_bind, Nat.sub_zero, Except.ok.injEq,
        Prod.mk.injEq] at h
      obtain ⟨rfl, rfl, rfl⟩ := h
      exact .ended hfill
    · rw [if_neg (by rw [List.length_eq_zero_iff]; exact hne)] at h
      obtain ⟨⟨⟨requests, eff₁⟩, parser, data⟩, hparse, hres⟩ := bind_eq_ok.mp h
      have hsuf := RecordReader.drainWith_suffix hparse
      have hstall := RecordReader.drainWith_stalled hne hparse
      simp only at hres
      split at hres
      · rename_i h0
        have hlen : data.length = rbuf.length := by
          have := hsuf.length_le
          omega
        obtain rfl := hsuf.eq_of_length hlen
        simp only [Except.ok.injEq, Prod.mk.injEq] at hres
        obtain ⟨rfl, rfl, rfl⟩ := hres
        exact .stalled hfill hne (hstall.mp rfl) hparse
      · rename_i h0
        simp only [Except.ok.injEq, Prod.mk.injEq] at hres
        obtain ⟨rfl, rfl, rfl⟩ := hres
        have hcons : io.consume (rbuf.length - data.length) = { io with buf := data } := by
          rw [BufReader.pollFillBuf_ready hfill, BufReader.consume, ← List.suffix_iff_eq_drop.mp hsuf]
        rw [hcons]
        exact .read hfill hne (fun hst => h0 (by rw [hstall.mpr hst, Nat.sub_self])) hparse
  · rw [hfill] at h
    simp only [Except.ok.injEq, Prod.mk.injEq] at h
    obtain ⟨rfl, rfl, rfl⟩ := h
    exact .pending hfill

/-- `poll_resp` returns if the parser does. -/
theorem pollResp_returns {self : InnerConnection} {sock : SocketRead} {cx : Waker}
    (h : ∀ rbuf, (self.io.pollFillBuf sock cx).1 = .ready (.ok rbuf) → rbuf ≠ [] →
      ∃ x, parseAndDistribute rbuf self.runningRequests self.fcgiParser = .ok x) :
    ∃ res self' eff, self.pollResp sock cx = .ok (res, self', eff) := by
  unfold pollResp
  rcases hfill : self.io.pollFillBuf sock cx with ⟨(e | rbuf) | _, io⟩
  · exact ⟨_, _, _, rfl⟩
  · simp only
    by_cases hne : rbuf = []
    · subst hne
      exact ⟨_, _, _, rfl⟩
    · obtain ⟨x, hx⟩ := h rbuf (by rw [hfill]) hne
      rw [if_neg (by rw [List.length_eq_zero_iff]; exact hne), hx, ok_bind]
      split
      · exact ⟨_, _, _, rfl⟩
      · exact ⟨_, _, _, rfl⟩
  · exact ⟨_, _, _, rfl⟩

/-- `poll_resp` declares the connection closed at the end of the stream, and where the parser
is stalled. -/
theorem pollResp_closed_iff {self self' : InnerConnection} {sock : SocketRead} {cx : Waker}
    {res : Poll (Option (Except IoError Unit))} {eff : Effects}
    (h : self.pollResp sock cx = .ok (res, self', eff)) :
    res = .ready none ↔ ∃ rbuf, (self.io.pollFillBuf sock cx).1 = .ready (.ok rbuf) ∧
      (rbuf = [] ∨ self.fcgiParser.Stalled rbuf) := by
  cases pollResp_polled h with
  | pending hfill => simp [hfill]
  | failed hfill => simp [hfill]
  | ended hfill => simp [hfill]
  | stalled hfill hne hstall hparse => simp [hfill, hstall]
  | read hfill hne hstall hparse => simp [hfill, hstall, hne]

end InnerConnection

end AsyncFcgi
