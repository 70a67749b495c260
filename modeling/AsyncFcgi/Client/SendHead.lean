import AsyncFcgi.Client.SendBody
import AsyncFcgi.Client.Connection
import AsyncFcgi.Codec.Capacity

/-!
# The head of a request (`src/client/connection.rs`)

`forward` writes BEGIN_REQUEST, the name-value pairs it makes of a request as PARAMS, and the end
of STDIN if the request has no body. A header with a line feed ends the head in the middle of
PARAMS: what the buffer holds is lost, and ABORT_REQUEST is sent. The pairs are a parameter.

* `sendHead_writes`: the records of a head, on any transport.
* `sendHead_sends`: the same with what PARAMS carries.
* `sendHead_fits`: no fault for pairs that fit into the buffer.
-/

namespace AsyncFcgi

open Lib

/-- What `forward` makes of a request: the pairs for `add_kv` in their order, up to a header that
`HeaderMultilineStrategy::ReturnError` rejects if there is one, and the lower bound of the length
of the body, `none` for a request without. -/
structure Head where
  pairs : List NameValuePair
  rejected : Bool
  len : Option ℕ
  deriving DecidableEq, Repr

/-- How a head ends if no write fails. -/
def Head.result (head : Head) : HeadResult :=
  if head.rejected then .headerRejected
  else
    match head.len with
    | some _ => .body
    | none => .noBody

/-- The pairs fit into one buffer of PARAMS. -/
def Head.Fits (head : Head) : Prop :=
  (∀ p ∈ head.pairs, p.Encodable) ∧
    Header.headerLen + (NameValuePair.code.encodeAll head.pairs).length ≤ bufLen

/-- The bytes of PARAMS: the code words of the pairs, or a part of them if a header is rejected. -/
def Head.Conveys (head : Head) (params : Bytes) : Prop :=
  if head.rejected then params <+: NameValuePair.code.encodeAll head.pairs
  else params = NameValuePair.code.encodeAll head.pairs

namespace FCGIWriter

variable (A : Allocator)

/-- Behind the last pair: `abort_req`, or `flush` and without a body the end of STDIN
(lines 373–402). -/
def endHead (self : FCGIWriter) (kvw : NameValuePairWriter) (requestId : UInt16) (head : Head) :
    Except Fault (Except IoError HeadResult × FCGIWriter) :=
  if head.rejected then do
    match ← self.encode A (.abortRequest requestId) with
    | (.error e, self) => .ok (.error e, self)
    | (.ok (), self) => .ok (.ok .headerRejected, self)
  else do
    match ← self.flush A kvw with
    | (.error e, self) => .ok (.error e, self)
    | (.ok (), self) =>
      match head.len with
      | some _ => .ok (.ok .body, self)
      | none =>
        match ← self.flushDataChunk A [] requestId .stdIn with
        | (.error e, self) => .ok (.error e, self)
        | (.ok (), self) => .ok (.ok .noBody, self)

/-- The head of a request (lines 275–402). -/
def sendHead (self : FCGIWriter) (requestId : UInt16) (head : Head) :
    Except Fault (Except IoError HeadResult × FCGIWriter) := do
  match ← self.encode A (.beginRequest requestId .responder keepConn) with
  | (.error e, self) => .ok (.error e, self)
  | (.ok (), self) =>
    let kvw ← kvStream A requestId .params
    match ← self.extend A kvw head.pairs with
    | (.error e, self) => .ok (.error e, self)
    | (.ok kvw, self) => self.endHead A kvw requestId head

/-! ## The records of a head -/

/-- BEGIN_REQUEST of `forward`. -/
def headRecord (requestId : UInt16) : WireRecord := beginRecord requestId .responder keepConn

/-- A record of PARAMS with content. -/
def IsParams (requestId : UInt16) (r : WireRecord) : Prop :=
  OfStream .params requestId r ∧ r.content ≠ []

/-- What is behind the records of PARAMS with content. -/
def HeadTail (requestId : UInt16) : HeadResult → List WireRecord → Prop
  | .body, tail => ∃ stop, tail = [stop] ∧ OfStream .params requestId stop ∧ stop.content = []
  | .noBody, tail => ∃ stop last, tail = [stop, last] ∧ OfStream .params requestId stop ∧
      stop.content = [] ∧ OfStream .stdIn requestId last ∧ last.content = []
  | .headerRejected, tail => tail = [abortRecord requestId]
  | .writeFailed, _ => False

theorem HeadTail.requestId {requestId : UInt16} {res : HeadResult} {tail : List WireRecord}
    (h : HeadTail requestId res tail) : ∀ r ∈ tail, r.requestId = requestId := by
  cases res with
  | body =>
    obtain ⟨stop, rfl, hstop, -⟩ := h
    simpa using hstop.requestId
  | noBody =>
    obtain ⟨stop, last, rfl, hstop, -, hlast, -⟩ := h
    simpa using ⟨hstop.requestId, hlast.requestId⟩
  | headerRejected =>
    obtain rfl : tail = [abortRecord requestId] := h
    simp [abortRecord]
  | writeFailed => cases h

theorem HeadTail.ne_begin {requestId : UInt16} {res : HeadResult} {tail : List WireRecord}
    (h : HeadTail requestId res tail) : ∀ r ∈ tail, r.rtype ≠ .beginRequest := by
  cases res with
  | body =>
    obtain ⟨stop, rfl, hstop, -⟩ := h
    simp [hstop.rtype]
  | noBody =>
    obtain ⟨stop, last, rfl, hstop, -, hlast, -⟩ := h
    simp [hstop.rtype, hlast.rtype]
  | headerRejected =>
    obtain rfl : tail = [abortRecord requestId] := h
    simp [abortRecord]
  | writeFailed => cases h

variable {A}

/-- A record that a full buffer made. -/
theorem IsParams.of_full {requestId : UInt16} {r : WireRecord} (hof : OfStream .params requestId r)
    (hlen : r.content.length = bufLen - Header.headerLen) : IsParams requestId r := by
  refine ⟨hof, ?_⟩
  rw [← List.length_pos_iff, hlen]
  exact fullContent_pos

theorem writes_begin (A : Allocator) (requestId : UInt16) :
    Writes (fun w => w.encode A (.beginRequest requestId .responder keepConn))
      (headRecord requestId).encode (.ok (.ok ())) := by
  refine (Writes.whole (headRecord requestId).encode).last (fun w w' hw => ?_) (fun w e w' hw => ?_)
  all_goals
    rw [encode_beginRequest]
    exact hw

/-- A header that is rejected: ABORT_REQUEST, and the buffer is dropped. -/
theorem endHead_rejected (A : Allocator) (kvw : NameValuePairWriter) (requestId : UInt16)
    {head : Head} (hrej : head.rejected) :
    Writes (fun w => w.endHead A kvw requestId head) (abortRecord requestId).encode
      (.ok (.ok .headerRejected)) := by
  refine (Writes.whole (abortRecord requestId).encode).last (fun w w' hw => ?_)
    (fun w e w' hw => ?_)
  all_goals
    rw [endHead, if_pos hrej, encode_abortRequest, hw]
    rfl

theorem endHead_writes (A : Allocator) {kvw : NameValuePairWriter} {requestId : UInt16}
    (head : Head) {rs : List WireRecord} {stream : Bytes}
    (hbuf : Buffered .params requestId rs kvw.buf stream) (hty : kvw.rtype = .params)
    (hid : kvw.requestId = requestId) :
    ∃ params tail, Writes (fun w => w.endHead A kvw requestId head)
        (WireRecord.encodeAll (params ++ tail)) (.ok (.ok head.result)) ∧
      (∀ r ∈ rs ++ params, IsParams requestId r) ∧ HeadTail requestId head.result tail ∧
      (stream = NameValuePair.code.encodeAll head.pairs →
        head.Conveys ((rs ++ params).map WireRecord.content).flatten) := by
  obtain ⟨pairs, rejected, len⟩ := head
  cases rejected with
  | true =>
    refine ⟨[], [abortRecord requestId], ?_, fun r hr => ?_, rfl, fun hstream => ?_⟩
    · rw [List.nil_append, WireRecord.encodeAll_cons, WireRecord.encodeAll_nil, List.append_nil]
      exact endHead_rejected A kvw requestId rfl
    · rw [List.append_nil] at hr
      obtain ⟨hof, hlen⟩ := hbuf.full r hr
      exact IsParams.of_full hof hlen
    · show _ <+: NameValuePair.code.encodeAll pairs
      rw [← hstream, hbuf.stream, List.append_nil]
      exact List.prefix_append _ _
  | false =>
    obtain ⟨params, stop, hflush, hparams, hcontents, hstop, hempty⟩ := endStream_writes A hbuf
    have hparams' : ∀ r ∈ rs ++ params, IsParams requestId r := fun r hr =>
      ⟨(hparams r hr).1, List.length_pos_iff.mp (hparams r hr).2.1⟩
    have herr : ∀ (w : FCGIWriter) e w', w.endStream A kvw.buf requestId .params = .ok (.error e, w') →
        w.endHead A kvw requestId ⟨pairs, false, len⟩ = .ok (.error e, w') := by
      intro w e w' hw
      rw [endHead, if_neg Bool.false_ne_true, flush, hty, hid, hw]
      rfl
    cases len with
    | some n =>
      refine ⟨params, [stop], hflush.last (fun w w' hw => ?_) herr, hparams',
        ⟨stop, rfl, hstop, hempty⟩, hcontents.trans⟩
      rw [endHead, if_neg Bool.false_ne_true, flush, hty, hid, hw]
      rfl
    | none =>
      obtain ⟨rs', hlast, hrecs⟩ := flushDataChunk_writes A requestId .stdIn []
      obtain ⟨last, rfl, hlastEmpty⟩ := hrecs.empty rfl
      refine ⟨params, [stop, last], ?_, hparams', ⟨stop, last, rfl, hstop, hempty,
        hrecs.ofStream last List.mem_cons_self, hlastEmpty⟩, hcontents.trans⟩
      have hsplit : params ++ [stop, last] = params ++ [stop] ++ [last] := by simp
      have hnoBody : Writes (fun w => (w.flushDataChunk A [] requestId .stdIn).bind fun x =>
          match x with
          | (.error e, w) => .ok (.error e, w)
          | (.ok (), w) => .ok (.ok HeadResult.noBody, w)) (WireRecord.encodeAll [last])
            (.ok (.ok .noBody)) := by
        refine hlast.last (fun w w' hw => ?_) (fun w e w' hw => ?_)
        all_goals
          simp only [hw]
          rfl
      rw [hsplit, WireRecord.encodeAll_append]
      refine hflush.seq hnoBody (fun w w' hw => ?_) herr
      rw [endHead, if_neg Bool.false_ne_true, flush, hty, hid, hw]
      rfl

/-- Behind BEGIN_REQUEST: the pairs, and the end of the head. -/
theorem sendHead_begun {requestId : UInt16} {kvw : NameValuePairWriter}
    (hkvw : kvStream A requestId .params = .ok kvw) (head : Head) (w w' : FCGIWriter)
    (hw : w.encode A (.beginRequest requestId .responder keepConn) = .ok (.ok (), w')) :
    w.sendHead A requestId head = (w'.extend A kvw head.pairs).bind fun x =>
      match x with
      | (.error e, w) => .ok (.error e, w)
      | (.ok kvw, w) => w.endHead A kvw requestId head := by
  rw [sendHead, hw, ok_bind]
  simp only [hkvw, ok_bind]
  rfl

theorem sendHead_notBegun (requestId : UInt16) (head : Head) (w : FCGIWriter) (e : IoError)
    (w' : FCGIWriter)
    (hw : w.encode A (.beginRequest requestId .responder keepConn) = .ok (.error e, w')) :
    w.sendHead A requestId head = .ok (.error e, w') := by
  rw [sendHead, hw]
  rfl

/-- **What is sent as the head of a request**: BEGIN_REQUEST, PARAMS with the code words of the
pairs, and the rest, unless there is a fault before it. -/
theorem sendHead_sends (A : Allocator) (requestId : UInt16) (head : Head) :
    ∃ params tail res, Writes (fun w => w.sendHead A requestId head)
        (WireRecord.encodeAll (headRecord requestId :: (params ++ tail))) res ∧
      (∀ r ∈ params, IsParams requestId r) ∧
      ((tail = [] ∧ ∃ f, res = .error f) ∨
        (res = .ok (.ok head.result) ∧ HeadTail requestId head.result tail ∧
          head.Conveys (params.map WireRecord.content).flatten ∧
          ∀ p ∈ head.pairs, p.Encodable)) := by
  obtain ⟨buf, hkvw, hstart⟩ := exists_kvStream A requestId .params
  have hbegin := sendHead_begun hkvw head
  have herr := sendHead_notBegun (A := A) requestId head
  have hstop : ∀ (kvw : NameValuePairWriter) (w : FCGIWriter) e w', w.extend A kvw head.pairs =
      .ok (.error e, w') → ((w.extend A kvw head.pairs).bind fun x =>
        match x with
        | (.error e, w) => .ok (.error e, w)
        | (.ok kvw, w) => w.endHead A kvw requestId head) = .ok (.error e, w') := by
    intro kvw w e w' hw
    rw [hw]
    rfl
  obtain ⟨rs, hrs, ⟨f, -, hwrites⟩ | ⟨kvw, hwrites, hty, hid, hbuf'⟩⟩ := extend_extends (A := A)
    head.pairs head.pairs (List.Subset.refl _) ⟨requestId, .params, buf⟩ hstart
  · refine ⟨rs, [], .error f, ?_, fun r hr => IsParams.of_full (hrs r hr).1 (hrs r hr).2,
      Or.inl ⟨rfl, f, rfl⟩⟩
    rw [WireRecord.encodeAll_cons, List.append_nil]
    refine (writes_begin A requestId).seq
      (hwrites.last (fun w w' hw => ?_) (hstop _)) hbegin herr
    rw [hw]
    rfl
  · obtain ⟨params, tail, hend, hparams, htail, hcontents⟩ := endHead_writes A head hbuf' hty hid
    obtain ⟨w₁, hext, -⟩ := hwrites.of_accepting oneByOne_accepting
    refine ⟨rs ++ params, tail, .ok (.ok head.result), ?_, hparams,
      Or.inr ⟨rfl, htail, hcontents (List.nil_append _), extend_encodable hext⟩⟩
    rw [WireRecord.encodeAll_cons, List.append_assoc, WireRecord.encodeAll_append]
    refine (writes_begin A requestId).seq
      (hwrites.seq hend (fun w w' hw => ?_) (hstop _)) hbegin herr
    rw [hw]
    rfl

/-- **What is written as the head of a request**: BEGIN_REQUEST, PARAMS with content, and the
rest, unless there is a fault before it. -/
theorem sendHead_writes (A : Allocator) (requestId : UInt16) (head : Head) :
    ∃ params tail res, Writes (fun w => w.sendHead A requestId head)
        (WireRecord.encodeAll (headRecord requestId :: (params ++ tail))) res ∧
      (∀ r ∈ params, IsParams requestId r) ∧
      ((tail = [] ∧ ∃ f, res = .error f) ∨
        (res = .ok (.ok head.result) ∧ HeadTail requestId head.result tail)) := by
  obtain ⟨params, tail, res, hwrites, hparams, hres⟩ := sendHead_sends A requestId head
  exact ⟨params, tail, res, hwrites, hparams, hres.imp_right fun h => ⟨h.1, h.2.1⟩⟩

/-- Pairs that fit into the buffer are no fault. -/
theorem sendHead_fits {requestId : UInt16} {head : Head} (hfits : head.Fits)
    (w : FCGIWriter) (f : Fault) : w.sendHead A requestId head ≠ .error f := by
  obtain ⟨buf, hbuf⟩ := exists_buf A
  have hlen := BytesMut.length_of_setLen hbuf
  intro hf
  rcases writes_begin A requestId w with ⟨w₁, -, hr⟩ | ⟨e, w₁, -, hr⟩
  · obtain ⟨_, hext, -⟩ := extend_fits (A := A) head.pairs ⟨requestId, .params, buf⟩ hfits.1
      (by rw [hlen]; exact hfits.2) w₁
    obtain ⟨rs, -, ⟨f', -, hwrites⟩ | ⟨kvw', hwrites, hty, hid, hbuf'⟩⟩ := extend_extends (A := A)
      head.pairs head.pairs (List.Subset.refl _) ⟨requestId, .params, buf⟩
      (buffered_start hbuf .params requestId)
    · cases hwrites.eq_of_ok hext
    · cases hwrites.eq_of_ok hext
      obtain ⟨params, tail, hend, -⟩ := endHead_writes A head hbuf' hty hid
      refine hend.ne_fault w₁ f ?_
      rw [sendHead_begun (kvStream_eq hbuf requestId .params) head w w₁ hr, hext] at hf
      exact hf
  · rw [sendHead_notBegun requestId head w e w₁ hr] at hf
    cases hf

end FCGIWriter

/-- A POST request with one byte: `QUERY_STRING`, `REQUEST_METHOD` and `CONTENT_LENGTH`. -/
def post : Head where
  pairs :=
    [⟨[81, 85, 69, 82, 89, 95, 83, 84, 82, 73, 78, 71], []⟩,
      ⟨[82, 69, 81, 85, 69, 83, 84, 95, 77, 69, 84, 72, 79, 68], [80, 79, 83, 84]⟩,
      ⟨[67, 79, 78, 84, 69, 78, 84, 95, 76, 69, 78, 71, 84, 72], [49]⟩]
  rejected := false
  len := some 1

theorem post_fits : post.Fits := by
  refine ⟨?_, by decide⟩
  simp [post, NameValuePair.Encodable]

end AsyncFcgi
