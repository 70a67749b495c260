import AsyncFcgi.Fastcgi.Record
import AsyncFcgi.Io

/-!
# Writing streams (`src/codec.rs`)

`FCGIWriter`: `write_whole_buf`, and a byte stream cut into records, `append_to_stream` and
`end_stream`. Records of a stream are written from a buffer in which the first 8 bytes are
kept for the header.

An error of the transport ends a call; what the buffer holds then is not used any more and is
left out.

* `Wrote`: what a transport takes of a write, all of it or a part.
* `Writes`: what a call writes, on any transport.
* `appendToStream_writes`, `endStream_writes`: both calls write whole records of the stream, and
  keep the rest in the buffer; `appendToStream_streaming` and `endStream_streaming` are the same
  for a transport that accepts every write.
-/

namespace AsyncFcgi

open Lib

/-- `FCGIWriter` (lines 55–58). -/
structure FCGIWriter where
  io : Transport

/-- `BUF_LEN` (line 66): a header and the longest content without padding. -/
def bufLen : ℕ := 0xffff - 7 + 8

/-- `Header::write_into` at the start of a buffer, `&mut buf[0..HEADER_LEN]`. -/
def BytesMut.writeHeader (buf : BytesMut) (h : Header) : Except Fault BytesMut :=
  if Header.headerLen ≤ buf.bytes.length then
    .ok { buf with bytes := h.toBytes ++ buf.bytes.drop Header.headerLen }
  else .error .outOfBounds

namespace FCGIWriter

/-- `write_whole_buf` (lines 91–98). -/
def writeWholeBuf (self : FCGIWriter) (buf : Bytes) : Except IoError Unit × FCGIWriter :=
  if _h : buf = [] then (.ok (), self)
  else
    match self.io.answer self.io.writes with
    | .fails e => (.error e, { io := { self.io with writes := self.io.writes + 1 } })
    | .accepts n =>
      writeWholeBuf
        { io := { self.io with
            sent := self.io.sent ++ buf.take (n + 1)
            writes := self.io.writes + 1 } }
        (buf.drop (n + 1))
termination_by buf.length
decreasing_by
  have := List.length_pos_iff.mpr ‹_›
  rw [List.length_drop]
  omega

/-- Two buffers one after the other. -/
def writeBoth (self : FCGIWriter) (buf part : Bytes) : Except IoError Unit × FCGIWriter :=
  match self.writeWholeBuf buf with
  | (.error e, self) => (.error e, self)
  | (.ok (), self) => self.writeWholeBuf part

variable (A : Allocator)

/-- `append_to_stream` (lines 178–203): the buffer afterwards. -/
def appendToStream (self : FCGIWriter) (val : Bytes) (buf : BytesMut) (requestId : UInt16)
    (rtype : RecordType) : Except Fault (Except IoError BytesMut × FCGIWriter) :=
  if _hfull : bufLen < buf.bytes.length + val.length then
    if _hover : bufLen < buf.bytes.length then .error .overflow
    else
      let n := bufLen - buf.bytes.length
      match buf.writeHeader (Header.new rtype requestId (UInt16.ofNat (bufLen - Header.headerLen))) with
      | .error e => .error e
      | .ok buf =>
        match self.writeBoth buf.bytes (val.take n) with
        | (.error e, self) => .ok (.error e, self)
        | (.ok (), self) =>
          match _hset : BytesMut.setLen { buf with bytes := [] } Header.headerLen with
          | .error e => .error e
          | .ok buf => appendToStream self (val.drop n) buf requestId rtype
  else .ok (.ok (buf.put A val), self)
termination_by 2 * val.length + if buf.bytes.length = bufLen then 1 else 0
decreasing_by
  have hlen := BytesMut.length_of_setLen _hset
  rw [List.length_drop, hlen, if_neg (by decide)]
  have : Header.headerLen < bufLen := by decide
  split <;> omega

/-- The first part of `end_stream` (lines 212–223): what is left in the buffer, padded. -/
def writeLast (self : FCGIWriter) (buf : BytesMut) (requestId : UInt16) (rtype : RecordType) :
    Except Fault (Except IoError Unit × FCGIWriter) :=
  if buf.bytes.length < Header.headerLen then .error .overflow
  else if 0 < buf.bytes.length - Header.headerLen then do
    let lastHead := Header.new rtype requestId (UInt16.ofNat (buf.bytes.length - Header.headerLen))
    let buf ← buf.writeHeader lastHead
    let pad ← slice buf.bytes 0 lastHead.getPadding.toNat
    .ok (self.writeBoth buf.bytes pad)
  else .ok (.ok (), self)

/-- `end_stream` (lines 206–229). -/
def endStream (self : FCGIWriter) (buf : BytesMut) (requestId : UInt16) (rtype : RecordType) :
    Except Fault (Except IoError Unit × FCGIWriter) := do
  match ← self.writeLast buf requestId rtype with
  | (.error e, self) => .ok (.error e, self)
  | (.ok (), self) =>
    let stop := (Header.new rtype requestId 0).writeInto A (.withCapacity A Header.headerLen)
    .ok (self.writeWholeBuf stop.bytes)

variable {A}

/-! ## What a transport takes of a write -/

/-- A write of `bytes`: the transport took all of them, or a part before it failed. -/
inductive Wrote {α : Type} (w : FCGIWriter) (bytes : Bytes) : Except IoError α → FCGIWriter → Prop
  | all {a w'} (answer : w'.io.answer = w.io.answer) (sent : w'.io.sent = w.io.sent ++ bytes) :
      Wrote w bytes (.ok a) w'
  | cut {e w' p} (answer : w'.io.answer = w.io.answer) (hno : ¬ w.io.Accepting)
      (hp : p <+: bytes) (sent : w'.io.sent = w.io.sent ++ p) : Wrote w bytes (.error e) w'

namespace Wrote

variable {α β : Type} {w w₁ w₂ : FCGIWriter} {b b' : Bytes} {r : Except IoError α} {e : IoError}

theorem answer (h : Wrote w b r w₁) : w₁.io.answer = w.io.answer := by
  cases h with
  | all answer _ => exact answer
  | cut answer _ _ _ => exact answer

theorem accepting_iff (h : Wrote w b r w₁) : w₁.io.Accepting ↔ w.io.Accepting := by
  rw [Transport.Accepting, h.answer, Transport.Accepting]

theorem sent {a : α} (h : Wrote w b (.ok a) w₁) : w₁.io.sent = w.io.sent ++ b := by
  cases h with
  | all _ sent => exact sent

/-- Two writes one after the other. -/
theorem trans {a : β} (h : Wrote w b (.ok a) w₁) (h' : Wrote w₁ b' r w₂) :
    Wrote w (b ++ b') r w₂ := by
  have hacc := h.accepting_iff
  cases h with
  | all answer sent =>
    cases h' with
    | all answer' sent' =>
      exact .all (answer'.trans answer) (by rw [sent', sent, List.append_assoc])
    | @cut e w₂ p answer' hno hp sent' =>
      exact .cut (p := b ++ p) (answer'.trans answer) (fun h => hno (hacc.mpr h))
        ((List.prefix_append_right_inj b).mpr hp) (by rw [sent', sent, List.append_assoc])

/-- After a failed write nothing more is written. -/
theorem stop (h : Wrote w b (.error e : Except IoError β) w₁) (b' : Bytes) :
    Wrote w (b ++ b') (.error e : Except IoError α) w₁ := by
  cases h with
  | cut answer hno hp sent => exact .cut answer hno (hp.trans (List.prefix_append b b')) sent

end Wrote

theorem writeWholeBuf_wrote (buf : Bytes) : ∀ w : FCGIWriter,
    Wrote w buf (w.writeWholeBuf buf).1 (w.writeWholeBuf buf).2 := by
  induction hn : buf.length using Nat.strong_induction_on generalizing buf with
  | _ n ih =>
    intro w
    rw [writeWholeBuf]
    by_cases hnil : buf = []
    · rw [dif_pos hnil]
      exact .all rfl (by simp [hnil])
    · have hpos := List.length_pos_iff.mpr hnil
      rw [dif_neg hnil]
      split
      · rename_i e he
        refine .cut (p := []) rfl (fun hacc => ?_) List.nil_prefix (List.append_nil _).symm
        obtain ⟨k, hk⟩ := hacc w.io.writes
        rw [hk] at he
        cases he
      · rename_i k _
        have hrest := ih _ (by rw [List.length_drop]; omega) (buf.drop (k + 1)) rfl
          { io := { w.io with
            sent := w.io.sent ++ buf.take (k + 1)
            writes := w.io.writes + 1 } }
        have hfirst : Wrote w (buf.take (k + 1)) (.ok ())
            { io := { w.io with
              sent := w.io.sent ++ buf.take (k + 1)
              writes := w.io.writes + 1 } } := .all rfl rfl
        have hboth := hfirst.trans hrest
        rwa [List.take_append_drop] at hboth

theorem writeBoth_wrote (w : FCGIWriter) (buf part : Bytes) :
    Wrote w (buf ++ part) (w.writeBoth buf part).1 (w.writeBoth buf part).2 := by
  have hfirst := writeWholeBuf_wrote buf w
  rw [writeBoth]
  cases hw : w.writeWholeBuf buf with
  | mk r w₁ =>
    rw [hw] at hfirst
    cases r with
    | error e => exact hfirst.stop part
    | ok _ => exact hfirst.trans (writeWholeBuf_wrote part w₁)

/-- A transport that accepts every write takes all of it. -/
theorem Wrote.of_accepting {α : Type} {w w' : FCGIWriter} {b : Bytes} {r : Except IoError α}
    (h : Wrote w b r w') (hacc : w.io.Accepting) : ∃ a, r = .ok a := by
  cases h with
  | all => exact ⟨_, rfl⟩
  | cut _ hno => exact absurd hacc hno

/-! ## What a call writes -/

/-- The call writes `bytes` and returns `res` then, unless the transport fails. -/
def Writes {α : Type} (op : FCGIWriter → Except Fault (Except IoError α × FCGIWriter))
    (bytes : Bytes) (res : Except Fault (Except IoError α)) : Prop :=
  ∀ w, (∃ w', Wrote w bytes (.ok () : Except IoError Unit) w' ∧ op w = res.map (·, w')) ∨
    ∃ e w', Wrote w bytes (.error e : Except IoError Unit) w' ∧ op w = .ok (.error e, w')

namespace Writes

variable {α β : Type} {op : FCGIWriter → Except Fault (Except IoError α × FCGIWriter)}
  {op₁ : FCGIWriter → Except Fault (Except IoError β × FCGIWriter)} {b b' : Bytes}
  {res : Except Fault (Except IoError α)} {res₁ : Except Fault (Except IoError β)}

/-- A call without a write. -/
theorem nothing (hop : ∀ w, op w = res.map (·, w)) : Writes op [] res := fun w =>
  Or.inl ⟨w, .all rfl (List.append_nil _).symm, hop w⟩

theorem whole (buf : Bytes) : Writes (fun w => .ok (w.writeWholeBuf buf)) buf (.ok (.ok ())) := by
  intro w
  have hwrote := writeWholeBuf_wrote buf w
  cases hw : w.writeWholeBuf buf with
  | mk r w' =>
    rw [hw] at hwrote
    have hop : (fun w : FCGIWriter => Except.ok (ε := Fault) (w.writeWholeBuf buf)) w = .ok (r, w') :=
      congrArg Except.ok hw
    cases r with
    | error e => exact Or.inr ⟨e, w', hwrote, hop⟩
    | ok _ => exact Or.inl ⟨w', hwrote, hop⟩

/-- A call, and behind it another unless a write failed. -/
theorem seq (h₁ : Writes op₁ b res₁) {k : FCGIWriter → Except Fault (Except IoError α × FCGIWriter)}
    (h₂ : Writes k b' res) (hk : ∀ w w', op₁ w = res₁.map (·, w') → op w = k w')
    (herr : ∀ w e w', op₁ w = .ok (.error e, w') → op w = .ok (.error e, w')) :
    Writes op (b ++ b') res := by
  intro w
  rcases h₁ w with ⟨w₁, hwrote, hr⟩ | ⟨e, w₁, hwrote, hr⟩
  · rw [hk w w₁ hr]
    rcases h₂ w₁ with ⟨w', hwrote', hr'⟩ | ⟨e, w', hwrote', hr'⟩
    · exact Or.inl ⟨w', hwrote.trans hwrote', hr'⟩
    · exact Or.inr ⟨e, w', hwrote.trans hwrote', hr'⟩
  · exact Or.inr ⟨e, w₁, hwrote.stop b', herr w e w₁ hr⟩

/-- A call, and behind it nothing that writes. -/
theorem last (h₁ : Writes op₁ b res₁)
    (hk : ∀ w w', op₁ w = res₁.map (·, w') → op w = res.map (·, w'))
    (herr : ∀ w e w', op₁ w = .ok (.error e, w') → op w = .ok (.error e, w')) :
    Writes op b res := by
  have h := h₁.seq (nothing fun _ => rfl) hk herr
  rwa [List.append_nil] at h

/-- A transport that accepts every write takes all of it. -/
theorem of_accepting (h : Writes op b res) {w : FCGIWriter} (hacc : w.io.Accepting) :
    ∃ w', op w = res.map (·, w') ∧ w'.io.sent = w.io.sent ++ b ∧ w'.io.Accepting := by
  rcases h w with ⟨w', hwrote, hr⟩ | ⟨e, w', hwrote, hr⟩
  · exact ⟨w', hr, hwrote.sent, hwrote.accepting_iff.mpr hacc⟩
  · obtain ⟨a, ha⟩ := hwrote.of_accepting hacc
    cases ha

/-- What a call returned is the result, if it is no error. -/
theorem eq_of_ok {a : α} {w w' : FCGIWriter} (h : Writes op b res) (hop : op w = .ok (.ok a, w')) :
    res = .ok (.ok a) := by
  rcases h w with ⟨w₁, -, hr⟩ | ⟨e, w₁, -, hr⟩
  · rw [hop] at hr
    cases res with
    | error f => cases hr
    | ok r =>
      cases hr
      rfl
  · rw [hop] at hr
    cases hr

theorem ne_fault {r : Except IoError α} (h : Writes op b (.ok r)) (w : FCGIWriter) (f : Fault) :
    op w ≠ .error f := by
  rcases h w with ⟨w₁, -, hr⟩ | ⟨e, w₁, -, hr⟩ <;> (rw [hr]; exact nofun)

end Writes

theorem writes_both (buf part : Bytes) :
    Writes (fun w => .ok (w.writeBoth buf part)) (buf ++ part) (.ok (.ok ())) := by
  refine (Writes.whole buf).seq (.whole part) (fun w w' hr => ?_) (fun w e w' hr => ?_)
  · simp only [writeBoth, Except.ok.inj hr]
  · simp only [writeBoth, Except.ok.inj hr]

/-! ## Streams in records -/

/-- A record of the stream: version 1, and padded to a multiple of 8. -/
structure OfStream (rtype : RecordType) (requestId : UInt16) (r : WireRecord) : Prop where
  version : r.version = Header.version1
  rtype : r.rtype = rtype
  requestId : r.requestId = requestId
  aligned : 8 ∣ r.content.length + r.padding.length

/-- A header that `Header::new` made, its content and its padding are a record. -/
theorem exists_record (rtype : RecordType) (requestId : UInt16) (content padding : Bytes)
    (hc : content.length ≤ 0xffff)
    (hp : padding.length = (Header.padFor (UInt16.ofNat content.length)).toNat) :
    ∃ r, OfStream rtype requestId r ∧ r.content = content ∧ r.padding = padding ∧
      r.encode =
        (Header.new rtype requestId (UInt16.ofNat content.length)).toBytes ++ (content ++ padding) := by
  have hlen : (UInt16.ofNat content.length).toNat = content.length := by
    rw [UInt16.toNat_ofNat']
    omega
  have hpad : padding.length = (8 - content.length % 8) % 8 := by
    rw [hp, Header.toNat_padFor, hlen]
  refine ⟨⟨Header.version1, rtype, requestId, 0, content, padding, hc, by omega⟩,
    ⟨rfl, rfl, rfl, ?_⟩, rfl, rfl, ?_⟩
  · show 8 ∣ content.length + padding.length
    omega
  · have : UInt8.ofNat padding.length = Header.padFor (UInt16.ofNat content.length) := by
      rw [hp, UInt8.ofNat_toNat]
    simp only [WireRecord.encode, WireRecord.headerBytes, this]
    rfl

/-- In the middle of a stream: the content in the buffer is the rest behind the records `rs`,
which are full. -/
structure Buffered (rtype : RecordType) (requestId : UInt16) (rs : List WireRecord)
    (buf : BytesMut) (stream : Bytes) : Prop where
  headerLen_le : Header.headerLen ≤ buf.bytes.length
  le_bufLen : buf.bytes.length ≤ bufLen
  full : ∀ r ∈ rs, OfStream rtype requestId r ∧ r.content.length = bufLen - Header.headerLen
  stream : stream = (rs.map WireRecord.content).flatten ++ buf.bytes.drop Header.headerLen

/-- In the middle of a stream, on a transport that accepts every write. -/
structure Streaming (rtype : RecordType) (requestId : UInt16) (base : Bytes) (w : FCGIWriter)
    (buf : BytesMut) (stream : Bytes) : Prop where
  accepting : w.io.Accepting
  headerLen_le : Header.headerLen ≤ buf.bytes.length
  le_bufLen : buf.bytes.length ≤ bufLen
  sent : ∃ rs : List WireRecord, w.io.sent = base ++ WireRecord.encodeAll rs ∧
    (∀ r ∈ rs, OfStream rtype requestId r ∧ r.content.length = bufLen - Header.headerLen) ∧
    stream = (rs.map WireRecord.content).flatten ++ buf.bytes.drop Header.headerLen

theorem Streaming.buffered {rtype : RecordType} {requestId : UInt16} {base stream : Bytes}
    {w : FCGIWriter} {buf : BytesMut} (h : Streaming rtype requestId base w buf stream) :
    ∃ rs, Buffered rtype requestId rs buf stream ∧
      w.io.sent = base ++ WireRecord.encodeAll rs := by
  obtain ⟨rs, hrs, hof, hstream⟩ := h.sent
  exact ⟨rs, ⟨h.headerLen_le, h.le_bufLen, hof, hstream⟩, hrs⟩

theorem Buffered.streaming {rtype : RecordType} {requestId : UInt16} {base stream : Bytes}
    {rs : List WireRecord} {w : FCGIWriter} {buf : BytesMut}
    (h : Buffered rtype requestId rs buf stream) (hacc : w.io.Accepting)
    (hsent : w.io.sent = base ++ WireRecord.encodeAll rs) :
    Streaming rtype requestId base w buf stream :=
  ⟨hacc, h.headerLen_le, h.le_bufLen, rs, hsent, h.full, h.stream⟩

variable {rtype : RecordType} {requestId : UInt16} {base stream : Bytes} {w : FCGIWriter}
  {buf : BytesMut} {rs : List WireRecord}

theorem writeHeader_of_le (h : Header) (hle : Header.headerLen ≤ buf.bytes.length) :
    buf.writeHeader h =
      .ok { buf with bytes := h.toBytes ++ buf.bytes.drop Header.headerLen } :=
  if_pos hle

/-- The capacity of a new buffer holds a header. -/
theorem exists_buf (A : Allocator) :
    ∃ buf, (BytesMut.withCapacity A bufLen).setLen Header.headerLen = .ok buf := by
  have hcap : Header.headerLen ≤ (BytesMut.withCapacity A bufLen).capacity := by
    have := BytesMut.le_withCapacity_spare (A := A) bufLen
    have : Header.headerLen ≤ bufLen := by decide
    unfold BytesMut.capacity
    omega
  exact ⟨_, if_pos hcap⟩

/-- A new stream: room for the header, and nothing behind it. -/
theorem buffered_start {buf : BytesMut}
    (hbuf : (BytesMut.withCapacity A bufLen).setLen Header.headerLen = .ok buf)
    (rtype : RecordType) (requestId : UInt16) : Buffered rtype requestId [] buf [] := by
  have hlen := BytesMut.length_of_setLen hbuf
  refine ⟨hlen.ge, hlen.le.trans (by decide), nofun, ?_⟩
  rw [List.map_nil, List.flatten_nil, List.nil_append, List.drop_eq_nil_of_le hlen.le]

theorem streaming_start {buf : BytesMut}
    (hbuf : (BytesMut.withCapacity A bufLen).setLen Header.headerLen = .ok buf)
    (hacc : w.io.Accepting) (rtype : RecordType) (requestId : UInt16) :
    Streaming rtype requestId w.io.sent w buf [] := by
  refine (buffered_start hbuf rtype requestId).streaming hacc ?_
  rw [WireRecord.encodeAll_nil, List.append_nil]

/-- A full buffer and the next bytes are one record. -/
theorem Buffered.record (h : Buffered rtype requestId rs buf stream) {part : Bytes}
    (hpart : buf.bytes.length + part.length = bufLen) :
    ∃ r, OfStream rtype requestId r ∧ r.content.length = bufLen - Header.headerLen ∧
      r.content = buf.bytes.drop Header.headerLen ++ part ∧
      r.encode = (Header.new rtype requestId (UInt16.ofNat (bufLen - Header.headerLen))).toBytes ++
        buf.bytes.drop Header.headerLen ++ part := by
  have hle := h.headerLen_le
  have hlen : (buf.bytes.drop Header.headerLen ++ part).length = bufLen - Header.headerLen := by
    rw [List.length_append, List.length_drop]
    omega
  have hmax : bufLen - Header.headerLen ≤ 0xffff := by decide
  obtain ⟨r, hr, hcontent, -, hencode⟩ := exists_record rtype requestId
    (buf.bytes.drop Header.headerLen ++ part) [] (hlen ▸ hmax)
    (by rw [hlen]; decide)
  rw [hlen, List.append_nil, ← List.append_assoc] at hencode
  exact ⟨r, hr, by rw [hcontent, hlen], hcontent, hencode⟩

/-- The record is sent, and the buffer has room for the next header. -/
theorem Buffered.sentRecord (h : Buffered rtype requestId rs buf stream) {part : Bytes}
    {r : WireRecord} (hr : OfStream rtype requestId r)
    (hlen : r.content.length = bufLen - Header.headerLen)
    (hcontent : r.content = buf.bytes.drop Header.headerLen ++ part) {buf' : BytesMut}
    (hbuf' : buf'.bytes.length = Header.headerLen) :
    Buffered rtype requestId (rs ++ [r]) buf' (stream ++ part) := by
  refine ⟨hbuf'.ge, hbuf' ▸ (by decide : Header.headerLen ≤ bufLen), fun r' hr' => ?_, ?_⟩
  · rcases List.mem_append.mp hr' with hmem | hmem
    · exact h.full r' hmem
    · rw [List.mem_singleton.mp hmem]
      exact ⟨hr, hlen⟩
  · have hnil : buf'.bytes.drop Header.headerLen = [] := List.drop_eq_nil_of_le hbuf'.le
    simp [h.stream, hcontent, hnil]

/-- One turn of `append_to_stream`. -/
theorem appendToStream_turn (hle : Header.headerLen ≤ buf.bytes.length)
    (hmax : buf.bytes.length ≤ bufLen) {val : Bytes}
    (hfull : bufLen < buf.bytes.length + val.length) (w : FCGIWriter) :
    w.appendToStream A val buf requestId rtype =
      match w.writeBoth
          ((Header.new rtype requestId (UInt16.ofNat (bufLen - Header.headerLen))).toBytes ++
            buf.bytes.drop Header.headerLen) (val.take (bufLen - buf.bytes.length)) with
      | (.error e, w) => .ok (.error e, w)
      | (.ok (), w) =>
        (BytesMut.setLen { buf with bytes := [] } Header.headerLen).bind fun buf' =>
          w.appendToStream A (val.drop (bufLen - buf.bytes.length)) buf' requestId rtype := by
  rw [appendToStream, dif_pos hfull, dif_neg (by omega)]
  simp only [writeHeader_of_le _ hle]
  split
  · rfl
  · split
    · rename_i hset
      rw [hset]
      rfl
    · rename_i hset
      rw [hset]
      rfl

/-- `append_to_stream` writes full records of the stream; it adds to the stream, or the buffer
is too small for the next header. -/
theorem appendToStream_writes (val : Bytes) : ∀ {rs : List WireRecord} {buf : BytesMut}
    {stream : Bytes}, Buffered rtype requestId rs buf stream →
    ∃ rs', (∀ r ∈ rs', OfStream rtype requestId r ∧ r.content.length = bufLen - Header.headerLen) ∧
      (Writes (fun w => w.appendToStream A val buf requestId rtype) (WireRecord.encodeAll rs')
          (.error .outOfCapacity) ∨
        ∃ buf', Writes (fun w => w.appendToStream A val buf requestId rtype)
            (WireRecord.encodeAll rs') (.ok (.ok buf')) ∧
          Buffered rtype requestId (rs ++ rs') buf' (stream ++ val)) := by
  -- a full buffer takes one turn without using a byte
  suffices hmain : ∀ n (val : Bytes) {rs : List WireRecord} {buf : BytesMut} {stream : Bytes},
      2 * val.length + (if buf.bytes.length = bufLen then 1 else 0) = n →
      Buffered rtype requestId rs buf stream →
      ∃ rs', (∀ r ∈ rs', OfStream rtype requestId r ∧
          r.content.length = bufLen - Header.headerLen) ∧
        (Writes (fun w => w.appendToStream A val buf requestId rtype) (WireRecord.encodeAll rs')
            (.error .outOfCapacity) ∨
          ∃ buf', Writes (fun w => w.appendToStream A val buf requestId rtype)
              (WireRecord.encodeAll rs') (.ok (.ok buf')) ∧
            Buffered rtype requestId (rs ++ rs') buf' (stream ++ val)) by
    intro rs buf stream h
    exact hmain _ val rfl h
  intro n
  induction n using Nat.strong_induction_on with
  | _ n ih =>
    intro val rs buf stream hn h
    have hle := h.le_bufLen
    by_cases hfull : bufLen < buf.bytes.length + val.length
    · have hpart : buf.bytes.length + (val.take (bufLen - buf.bytes.length)).length = bufLen := by
        rw [List.length_take]
        omega
      obtain ⟨r, hr, hlen, hcontent, hencode⟩ := h.record hpart
      have hboth := writes_both
        ((Header.new rtype requestId (UInt16.ofNat (bufLen - Header.headerLen))).toBytes ++
          buf.bytes.drop Header.headerLen) (val.take (bufLen - buf.bytes.length))
      rw [← hencode] at hboth
      have hturn := @appendToStream_turn A rtype requestId buf
        h.headerLen_le hle val hfull
      have hone : ∀ r' ∈ [r], OfStream rtype requestId r' ∧
          r'.content.length = bufLen - Header.headerLen := by
        simpa using ⟨hr, hlen⟩
      cases hset : BytesMut.setLen { buf with bytes := [] } Header.headerLen with
      | error e =>
        have hcap : e = .outOfCapacity := by
          unfold BytesMut.setLen at hset
          split at hset <;> cases hset
          rfl
        refine ⟨[r], hone, Or.inl ?_⟩
        rw [WireRecord.encodeAll_cons, WireRecord.encodeAll_nil, List.append_nil]
        refine hboth.last (fun w w' hw => ?_) (fun w e' w' hw => ?_)
        · rw [hturn, Except.ok.inj hw, hset, hcap]
          rfl
        · rw [hturn, Except.ok.inj hw]
      | ok buf₁ =>
        have hlen₁ := BytesMut.length_of_setLen hset
        have hlt : 2 * (val.drop (bufLen - buf.bytes.length)).length +
            (if buf₁.bytes.length = bufLen then 1 else 0) < n := by
          rw [hlen₁, List.length_drop, if_neg (by decide), ← hn]
          split <;> omega
        obtain ⟨rs', hrs', hrest⟩ := ih _ hlt (val.drop (bufLen - buf.bytes.length)) rfl
          (h.sentRecord hr hlen hcontent hlen₁)
        have hwrites : ∀ {res}, Writes (fun w => w.appendToStream A
            (val.drop (bufLen - buf.bytes.length)) buf₁ requestId rtype)
              (WireRecord.encodeAll rs') res →
            Writes (fun w => w.appendToStream A val buf requestId rtype)
              (WireRecord.encodeAll (r :: rs')) res := by
          intro res hres
          refine hboth.seq hres (fun w w' hw => ?_) (fun w e' w' hw => ?_)
          · rw [hturn, Except.ok.inj hw, hset]
            rfl
          · rw [hturn, Except.ok.inj hw]
        refine ⟨r :: rs', List.forall_mem_cons.mpr ⟨⟨hr, hlen⟩, hrs'⟩, ?_⟩
        rcases hrest with hcap | ⟨buf', hres, h'⟩
        · exact Or.inl (hwrites hcap)
        · refine Or.inr ⟨buf', hwrites hres, ?_⟩
          rwa [List.append_assoc, List.append_assoc, List.take_append_drop] at h'
    · refine ⟨[], nofun, Or.inr ⟨buf.put A val, .nothing fun w => ?_, ?_, ?_, ?_, ?_⟩⟩
      · rw [appendToStream, dif_neg hfull]
        rfl
      · rw [BytesMut.put_bytes, List.length_append]
        have := h.headerLen_le
        omega
      · rw [BytesMut.put_bytes, List.length_append]
        omega
      · rw [List.append_nil]
        exact h.full
      · rw [BytesMut.put_bytes, List.drop_append_of_le_length h.headerLen_le, h.stream,
          List.append_nil, List.append_assoc]

/-- `append_to_stream` adds to the stream, or the buffer is too small for the next header. -/
theorem appendToStream_streaming (val : Bytes) {w : FCGIWriter} {buf : BytesMut}
    {stream : Bytes} (h : Streaming rtype requestId base w buf stream) :
    w.appendToStream A val buf requestId rtype = .error .outOfCapacity ∨
      ∃ buf' w', w.appendToStream A val buf requestId rtype = .ok (.ok buf', w') ∧
        Streaming rtype requestId base w' buf' (stream ++ val) := by
  obtain ⟨rs, hbuf, hsent⟩ := h.buffered
  obtain ⟨rs', -, hwrites | ⟨buf', hwrites, hbuf'⟩⟩ := appendToStream_writes (A := A) val hbuf
  · obtain ⟨w', hr, -⟩ := hwrites.of_accepting h.accepting
    exact Or.inl hr
  · obtain ⟨w', hr, hsent', hacc⟩ := hwrites.of_accepting h.accepting
    refine Or.inr ⟨buf', w', hr, hbuf'.streaming hacc ?_⟩
    rw [hsent', hsent, WireRecord.encodeAll_append, List.append_assoc]

/-- The bytes of the last record: the header goes to its place in front of what is left, and the
padding is taken from there. -/
theorem writeLast_bytes (hlt : Header.headerLen < buf.bytes.length) (rtype : RecordType)
    (requestId : UInt16) :
    ∃ padding : Bytes, padding.length =
        (Header.padFor (UInt16.ofNat (buf.bytes.length - Header.headerLen))).toNat ∧
      Writes (fun w => w.writeLast buf requestId rtype)
        ((Header.new rtype requestId (UInt16.ofNat (buf.bytes.length - Header.headerLen))).toBytes ++
          buf.bytes.drop Header.headerLen ++ padding) (.ok (.ok ())) := by
  generalize hhead :
    Header.new rtype requestId (UInt16.ofNat (buf.bytes.length - Header.headerLen)) = lastHead
  have hpad : lastHead.getPadding =
      Header.padFor (UInt16.ofNat (buf.bytes.length - Header.headerLen)) := by
    rw [← hhead]
    rfl
  have hpadle : lastHead.getPadding.toNat ≤
      (lastHead.toBytes ++ buf.bytes.drop Header.headerLen).length := by
    rw [List.length_append, Header.length_toBytes, hpad, Header.toNat_padFor]
    have : 7 ≤ Header.headerLen := by decide
    omega
  refine ⟨(lastHead.toBytes ++ buf.bytes.drop Header.headerLen).take lastHead.getPadding.toNat,
    by rw [List.length_take, Nat.min_eq_left hpadle, hpad], ?_⟩
  refine (writes_both _ _).last (fun w w' hw => ?_) (fun w e w' hw => ?_)
  all_goals
    rw [writeLast, if_neg (by omega), if_pos (by omega), hhead]
    simp only [writeHeader_of_le _ hlt.le, ok_bind, slice_of_le hpadle]
    exact hw

/-- What is left in the buffer becomes a record of its own. -/
theorem writeLast_writes (h : Buffered rtype requestId rs buf stream) :
    ∃ rs', Writes (fun w => w.writeLast buf requestId rtype) (WireRecord.encodeAll rs')
        (.ok (.ok ())) ∧
      (∀ r ∈ rs ++ rs', OfStream rtype requestId r ∧ 0 < r.content.length ∧
        r.content.length ≤ bufLen - Header.headerLen) ∧
      ((rs ++ rs').map WireRecord.content).flatten = stream := by
  have hle := h.headerLen_le
  have hmax := h.le_bufLen
  have hfull : ∀ r ∈ rs, OfStream rtype requestId r ∧ 0 < r.content.length ∧
      r.content.length ≤ bufLen - Header.headerLen := by
    intro r hr
    obtain ⟨hrof, hlen⟩ := h.full r hr
    rw [hlen]
    exact ⟨hrof, by decide, le_rfl⟩
  by_cases hrest : 0 < buf.bytes.length - Header.headerLen
  · have hclen : (buf.bytes.drop Header.headerLen).length =
        buf.bytes.length - Header.headerLen := List.length_drop
    have hcmax : (buf.bytes.drop Header.headerLen).length ≤ 0xffff := by
      have : bufLen - Header.headerLen ≤ 0xffff := by decide
      omega
    have hlt : Header.headerLen < buf.bytes.length := by omega
    obtain ⟨padding, hpad, hwrites⟩ := writeLast_bytes hlt rtype requestId
    obtain ⟨r, hr, hcr, -, her⟩ := exists_record rtype requestId _ padding hcmax
      (by rw [hpad, hclen])
    rw [hclen, ← List.append_assoc] at her
    refine ⟨[r], ?_, fun r' hr' => ?_, by simp [h.stream, hcr]⟩
    · rw [WireRecord.encodeAll_cons, WireRecord.encodeAll_nil, List.append_nil, her]
      exact hwrites
    · rcases List.mem_append.mp hr' with hmem | hmem
      · exact hfull r' hmem
      · rw [List.mem_singleton.mp hmem, hcr, hclen]
        exact ⟨hr, hrest, by omega⟩
  · -- the buffer holds no content
    have hnil : buf.bytes.drop Header.headerLen = [] := List.drop_eq_nil_of_le (by omega)
    refine ⟨[], .nothing fun w => ?_, ?_, by simp [h.stream, hnil]⟩
    · rw [writeLast, if_neg (by omega), if_neg hrest]
      rfl
    · rw [List.append_nil]
      exact hfull

/-- The records of a finished stream: none is empty but the last. -/
structure Finished (rtype : RecordType) (requestId : UInt16) (stream : Bytes)
    (rs : List WireRecord) : Prop where
  ofStream : ∀ r ∈ rs, OfStream rtype requestId r
  shape : ∃ init last, rs = init ++ [last] ∧ last.content = [] ∧
    ∀ r ∈ init, 0 < r.content.length ∧ r.content.length ≤ bufLen - Header.headerLen
  contents : (rs.map WireRecord.content).flatten = stream

/-- Behind what is left, `end_stream` writes a header of its own. -/
theorem endStream_stops (A : Allocator) {last : Bytes}
    (h : Writes (fun w => w.writeLast buf requestId rtype) last (.ok (.ok ()))) :
    Writes (fun w => w.endStream A buf requestId rtype)
      (last ++ (Header.new rtype requestId 0).toBytes) (.ok (.ok ())) := by
  refine h.seq (.whole _) (fun w w' hw => ?_) (fun w e w' hw => ?_)
  · simp only [endStream, hw, Except.map, ok_bind, Header.writeInto_bytes,
      BytesMut.withCapacity_bytes, List.nil_append]
  · simp only [endStream, hw, ok_bind]

/-- `end_stream` writes the rest and a record without content. -/
theorem endStream_writes (A : Allocator) (h : Buffered rtype requestId rs buf stream) :
    ∃ rs' stop, Writes (fun w => w.endStream A buf requestId rtype)
        (WireRecord.encodeAll (rs' ++ [stop])) (.ok (.ok ())) ∧
      (∀ r ∈ rs ++ rs', OfStream rtype requestId r ∧ 0 < r.content.length ∧
        r.content.length ≤ bufLen - Header.headerLen) ∧
      ((rs ++ rs').map WireRecord.content).flatten = stream ∧
      OfStream rtype requestId stop ∧ stop.content = [] := by
  obtain ⟨rs', hlast, hfull, hstream⟩ := writeLast_writes h
  obtain ⟨stop, hstop, hcstop, -, hestop⟩ := exists_record rtype requestId [] []
    (by decide) (by decide)
  have hstopBytes : (Header.new rtype requestId 0).toBytes = stop.encode := by
    rw [hestop, List.append_nil, List.append_nil]
    rfl
  refine ⟨rs', stop, ?_, hfull, hstream, hstop, hcstop⟩
  rw [WireRecord.encodeAll_append, WireRecord.encodeAll_cons, WireRecord.encodeAll_nil,
    List.append_nil, ← hstopBytes]
  exact endStream_stops A hlast

/-- `end_stream` sends the rest and a record without content. -/
theorem endStream_streaming (A : Allocator) (h : Streaming rtype requestId base w buf stream) :
    ∃ w' rs, w.endStream A buf requestId rtype = .ok (.ok (), w') ∧
      w'.io.sent = base ++ WireRecord.encodeAll rs ∧ Finished rtype requestId stream rs := by
  obtain ⟨rs, hbuf, hsent⟩ := h.buffered
  obtain ⟨rs', stop, hwrites, hfull, hstream, hstop, hcstop⟩ := endStream_writes A hbuf
  obtain ⟨w', hr, hsent', -⟩ := hwrites.of_accepting h.accepting
  refine ⟨w', rs ++ rs' ++ [stop], hr, ?_, fun r hr => ?_, ⟨_, stop, rfl, hcstop,
    fun r hr => (hfull r hr).2⟩, ?_⟩
  · rw [hsent', hsent, List.append_assoc, List.append_assoc, WireRecord.encodeAll_append rs]
  · rcases List.mem_append.mp hr with hmem | hmem
    · exact (hfull r hmem).1
    · rw [List.mem_singleton.mp hmem]
      exact hstop
  · rw [List.map_append, List.flatten_append, hstream]
    simp [hcstop]

end FCGIWriter

end AsyncFcgi
