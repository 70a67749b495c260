import AsyncFcgi.Codec.KvStream

/-!
# Records and data streams (`src/codec.rs`)

`encode` for a whole item, `data_stream` for a body, and `flush_data_chunk` for one chunk of a
body, which leaves the stream open.

* `encode_beginRequest`, `encode_abortRequest`: one record each.
* `flushDataChunk_writes`: a chunk becomes records of its own, none of them empty unless the
  chunk is.
* `dataStream_ends`: the chunks of a body become one stream, which is ended if they are long
  enough, and aborted if not.
-/

namespace AsyncFcgi

open Lib

/-- `FCGIType` (lines 13–53). -/
inductive FCGIType
  | beginRequest (requestId : UInt16) (role : FastCGIRole) (flags : UInt8)
  | abortRequest (requestId : UInt16)
  | endRequest (requestId : UInt16) (appStatus : UInt32) (protoStatus : UInt8)
  | params (requestId : UInt16) (p : List NameValuePair)
  | stdin (requestId : UInt16) (data : Bytes)
  | stdout (requestId : UInt16) (data : Bytes)
  | stderr (requestId : UInt16) (data : Bytes)
  | data (requestId : UInt16) (data : Bytes)
  | getValues (p : List NameValuePair)
  | getValuesResult (p : List NameValuePair)

/-- `Error::new(ErrorKind::ConnectionAborted, "body too short")`. -/
def bodyTooShort : IoError := ⟨.connectionAborted, "body too short"⟩

namespace FCGIWriter

variable (A : Allocator) {ε : Type}

/-- `encode_data` (lines 231–246). -/
def encodeData (self : FCGIWriter) (requestId : UInt16) (rtype : RecordType) (data : Bytes) :
    Except Fault (Except IoError Unit × FCGIWriter) := do
  let buf ← (BytesMut.withCapacity A bufLen).setLen Header.headerLen
  match ← self.appendToStream A data buf requestId rtype with
  | (.error e, self) => .ok (.error e, self)
  | (.ok buf, self) => self.endStream A buf requestId rtype

/-- `encode` (lines 100–157). -/
def encode (self : FCGIWriter) (item : FCGIType) : Except Fault (Except IoError Unit × FCGIWriter) :=
  match item with
  | .beginRequest requestId role flags =>
    let buf := (Header.new .beginRequest requestId 8).writeInto A
      (.withCapacity A (Header.headerLen + 8))
    let buf := ((buf.put A (beU16 role.toU16)).put A [flags]).put A [0, 0, 0, 0, 0]
    .ok (self.writeWholeBuf buf.bytes)
  | .abortRequest requestId =>
    let buf := (Header.new .abortRequest requestId 0).writeInto A (.withCapacity A Header.headerLen)
    .ok (self.writeWholeBuf buf.bytes)
  | .endRequest requestId appStatus protoStatus =>
    let buf := (Header.new .endRequest requestId 8).writeInto A
      (.withCapacity A (Header.headerLen + 8))
    let buf := ((buf.put A (beU32 appStatus)).put A [protoStatus]).put A [0, 0, 0]
    .ok (self.writeWholeBuf buf.bytes)
  | .params requestId p => self.encodeKvp A requestId .params p
  | .stdin requestId data => self.encodeData A requestId .stdIn data
  | .stdout requestId data => self.encodeData A requestId .stdOut data
  | .stderr requestId data => self.encodeData A requestId .stdErr data
  | .data requestId data => self.encodeData A requestId .data data
  | .getValues p => self.encodeKvp A mgmtRequestId .getValues p
  | .getValuesResult p => self.encodeKvp A mgmtRequestId .getValuesResult p

/-- The loop of `data_stream` over the chunks of the body (lines 262–270): the buffer, and what
is missing of `len`. Chunks that are errors are skipped. -/
def streamChunks (self : FCGIWriter) (buf : BytesMut) (requestId : UInt16) (rtype : RecordType) :
    List (Except ε Bytes) → ℕ → Except Fault (Except IoError (BytesMut × ℕ) × FCGIWriter)
  | [], len => .ok (.ok (buf, len), self)
  | .error _ :: chunks, len => streamChunks self buf requestId rtype chunks len
  | .ok val :: chunks, len => do
    -- `saturating_sub`
    let len := len - val.length
    match ← self.appendToStream A val buf requestId rtype with
    | (.error e, self) => .ok (.error e, self)
    | (.ok buf, self) => streamChunks self buf requestId rtype chunks len

/-- `data_stream` (lines 248–283). -/
def dataStream (self : FCGIWriter) (body : List (Except ε Bytes)) (requestId : UInt16)
    (rtype : RecordType) (len : ℕ) : Except Fault (Except IoError Unit × FCGIWriter) := do
  let buf ← (BytesMut.withCapacity A bufLen).setLen Header.headerLen
  match ← self.streamChunks A buf requestId rtype body len with
  | (.error e, self) => .ok (.error e, self)
  | (.ok (buf, len), self) =>
    if 0 < len then
      match ← self.encode A (.abortRequest requestId) with
      | (.error e, self) => .ok (.error e, self)
      | (.ok (), self) => .ok (.error bodyTooShort, self)
    else self.endStream A buf requestId rtype

/-- A header, in a buffer of its own. -/
def headerBuf (h : Header) : Bytes := (h.writeInto A (.withCapacity A Header.headerLen)).bytes

theorem fullContent_pos : 0 < bufLen - Header.headerLen := by decide

/-- The loop of `flush_data_chunk` (lines 298–307): what is left of `data`. Each turn writes the
same header. -/
def flushFull (self : FCGIWriter) (header data : Bytes) : Except IoError Bytes × FCGIWriter :=
  if _h : bufLen - Header.headerLen < data.length then
    match self.writeBoth header (data.take (bufLen - Header.headerLen)) with
    | (.error e, self) => (.error e, self)
    | (.ok (), self) => flushFull self header (data.drop (bufLen - Header.headerLen))
  else (.ok data, self)
termination_by data.length
decreasing_by
  have := fullContent_pos
  rw [List.length_drop]
  omega

/-- The last record of a chunk and its padding (lines 308–321). -/
def flushLast (self : FCGIWriter) (data : Bytes) (requestId : UInt16) (rtype : RecordType) :
    Except Fault (Except IoError Unit × FCGIWriter) := do
  let lastHead := Header.new rtype requestId (UInt16.ofNat data.length)
  let header := headerBuf A lastHead
  if data = [] then .ok (self.writeWholeBuf header)
  else
    let pad ← slice header 0 lastHead.getPadding.toNat
    match self.writeBoth header data with
    | (.error e, self) => .ok (.error e, self)
    | (.ok (), self) => .ok (self.writeWholeBuf pad)

/-- `flush_data_chunk` (lines 288–322). -/
def flushDataChunk (self : FCGIWriter) (data : Bytes) (requestId : UInt16) (rtype : RecordType) :
    Except Fault (Except IoError Unit × FCGIWriter) :=
  let fullHead := Header.new rtype requestId (UInt16.ofNat (bufLen - Header.headerLen))
  match self.flushFull (headerBuf A fullHead) data with
  | (.error e, self) => .ok (.error e, self)
  | (.ok data, self) => self.flushLast A data requestId rtype

variable {A} {w : FCGIWriter} {requestId : UInt16} {rtype : RecordType} {base : Bytes}

/-! ## Single records -/

/-- BEGIN_REQUEST as `encode` writes it. -/
def beginRecord (requestId : UInt16) (role : FastCGIRole) (flags : UInt8) : WireRecord where
  version := Header.version1
  rtype := .beginRequest
  requestId := requestId
  reserved := 0
  content := beU16 role.toU16 ++ [flags, 0, 0, 0, 0, 0]
  padding := []
  content_le := by simp [beU16]
  padding_le := noPadding_le

/-- ABORT_REQUEST as `encode` writes it. -/
def abortRecord (requestId : UInt16) : WireRecord where
  version := Header.version1
  rtype := .abortRequest
  requestId := requestId
  reserved := 0
  content := []
  padding := []
  content_le := noContent_le
  padding_le := noPadding_le

theorem encode_beginRequest (w : FCGIWriter) (role : FastCGIRole) (flags : UInt8) :
    w.encode A (.beginRequest requestId role flags) =
      .ok (w.writeWholeBuf (beginRecord requestId role flags).encode) := by
  simp only [encode, BytesMut.put_bytes, Header.writeInto_bytes, BytesMut.withCapacity_bytes,
    List.nil_append, List.append_assoc]
  rfl

theorem encode_abortRequest (w : FCGIWriter) :
    w.encode A (.abortRequest requestId) = .ok (w.writeWholeBuf (abortRecord requestId).encode) := by
  simp only [encode, Header.writeInto_bytes, BytesMut.withCapacity_bytes, List.nil_append]
  rfl

/-! ## One chunk -/

theorem headerBuf_eq (h : Header) : headerBuf A h = h.toBytes := by
  rw [headerBuf, Header.writeInto_bytes, BytesMut.withCapacity_bytes, List.nil_append]

/-- The records of a chunk: one without content for an empty chunk, and none without content
for any other. -/
structure ChunkRecords (rtype : RecordType) (requestId : UInt16) (data : Bytes)
    (rs : List WireRecord) : Prop where
  ofStream : ∀ r ∈ rs, OfStream rtype requestId r
  contents : (rs.map WireRecord.content).flatten = data
  nonempty : data ≠ [] → ∀ r ∈ rs, r.content ≠ []
  empty : data = [] → ∃ r, rs = [r] ∧ r.content = []

theorem flushLast_writes (A : Allocator) (requestId : UInt16) (rtype : RecordType) {data : Bytes}
    (hlen : data.length ≤ bufLen - Header.headerLen) :
    ∃ rec, Writes (fun w => w.flushLast A data requestId rtype) rec.encode (.ok (.ok ())) ∧
      OfStream rtype requestId rec ∧ rec.content = data := by
  have hmax : data.length ≤ 0xffff := hlen.trans (by decide)
  generalize hhead : Header.new rtype requestId (UInt16.ofNat data.length) = lastHead
  have hpad : lastHead.getPadding = Header.padFor (UInt16.ofNat data.length) := by
    rw [← hhead]
    rfl
  have hpadle : lastHead.getPadding.toNat ≤ lastHead.toBytes.length := by
    rw [Header.length_toBytes, hpad, Header.toNat_padFor]
    have : 7 ≤ Header.headerLen := by decide
    omega
  obtain ⟨rec, hrec, hcontent, -, hencode⟩ := exists_record rtype requestId data
    (lastHead.toBytes.take lastHead.getPadding.toNat) hmax (by
      rw [List.length_take, Nat.min_eq_left hpadle, hpad])
  rw [hhead, ← List.append_assoc] at hencode
  refine ⟨rec, ?_, hrec, hcontent⟩
  rw [hencode]
  by_cases hnil : data = []
  · subst hnil
    have hnopad : lastHead.getPadding.toNat = 0 := by
      rw [hpad, Header.toNat_padFor]
      rfl
    rw [hnopad, List.take_zero, List.append_nil, List.append_nil]
    refine (Writes.whole lastHead.toBytes).last (fun w w' hw => ?_) (fun w e w' hw => ?_)
    all_goals
      rw [flushLast, hhead, if_pos rfl, headerBuf_eq]
      exact hw
  · refine (writes_both _ _).seq (.whole _) (fun w w' hw => ?_) (fun w e w' hw => ?_)
    all_goals
      rw [flushLast]
      simp only [hhead, headerBuf_eq, if_neg hnil, slice_of_le hpadle, ok_bind, Except.ok.inj hw]

/-- The loop writes full records, and leaves a rest that fits into one. -/
theorem flushFull_wrote (requestId : UInt16) (rtype : RecordType) (data : Bytes) :
    ∃ rs rest, (∀ w : FCGIWriter, ∃ r w', w.flushFull (Header.new rtype requestId
        (UInt16.ofNat (bufLen - Header.headerLen))).toBytes data = (r, w') ∧
        Wrote w (WireRecord.encodeAll rs) r w' ∧ ∀ d, r = .ok d → d = rest) ∧
      (∀ rec ∈ rs, OfStream rtype requestId rec ∧ rec.content ≠ []) ∧
      (rs.map WireRecord.content).flatten ++ rest = data ∧ (rest = [] → rs = []) ∧
      rest.length ≤ bufLen - Header.headerLen := by
  have hpos := fullContent_pos
  generalize hhead :
    (Header.new rtype requestId (UInt16.ofNat (bufLen - Header.headerLen))).toBytes = header
  induction hn : data.length using Nat.strong_induction_on generalizing data with
  | _ n ih =>
    by_cases hfull : bufLen - Header.headerLen < data.length
    · have htake : (data.take (bufLen - Header.headerLen)).length = bufLen - Header.headerLen := by
        rw [List.length_take]
        omega
      obtain ⟨rec, hrec, hcontent, -, hencode⟩ := exists_record rtype requestId
        (data.take (bufLen - Header.headerLen)) [] (htake.trans_le (by decide))
        (by rw [htake]; decide)
      rw [htake, hhead, List.append_nil] at hencode
      have hne : rec.content ≠ [] := by
        rw [hcontent, ← List.length_pos_iff, htake]
        exact hpos
      obtain ⟨rs, rest, hloop, hrs, hdata, hnil, hle⟩ :=
        ih _ (by rw [List.length_drop]; omega) (data.drop (bufLen - Header.headerLen)) rfl
      have hdata' : ((rec :: rs).map WireRecord.content).flatten ++ rest = data := by
        rw [List.map_cons, List.flatten_cons, List.append_assoc, hdata, hcontent,
          List.take_append_drop]
      have hnil' : rest ≠ [] := by
        rintro rfl
        rw [hnil rfl, List.map_nil, List.flatten_nil, List.append_nil] at hdata
        have hlen := congrArg List.length hdata
        rw [List.length_drop, List.length_nil] at hlen
        omega
      refine ⟨rec :: rs, rest, fun w => ?_, List.forall_mem_cons.mpr ⟨⟨hrec, hne⟩, hrs⟩, hdata',
        fun h => absurd h hnil', hle⟩
      have hboth := writeBoth_wrote w header (data.take (bufLen - Header.headerLen))
      rw [← hencode] at hboth
      rw [flushFull, dif_pos hfull, WireRecord.encodeAll_cons]
      cases hw : w.writeBoth header (data.take (bufLen - Header.headerLen)) with
      | mk res w₁ =>
        rw [hw] at hboth
        cases res with
        | error e => exact ⟨.error e, w₁, rfl, hboth.stop _, nofun⟩
        | ok _ =>
          obtain ⟨r, w', hrest, hwrote, hr⟩ := hloop w₁
          exact ⟨r, w', hrest, hboth.trans hwrote, hr⟩
    · refine ⟨[], data, fun w => ⟨.ok data, w, ?_, .all rfl (List.append_nil _).symm,
        fun d hd => (Except.ok.inj hd).symm⟩, nofun, rfl, fun _ => rfl, Nat.not_lt.mp hfull⟩
      rw [flushFull, dif_neg hfull]

/-- **A chunk is written as records of its own.** -/
theorem flushDataChunk_writes (A : Allocator) (requestId : UInt16) (rtype : RecordType)
    (data : Bytes) :
    ∃ rs, Writes (fun w => w.flushDataChunk A data requestId rtype) (WireRecord.encodeAll rs)
        (.ok (.ok ())) ∧ ChunkRecords rtype requestId data rs := by
  obtain ⟨rs, rest, hloop, hrs, hdata, hnil, hle⟩ := flushFull_wrote requestId rtype data
  obtain ⟨rec, hlast, hrec, hcontent⟩ := flushLast_writes A requestId rtype hle
  refine ⟨rs ++ [rec], fun w => ?_, fun x hx => ?_, ?_, fun hne x hx => ?_,
    fun hempty => ⟨rec, ?_⟩⟩
  · obtain ⟨r, w₁, hfull, hwrote, hr⟩ := hloop w
    rw [WireRecord.encodeAll_append, WireRecord.encodeAll_cons, WireRecord.encodeAll_nil,
      List.append_nil]
    simp only [flushDataChunk, headerBuf_eq, hfull]
    cases r with
    | error e => exact Or.inr ⟨e, w₁, hwrote.stop _, rfl⟩
    | ok d =>
      obtain rfl := hr d rfl
      rcases hlast w₁ with ⟨w', hwrote', hr'⟩ | ⟨e, w', hwrote', hr'⟩
      · exact Or.inl ⟨w', hwrote.trans hwrote', hr'⟩
      · exact Or.inr ⟨e, w', hwrote.trans hwrote', hr'⟩
  · rcases List.mem_append.mp hx with hmem | hmem
    · exact (hrs x hmem).1
    · rw [List.mem_singleton.mp hmem]
      exact hrec
  · rw [← hdata, List.map_append, List.flatten_append]
    simp [hcontent]
  · rcases List.mem_append.mp hx with hmem | hmem
    · exact (hrs x hmem).2
    · rw [List.mem_singleton.mp hmem, hcontent]
      rintro rfl
      rw [hnil rfl] at hdata
      exact hne hdata.symm
  · rw [hempty, List.append_eq_nil_iff] at hdata
    rw [hnil hdata.2, hcontent]
    exact ⟨rfl, hdata.2⟩

/-! ## The chunks of a body -/

/-- The bytes of a body, without its errors. -/
def bodyData : List (Except ε Bytes) → Bytes
  | [] => []
  | .error _ :: chunks => bodyData chunks
  | .ok data :: chunks => data ++ bodyData chunks

/-- How an upload of `data` ends that expects `len` bytes: behind the records `rs` with the end of
the stream, or with ABORT_REQUEST. -/
structure Ends (rtype : RecordType) (requestId : UInt16) (len : ℕ) (data : Bytes)
    (res : Except IoError Unit) (rs : List WireRecord) (last : WireRecord) : Prop where
  stream : ∀ r ∈ rs, OfStream rtype requestId r ∧ r.content ≠ []
  enough : len ≤ data.length → res = .ok () ∧ OfStream rtype requestId last ∧
    last.content = [] ∧ (rs.map WireRecord.content).flatten = data
  short : data.length < len → res = .error bodyTooShort ∧ last = abortRecord requestId

/-- `data_stream` adds the chunks to the stream, and counts them up to `len`. -/
theorem streamChunks_streaming (body : List (Except ε Bytes)) : ∀ (len : ℕ) {w : FCGIWriter}
    {buf : BytesMut} {stream : Bytes}, Streaming rtype requestId base w buf stream →
    w.streamChunks A buf requestId rtype body len = .error .outOfCapacity ∨
      ∃ buf' w', w.streamChunks A buf requestId rtype body len =
          .ok (.ok (buf', len - (bodyData body).length), w') ∧
        Streaming rtype requestId base w' buf' (stream ++ bodyData body) := by
  induction body with
  | nil =>
    intro len w buf stream h
    exact Or.inr ⟨buf, w, rfl, by rwa [bodyData, List.append_nil]⟩
  | cons chunk chunks ih =>
    intro len w buf stream h
    cases chunk with
    | error e => exact ih len h
    | ok val =>
      rw [streamChunks]
      rcases appendToStream_streaming (A := A) val h with hcap | ⟨buf', w', hr, h'⟩
      · left
        rw [hcap]
        rfl
      · simp only [hr, ok_bind]
        rcases ih (len - val.length) h' with hcap | ⟨buf'', w'', hr', h''⟩
        · exact Or.inl hcap
        · refine Or.inr ⟨buf'', w'', ?_, by rwa [List.append_assoc] at h''⟩
          rw [hr', bodyData, List.length_append, Nat.sub_sub]

/-- **What `data_stream` does with a body**, on a transport that accepts every write. -/
theorem dataStream_ends (hacc : w.io.Accepting) (body : List (Except ε Bytes)) (len : ℕ) :
    w.dataStream A body requestId rtype len = .error .outOfCapacity ∨
      ∃ res w' rs last, w.dataStream A body requestId rtype len = .ok (res, w') ∧
        w'.io.sent = w.io.sent ++ WireRecord.encodeAll (rs ++ [last]) ∧
        Ends rtype requestId len (bodyData body) res rs last := by
  obtain ⟨buf, hbuf⟩ := exists_buf A
  have hstart : Streaming rtype requestId w.io.sent w buf [] :=
    streaming_start hbuf hacc rtype requestId
  rw [dataStream, hbuf, ok_bind]
  rcases streamChunks_streaming (A := A) body len hstart with hcap | ⟨buf', w₁, hr, h⟩
  · left
    rw [hcap]
    rfl
  · right
    simp only [hr, ok_bind]
    by_cases hlt : (bodyData body).length < len
    · obtain ⟨rs, hrs, hof, -⟩ := h.sent
      have habort := writeWholeBuf_wrote (abortRecord requestId).encode w₁
      rw [if_pos (by omega), encode_abortRequest, ok_bind]
      cases hw : w₁.writeWholeBuf (abortRecord requestId).encode with
      | mk r w₂ =>
        rw [hw] at habort
        obtain ⟨a, rfl⟩ := habort.of_accepting h.accepting
        refine ⟨_, w₂, rs, abortRecord requestId, rfl, ?_, fun r hr => ?_, fun hle => ?_,
          fun _ => ⟨rfl, rfl⟩⟩
        · rw [habort.sent, hrs, WireRecord.encodeAll_append, List.append_assoc]
          simp
        · obtain ⟨hrof, hlen⟩ := hof r hr
          refine ⟨hrof, ?_⟩
          rw [← List.length_pos_iff, hlen]
          exact fullContent_pos
        · omega
    · rw [if_neg (by omega)]
      obtain ⟨w', rs, hr', hsent, hfin⟩ := endStream_streaming A h
      obtain ⟨init, last, rfl, hlast, hinit⟩ := hfin.shape
      refine ⟨_, w', init, last, hr', hsent, fun r hr => ?_, fun _ => ⟨rfl, ?_, hlast, ?_⟩, ?_⟩
      · exact ⟨hfin.ofStream r (List.mem_append_left _ hr),
          List.length_pos_iff.mp (hinit r hr).1⟩
      · exact hfin.ofStream last (List.mem_append_right _ (List.mem_singleton_self last))
      · have hcontents := hfin.contents
        rw [List.map_append, List.flatten_append, List.map_singleton, hlast] at hcontents
        simpa using hcontents
      · exact fun h => absurd h hlt

end FCGIWriter

end AsyncFcgi
