import AsyncFcgi.Codec.Capacity
import AsyncFcgi.Codec.DataStream

/-!
# Three writers of one stream (`src/codec.rs`)

`encode_data` and `data_stream` collect a stream in a buffer with a place for the header in
front, `flush_data_chunk` writes each chunk behind a header of its own. The records differ, the
stream does not.

* `encodeData_finished`: what `encode_data` sends.
* `streams_agree`: the three writers send whole records of the same stream.
-/

namespace AsyncFcgi

open Lib

namespace FCGIWriter

/-- `flush_data_chunk` for one chunk after the other. -/
def flushChunks (A : Allocator) (self : FCGIWriter) (requestId : UInt16) (rtype : RecordType) :
    List Bytes → Except Fault (Except IoError Unit × FCGIWriter)
  | [] => .ok (.ok (), self)
  | chunk :: chunks => do
    match ← self.flushDataChunk A chunk requestId rtype with
    | (.error e, self) => .ok (.error e, self)
    | (.ok (), self) => flushChunks A self requestId rtype chunks

/-- A whole stream of `data`: records of version 1, with content and padding a multiple of 8, the
last of them, and no other, without content. -/
structure WholeStream (rtype : RecordType) (requestId : UInt16) (data : Bytes)
    (rs : List WireRecord) : Prop where
  ofStream : ∀ r ∈ rs, OfStream rtype requestId r
  contents : (rs.map WireRecord.content).flatten = data
  bounded : ∀ r ∈ rs, r.content.length ≤ 65535
  last : ∃ init stop, rs = init ++ [stop] ∧ stop.content = [] ∧ ∀ r ∈ init, r.content ≠ []

/-- A call returns, having sent a whole stream. -/
def SendsStream (w : FCGIWriter) (rtype : RecordType) (requestId : UInt16) (data : Bytes)
    (call : Except Fault (Except IoError Unit × FCGIWriter)) : Prop :=
  ∃ w' rs, call = .ok (.ok (), w') ∧ w'.io.sent = w.io.sent ++ WireRecord.encodeAll rs ∧
    WholeStream rtype requestId data rs

/-- A new buffer of the capacity that `with_capacity` gives has room for each header of a stream of
values with these lengths. -/
def Suffices (A : Allocator) (lens : List ℕ) : Prop :=
  writtenOut lens (fullRecords lens) + Header.headerLen ≤ (BytesMut.withCapacity A bufLen).capacity

/-- A stream that fits into one record needs no more room than there is. -/
theorem suffices_of_le (A : Allocator) {lens : List ℕ} (h : lens.sum ≤ recordLen) :
    Suffices A lens := by
  have hfull : fullRecords lens = 0 := by
    have hpos : 0 < recordLen := by decide
    exact Nat.div_eq_of_lt (by omega)
  have hroom := BytesMut.le_withCapacity_spare (A := A) bufLen
  have hheader : Header.headerLen ≤ bufLen := by decide
  rw [Suffices, hfull, writtenOut, List.range_zero, List.map_nil, List.sum_nil, Nat.zero_add]
  unfold BytesMut.capacity
  omega

variable {A : Allocator} {w : FCGIWriter} {requestId : UInt16} {rtype : RecordType}
  {data : Bytes} {rs : List WireRecord} {base : Bytes}

theorem Finished.whole (h : Finished rtype requestId data rs) :
    WholeStream rtype requestId data rs where
  ofStream := h.ofStream
  contents := h.contents
  bounded r _ := r.content_le
  last := by
    obtain ⟨init, stop, hrs, hstop, hinit⟩ := h.shape
    exact ⟨init, stop, hrs, hstop, fun r hr => List.length_pos_iff.mp (hinit r hr).1⟩

/-! ## The buffered writers -/

/-- The buffer of a new stream has the capacity of its allocation. -/
theorem capacity_of_setLen {buf buf' : BytesMut} {len : ℕ} (h : buf.setLen len = .ok buf') :
    buf'.capacity = buf.capacity := by
  unfold BytesMut.setLen at h
  split at h
  · rename_i hle
    cases h
    unfold BytesMut.capacity at hle ⊢
    simp only [List.length_take, List.length_drop, List.length_append]
    omega
  · cases h

/-- The first values of a stream find room for each header. -/
theorem appendAll_suffices {vals : List Bytes} (hcap : Suffices A (vals.map List.length))
    {buf : BytesMut} (hbuf : (BytesMut.withCapacity A bufLen).setLen Header.headerLen = .ok buf)
    (w : FCGIWriter) :
    w.appendAll A ⟨requestId, rtype, buf⟩ vals ≠ .error .outOfCapacity :=
  appendAll_within (BytesMut.length_of_setLen hbuf) (capacity_of_setLen hbuf ▸ hcap) w

/-- **What `encode_data` sends**, on a transport that accepts every write. -/
theorem encodeData_finished (hacc : w.io.Accepting) (data : Bytes)
    (hcap : Suffices A [data.length]) :
    ∃ w' rs, w.encodeData A requestId rtype data = .ok (.ok (), w') ∧
      w'.io.sent = w.io.sent ++ WireRecord.encodeAll rs ∧ Finished rtype requestId data rs := by
  obtain ⟨buf, hbuf⟩ := exists_buf A
  have hstart : Streaming rtype requestId w.io.sent w buf [] :=
    streaming_start hbuf hacc rtype requestId
  rw [encodeData, hbuf, ok_bind]
  rcases appendToStream_streaming (A := A) data hstart with hfull | ⟨buf', w₁, hr, h⟩
  · have hno : w.appendAll A ⟨requestId, rtype, buf⟩ [data] ≠ .error .outOfCapacity :=
      appendAll_suffices hcap hbuf w
    rw [appendAll, hfull] at hno
    exact absurd rfl hno
  · simp only [hr, ok_bind]
    exact endStream_streaming A h

/-- The loop of `data_stream` over chunks without errors is `append_to_stream` for one after the
other. -/
theorem streamChunks_capacity (chunks : List Bytes) : ∀ {w : FCGIWriter} {buf : BytesMut} {len : ℕ},
    w.streamChunks A buf requestId rtype (chunks.map (Except.ok (ε := IoError))) len =
      .error .outOfCapacity →
    w.appendAll A ⟨requestId, rtype, buf⟩ chunks = .error .outOfCapacity := by
  induction chunks with
  | nil => intro w buf len h; cases h
  | cons val vals ih =>
    intro w buf len h
    rw [List.map_cons, streamChunks] at h
    rw [appendAll]
    rcases hr : w.appendToStream A val buf requestId rtype with f | ⟨_ | buf', w'⟩
    · rw [hr] at h
      obtain rfl : f = .outOfCapacity := Except.error.inj h
      rfl
    · simp only [hr, ok_bind] at h
      cases h
    · simp only [hr, ok_bind] at h
      exact ih h

theorem bodyData_ok (chunks : List Bytes) :
    bodyData (chunks.map (Except.ok (ε := IoError))) = chunks.flatten := by
  induction chunks with
  | nil => rfl
  | cons chunk chunks ih => rw [List.map_cons, bodyData, ih, List.flatten_cons]

/-- `data_stream` of a long enough body. -/
theorem dataStream_sends (hacc : w.io.Accepting) (chunks : List Bytes) {len : ℕ}
    (hlen : len ≤ chunks.flatten.length) (hcap : Suffices A (chunks.map List.length)) :
    w.SendsStream rtype requestId chunks.flatten
      (w.dataStream A (chunks.map (Except.ok (ε := IoError))) requestId rtype len) := by
  obtain ⟨buf, hbuf⟩ := exists_buf A
  have hstart : Streaming rtype requestId w.io.sent w buf [] :=
    streaming_start hbuf hacc rtype requestId
  rw [dataStream, hbuf, ok_bind]
  rcases streamChunks_streaming (A := A) (chunks.map (Except.ok (ε := IoError))) len hstart with
    hfull | ⟨buf', w₁, hr, h⟩
  · exact absurd (streamChunks_capacity chunks hfull) (appendAll_suffices hcap hbuf w)
  · rw [bodyData_ok] at hr h
    simp only [hr, ok_bind]
    rw [if_neg (by omega)]
    obtain ⟨w', rs, hend, hsent, hfin⟩ := endStream_streaming A h
    exact ⟨w', rs, hend, hsent, hfin.whole⟩

/-! ## The writer of single chunks -/

/-- `flush_data_chunk` of some chunks and then of an empty one, behind which the stream is
whole. -/
theorem flushChunks_sends (chunks : List Bytes) (hne : ∀ chunk ∈ chunks, chunk ≠ []) :
    ∀ {w : FCGIWriter}, w.io.Accepting → w.SendsStream rtype requestId chunks.flatten
      (w.flushChunks A requestId rtype (chunks ++ [[]])) := by
  induction chunks with
  | nil =>
    intro w hacc
    obtain ⟨rs, hwrites, hrs⟩ := flushDataChunk_writes A requestId rtype []
    obtain ⟨w', hr, hsent, -⟩ := hwrites.of_accepting hacc
    obtain ⟨stop, rfl, hnil⟩ := hrs.empty rfl
    refine ⟨w', [stop], ?_, hsent, hrs.ofStream, hrs.contents, fun r _ => r.content_le, [], stop,
      rfl, hnil, nofun⟩
    rw [List.nil_append, flushChunks, hr]
    rfl
  | cons chunk chunks ih =>
    intro w hacc
    obtain ⟨rs, hwrites, hrs⟩ := flushDataChunk_writes A requestId rtype chunk
    obtain ⟨w₁, hr, hsent, hacc₁⟩ := hwrites.of_accepting hacc
    obtain ⟨w', rs', hr', hsent', hwhole⟩ :=
      ih (fun c hc => hne c (List.mem_cons_of_mem _ hc)) hacc₁
    obtain ⟨init, stop, rfl, hnil, hinit⟩ := hwhole.last
    refine ⟨w', rs ++ (init ++ [stop]), ?_, ?_, fun r hr => ?_, ?_, fun r _ => r.content_le,
      rs ++ init, stop, (List.append_assoc _ _ _).symm, hnil, fun r hr => ?_⟩
    · rw [List.cons_append, flushChunks, hr]
      exact hr'
    · rw [hsent', hsent, WireRecord.encodeAll_append rs, List.append_assoc]
    · exact (List.mem_append.mp hr).elim (hrs.ofStream r) (hwhole.ofStream r)
    · rw [List.map_append, List.flatten_append, hrs.contents, hwhole.contents, List.flatten_cons]
    · exact (List.mem_append.mp hr).elim (hrs.nonempty (hne chunk List.mem_cons_self) r) (hinit r)

/-- **All writers of byte streams send the same stream.** For chunks that are not empty, on a
transport that accepts every write and with capacity for the headers: `encode_data` of the bytes as
a whole, `data_stream` of the chunks, and `flush_data_chunk` of each chunk and then of an empty one
send whole records of the bytes, of which exactly the last is empty; and no chunk that is not empty
is flushed with an empty record. -/
theorem streams_agree (hacc : w.io.Accepting) (requestId : UInt16) (rtype : RecordType)
    {chunks : List Bytes} (hne : ∀ chunk ∈ chunks, chunk ≠ [])
    (hwhole : Suffices A [chunks.flatten.length]) (hchunks : Suffices A (chunks.map List.length)) :
    w.SendsStream rtype requestId chunks.flatten
        (w.encodeData A requestId rtype chunks.flatten) ∧
      (∀ len ≤ chunks.flatten.length, w.SendsStream rtype requestId chunks.flatten
        (w.dataStream A (chunks.map (Except.ok (ε := IoError))) requestId rtype len)) ∧
      w.SendsStream rtype requestId chunks.flatten
        (w.flushChunks A requestId rtype (chunks ++ [[]])) ∧
      ∀ data ≠ [], ∃ w' rs, w.flushDataChunk A data requestId rtype = .ok (.ok (), w') ∧
        w'.io.sent = w.io.sent ++ WireRecord.encodeAll rs ∧ ∀ r ∈ rs, r.content ≠ [] := by
  refine ⟨?_, fun len hlen => dataStream_sends hacc chunks hlen hchunks,
    flushChunks_sends chunks hne hacc, fun data hdata => ?_⟩
  · obtain ⟨w', rs, hr, hsent, hfin⟩ := encodeData_finished hacc chunks.flatten hwhole
    exact ⟨w', rs, hr, hsent, hfin.whole⟩
  · obtain ⟨rs, hwrites, hrs⟩ := flushDataChunk_writes A requestId rtype data
    obtain ⟨w', hr, hsent, -⟩ := hwrites.of_accepting hacc
    exact ⟨w', rs, hr, hsent, hrs.nonempty hdata⟩

/-- Two chunks of STDOUT, one byte in each write. -/
theorem streams_agree_oneByOne :
    oneByOne.SendsStream .stdOut 1 [1, 2, 3] (oneByOne.encodeData zeroed 1 .stdOut [1, 2, 3]) ∧
      oneByOne.SendsStream .stdOut 1 [1, 2, 3]
        (oneByOne.flushChunks zeroed 1 .stdOut [[1], [2, 3], []]) := by
  have hne : ∀ chunk ∈ [[1], [2, 3]], chunk ≠ ([] : Bytes) := by decide
  have h := streams_agree oneByOne_accepting 1 .stdOut hne
    (suffices_of_le zeroed (by decide)) (suffices_of_le zeroed (by decide))
  exact ⟨h.1, h.2.2.1⟩

end FCGIWriter

end AsyncFcgi
