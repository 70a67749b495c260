import AsyncFcgi.Codec.StreamWriters
import AsyncFcgi.Fastcgi.RecordReader

/-!
# Items on the wire (`src/codec.rs`)

What `encode` sends for one item after the other is read back as these items, by a reader that
knows the protocol and nothing of the writer: it takes a discrete record as it is, and the records
of a stream up to the one without content.

* `FCGIType.format`: items as a format over records, in which a stream has many code words.
* `encode_word`: one item.
* `encodeItems_readBack`: any items, on any transport.
-/

namespace AsyncFcgi

open Lib

/-! ## Items as a format -/

/-- END_REQUEST as `encode` writes it. -/
def FCGIWriter.endRecord (requestId : UInt16) (appStatus : UInt32) (protoStatus : UInt8) :
    WireRecord where
  version := Header.version1
  rtype := .endRequest
  requestId := requestId
  reserved := 0
  content := beU32 appStatus ++ [protoStatus, 0, 0, 0]
  padding := []
  content_le := by simp [beU32]
  padding_le := noPadding_le

/-- A role, by its number. -/
def FastCGIRole.ofU16 (n : UInt16) : Option FastCGIRole :=
  if n = 1 then some .responder
  else if n = 2 then some .authorizer
  else if n = 3 then some .filter
  else none

theorem FastCGIRole.ofU16_toU16 (role : FastCGIRole) : ofU16 role.toU16 = some role := by
  cases role <;> rfl

namespace FCGIType

/-- The content of BEGIN_REQUEST. -/
def readBegin (content : Bytes) : Option (FastCGIRole × UInt8) :=
  match getU16 content with
  | .ok (role, flags :: _) => (FastCGIRole.ofU16 role).map fun role => (role, flags)
  | _ => none

/-- The content of END_REQUEST. -/
def readEnd (content : Bytes) : Option (UInt32 × UInt8) :=
  match getU32 content with
  | .ok (appStatus, protoStatus :: _) => some (appStatus, protoStatus)
  | _ => none

/-- The bytes of a stream, up to the record without content. -/
def readStream (rtype : RecordType) (requestId : UInt16) :
    List WireRecord → Option (Bytes × List WireRecord)
  | [] => none
  | r :: rs =>
    if r.rtype = rtype ∧ r.requestId = requestId then
      if r.content = [] then some ([], rs)
      else (readStream rtype requestId rs).map fun (d, rest) => (r.content ++ d, rest)
    else none

/-- The pairs of a stream. -/
def readPairs (rtype : RecordType) (requestId : UInt16) (rs : List WireRecord) :
    Option (List NameValuePair × List WireRecord) :=
  (readStream rtype requestId rs).bind fun (d, rest) =>
    (NameValuePair.code.decodeAll d).map fun p => (p, rest)

/-- The item at the start of some records. -/
def read : List WireRecord → Option (FCGIType × List WireRecord)
  | [] => none
  | r :: rs =>
    match r.rtype with
    | .beginRequest =>
      (readBegin r.content).map fun (role, flags) => (.beginRequest r.requestId role flags, rs)
    | .abortRequest => some (.abortRequest r.requestId, rs)
    | .endRequest =>
      (readEnd r.content).map fun (app, proto) => (.endRequest r.requestId app proto, rs)
    | .params => (readPairs .params r.requestId (r :: rs)).map fun (p, rs) =>
        (.params r.requestId p, rs)
    | .stdIn => (readStream .stdIn r.requestId (r :: rs)).map fun (d, rs) =>
        (.stdin r.requestId d, rs)
    | .stdOut => (readStream .stdOut r.requestId (r :: rs)).map fun (d, rs) =>
        (.stdout r.requestId d, rs)
    | .stdErr => (readStream .stdErr r.requestId (r :: rs)).map fun (d, rs) =>
        (.stderr r.requestId d, rs)
    | .data => (readStream .data r.requestId (r :: rs)).map fun (d, rs) => (.data r.requestId d, rs)
    | .getValues => (readPairs .getValues mgmtRequestId (r :: rs)).map fun (p, rs) =>
        (.getValues p, rs)
    | .getValuesResult => (readPairs .getValuesResult mgmtRequestId (r :: rs)).map fun (p, rs) =>
        (.getValuesResult p, rs)
    | .unknownType => none

/-- The records are the item. -/
def Word (item : FCGIType) (rs : List WireRecord) : Prop :=
  match item with
  | .beginRequest requestId role flags => rs = [FCGIWriter.beginRecord requestId role flags]
  | .abortRequest requestId => rs = [FCGIWriter.abortRecord requestId]
  | .endRequest requestId app proto => rs = [FCGIWriter.endRecord requestId app proto]
  | .params requestId p => (∀ q ∈ p, q.Encodable) ∧
      FCGIWriter.Finished .params requestId (NameValuePair.code.encodeAll p) rs
  | .stdin requestId d => FCGIWriter.Finished .stdIn requestId d rs
  | .stdout requestId d => FCGIWriter.Finished .stdOut requestId d rs
  | .stderr requestId d => FCGIWriter.Finished .stdErr requestId d rs
  | .data requestId d => FCGIWriter.Finished .data requestId d rs
  | .getValues p => (∀ q ∈ p, q.Encodable) ∧
      FCGIWriter.Finished .getValues mgmtRequestId (NameValuePair.code.encodeAll p) rs
  | .getValuesResult p => (∀ q ∈ p, q.Encodable) ∧
      FCGIWriter.Finished .getValuesResult mgmtRequestId (NameValuePair.code.encodeAll p) rs

theorem readStream_lt {rtype : RecordType} {requestId : UInt16} {rs : List WireRecord} :
    ∀ {d : Bytes} {rest : List WireRecord}, readStream rtype requestId rs = some (d, rest) →
      rest.length < rs.length := by
  induction rs with
  | nil => intro d rest h; cases h
  | cons r rs ih =>
    intro d rest h
    rw [readStream] at h
    split at h
    · split at h
      · cases h
        exact Nat.lt_succ_self _
      · obtain ⟨⟨d', rest'⟩, h', hd⟩ := Option.map_eq_some_iff.mp h
        cases hd
        exact (ih h').trans (Nat.lt_succ_self _)
    · cases h

theorem readPairs_lt {rtype : RecordType} {requestId : UInt16} {rs rest : List WireRecord}
    {p : List NameValuePair} (h : readPairs rtype requestId rs = some (p, rest)) :
    rest.length < rs.length := by
  obtain ⟨⟨d, rest'⟩, hd, h⟩ := Option.bind_eq_some_iff.mp h
  obtain ⟨p', -, hp⟩ := Option.map_eq_some_iff.mp h
  cases hp
  exact readStream_lt hd

theorem read_lt {rs rest : List WireRecord} {item : FCGIType} (h : read rs = some (item, rest)) :
    rest.length < rs.length := by
  cases rs with
  | nil => cases h
  | cons r rs =>
    rw [read] at h
    cases hr : r.rtype <;> rw [hr] at h <;> simp only at h
    case unknownType => cases h
    case abortRequest =>
      cases h
      exact Nat.lt_succ_self _
    all_goals
      obtain ⟨x, hx, hy⟩ := Option.map_eq_some_iff.mp h
      cases hy
      first | exact readStream_lt hx | exact readPairs_lt hx | exact Nat.lt_succ_self _

/-- A finished stream is read to its end. -/
theorem readStream_finished {rtype : RecordType} {requestId : UInt16} {rs : List WireRecord}
    {d : Bytes} (h : FCGIWriter.Finished rtype requestId d rs) (rest : List WireRecord) :
    readStream rtype requestId (rs ++ rest) = some (d, rest) := by
  obtain ⟨hof, ⟨init, last, rfl, hlast, hinit⟩, rfl⟩ := h
  induction init with
  | nil =>
    have hr := hof last List.mem_cons_self
    simp [readStream, hr.rtype, hr.requestId, hlast]
  | cons r init ih =>
    have hr := hof r List.mem_cons_self
    have hne : r.content ≠ [] := List.length_pos_iff.mp (hinit r List.mem_cons_self).1
    rw [List.cons_append, List.cons_append, readStream, if_pos ⟨hr.rtype, hr.requestId⟩, if_neg hne,
      ih (fun r' hr' => hof r' (List.mem_cons_of_mem _ hr'))
        fun r' hr' => hinit r' (List.mem_cons_of_mem _ hr')]
    rfl

theorem readPairs_finished {rtype : RecordType} {requestId : UInt16} {rs : List WireRecord}
    {p : List NameValuePair} (hp : ∀ q ∈ p, q.Encodable)
    (h : FCGIWriter.Finished rtype requestId (NameValuePair.code.encodeAll p) rs)
    (rest : List WireRecord) : readPairs rtype requestId (rs ++ rest) = some (p, rest) := by
  have hdecode : NameValuePair.code.decodeAll (NameValuePair.code.encodeAll p) = some p :=
    Code.decodeAll_encodeAll hp
  rw [readPairs, readStream_finished h, Option.bind_some]
  simp only [hdecode, Option.map_some]

/-- The first record of a finished stream. -/
theorem finished_cons {rtype : RecordType} {requestId : UInt16} {rs : List WireRecord}
    {d : Bytes} (h : FCGIWriter.Finished rtype requestId d rs) :
    ∃ r rs', rs = r :: rs' ∧ r.rtype = rtype ∧ r.requestId = requestId := by
  obtain ⟨hof, ⟨init, last, rfl, -⟩, -⟩ := h
  cases init with
  | nil => exact ⟨last, [], rfl, (hof last (by simp)).rtype, (hof last (by simp)).requestId⟩
  | cons r init => exact ⟨r, _, rfl, (hof r (by simp)).rtype, (hof r (by simp)).requestId⟩

theorem read_word {item : FCGIType} {rs : List WireRecord} (h : item.Word rs)
    (rest : List WireRecord) : read (rs ++ rest) = some (item, rest) := by
  cases item with
  | beginRequest requestId role flags =>
    obtain rfl : rs = [_] := h
    have hread : readBegin (FCGIWriter.beginRecord requestId role flags).content =
        some (role, flags) := by
      rw [readBegin, FCGIWriter.beginRecord, getU16_beU16]
      simp only [FastCGIRole.ofU16_toU16]
      rfl
    rw [List.singleton_append, read]
    simp only [show (FCGIWriter.beginRecord requestId role flags).rtype = .beginRequest from rfl,
      hread, Option.map_some]
    rfl
  | abortRequest requestId =>
    obtain rfl : rs = [_] := h
    rfl
  | endRequest requestId app proto =>
    obtain rfl : rs = [_] := h
    have hread : readEnd (FCGIWriter.endRecord requestId app proto).content = some (app, proto) := by
      rw [readEnd, FCGIWriter.endRecord, getU32_beU32]
    rw [List.singleton_append, read]
    simp only [show (FCGIWriter.endRecord requestId app proto).rtype = .endRequest from rfl, hread,
      Option.map_some]
    rfl
  | params requestId p =>
    obtain ⟨r, rs', rfl, hr, hid⟩ := finished_cons h.2
    rw [List.cons_append, read, hr, hid]
    simp only
    rw [← List.cons_append, readPairs_finished h.1 h.2]
    rfl
  | getValues p =>
    obtain ⟨r, rs', rfl, hr, hid⟩ := finished_cons h.2
    rw [List.cons_append, read, hr]
    simp only
    rw [← List.cons_append, readPairs_finished h.1 h.2]
    rfl
  | getValuesResult p =>
    obtain ⟨r, rs', rfl, hr, hid⟩ := finished_cons h.2
    rw [List.cons_append, read, hr]
    simp only
    rw [← List.cons_append, readPairs_finished h.1 h.2]
    rfl
  | _ =>
    have hfin := h
    obtain ⟨r, rs', rfl, hr, hid⟩ := finished_cons h
    rw [List.cons_append, read, hr, hid]
    simp only
    rw [← List.cons_append, readStream_finished hfin]
    rfl

/-- Items, as a format over records. -/
def format : Format FCGIType WireRecord where
  Word := Word
  decode := read
  decode_word := read_word
  decode_lt := read_lt

end FCGIType

/-! ## Records as a code -/

namespace WireRecord

theorem content_bound (rest : Bytes) (n : UInt16) : (rest.take n.toNat).length ≤ 0xffff :=
  (List.length_take_le _ _).trans (Nat.lt_succ_iff.mp n.toNat_lt)

theorem padding_bound (rest : Bytes) (n : UInt8) : (rest.take n.toNat).length ≤ 0xff :=
  (List.length_take_le _ _).trans (Nat.lt_succ_iff.mp n.toNat_lt)

/-- The record at the start of `d`. -/
def decode (d : Bytes) : Option (WireRecord × Bytes) :=
  match Header.parse d with
  | .error _ => none
  | .ok (h, rest) =>
    if h.contentLength.toNat + h.paddingLength.toNat ≤ rest.length then
      some ({
        version := h.version
        rtype := h.rtype
        requestId := h.requestId
        reserved := d.getD 7 0
        content := rest.take h.contentLength.toNat
        padding := (rest.drop h.contentLength.toNat).take h.paddingLength.toNat
        content_le := content_bound rest h.contentLength
        padding_le := padding_bound (rest.drop h.contentLength.toNat) h.paddingLength
        }, rest.drop (h.contentLength.toNat + h.paddingLength.toNat))
    else none

theorem decode_encode (r : WireRecord) (rest : Bytes) :
    decode (r.encode ++ rest) = some (r, rest) := by
  have hparse : Header.parse (r.encode ++ rest) =
      .ok (r.header, r.content ++ (r.padding ++ rest)) := by
    rw [encode, List.append_assoc, parse_headerBytes, List.append_assoc]
  have hreserved : (r.encode ++ rest).getD 7 0 = r.reserved := rfl
  have hbehind : (r.content ++ (r.padding ++ rest)).drop (r.content.length + r.padding.length) =
      rest := by
    rw [← List.drop_drop, List.drop_left, List.drop_left]
  rw [decode, hparse]
  simp only [toNat_contentLength, toNat_paddingLength, hreserved, List.take_left, List.drop_left,
    hbehind]
  exact if_pos (by simp)

theorem decode_lt {d rest : Bytes} {r : WireRecord} (h : decode d = some (r, rest)) :
    rest.length < d.length := by
  unfold decode at h
  split at h
  · cases h
  · rename_i hparse
    split at h
    · obtain ⟨-, rfl⟩ := Prod.mk.inj (Option.some.inj h)
      have hlt := (RecordReader.parse_consumes hparse).2
      rw [List.length_drop]
      omega
    · cases h

/-- Records, as a code. -/
def code : Code WireRecord UInt8 where
  Valid _ := True
  encode := encode
  decode := decode
  decode_encode _ := decode_encode _
  decode_lt := decode_lt

end WireRecord

/-- The items in `bytes`. -/
def FCGIType.ofBytes (bytes : Bytes) : Option (List FCGIType) :=
  (WireRecord.code.decodeAll bytes).bind FCGIType.format.decodeAll

theorem FCGIType.ofBytes_words {items : List FCGIType} {words : List (List WireRecord)}
    (h : List.Forall₂ FCGIType.Word items words) :
    FCGIType.ofBytes (WireRecord.encodeAll words.flatten) = some items := by
  have hrecords : WireRecord.code.decodeAll (WireRecord.encodeAll words.flatten) =
      some words.flatten := Code.decodeAll_encodeAll fun _ _ => trivial
  have hitems : FCGIType.format.decodeAll words.flatten = some items := Format.decodeAll_flatten h
  rw [ofBytes, hrecords, Option.bind_some, hitems]

/-! ## What is sent -/

namespace FCGIWriter

/-- `encode` for one item after the other, to the first error. -/
def encodeItems (A : Allocator) (self : FCGIWriter) :
    List FCGIType → Except Fault (Except IoError Unit × FCGIWriter)
  | [] => .ok (.ok (), self)
  | item :: items => do
    match ← self.encode A item with
    | (.error e, self) => .ok (.error e, self)
    | (.ok (), self) => encodeItems A self items

variable {A : Allocator} {w : FCGIWriter}

theorem encode_endRequest (w : FCGIWriter) (requestId : UInt16) (appStatus : UInt32)
    (protoStatus : UInt8) : w.encode A (.endRequest requestId appStatus protoStatus) =
      .ok (w.writeWholeBuf (endRecord requestId appStatus protoStatus).encode) := by
  simp only [encode, BytesMut.put_bytes, Header.writeInto_bytes, BytesMut.withCapacity_bytes,
    List.nil_append, List.append_assoc]
  rfl

end FCGIWriter

/-- The buffer is large enough for the item, and the format has code words for its pairs. -/
def FCGIType.Fits (A : Allocator) : FCGIType → Prop
  | .params _ p | .getValues p | .getValuesResult p => CanAdd p
  | .stdin _ d | .stdout _ d | .stderr _ d | .data _ d => FCGIWriter.Suffices A [d.length]
  | _ => True

namespace FCGIWriter

variable {A : Allocator} {w : FCGIWriter}

/-- `end_stream` writes what is missing of the stream. -/
theorem Buffered.endStream (A : Allocator) {rtype : RecordType} {requestId : UInt16}
    {rs : List WireRecord} {buf : BytesMut} {stream : Bytes}
    (h : Buffered rtype requestId rs buf stream) :
    ∃ rs', Writes (fun w => w.endStream A buf requestId rtype) (WireRecord.encodeAll rs')
        (.ok (.ok ())) ∧ Finished rtype requestId stream (rs ++ rs') := by
  obtain ⟨rs', stop, hwrites, hfull, hstream, hstop, hnil⟩ := endStream_writes A h
  refine ⟨rs' ++ [stop], hwrites, ⟨fun r hr => ?_, ⟨rs ++ rs', stop, ?_, hnil, fun r hr =>
    (hfull r hr).2⟩, ?_⟩⟩
  · rw [← List.append_assoc] at hr
    rcases List.mem_append.mp hr with hr | hr
    · exact (hfull r hr).1
    · rw [List.mem_singleton.mp hr]
      exact hstop
  · rw [List.append_assoc]
  · rw [← List.append_assoc, List.map_append, List.flatten_append, hstream]
    simp [hnil]

/-- `encode_kvp` of pairs that can be added. -/
theorem encodeKvp_writes (hA : A.Exact) (requestId : UInt16) (rtype : RecordType)
    {ps : List NameValuePair} (h : CanAdd ps) :
    ∃ rs, Writes (fun w => w.encodeKvp A requestId rtype ps) (WireRecord.encodeAll rs)
        (.ok (.ok ())) ∧ Finished rtype requestId (NameValuePair.code.encodeAll ps) rs := by
  obtain ⟨buf, hkvw, hbuf⟩ := exists_kvStream A requestId rtype
  obtain ⟨rs₀, kvw₀, -, -, hwrites₀⟩ := extend_canAdd hA h hkvw hbuf
  obtain ⟨w₀, hr₀, -⟩ := hwrites₀.of_accepting oneByOne_accepting
  obtain ⟨rs, -, ⟨f, -, hwrites⟩ | ⟨kvw, hwrites, hty, hid, hbuf'⟩⟩ :=
    extend_extends (A := A) ps ps (List.Subset.refl ps) ⟨requestId, rtype, buf⟩ hbuf
  · obtain ⟨w, hr, -⟩ := hwrites.of_accepting oneByOne_accepting
    rw [hr₀] at hr
    cases hr
  · obtain ⟨rs', hend, hfin⟩ := hbuf'.endStream A
    rw [List.nil_append, List.nil_append] at hfin
    refine ⟨rs ++ rs', ?_, hfin⟩
    rw [WireRecord.encodeAll_append]
    refine hwrites.seq hend (fun w w' hw => ?_) (fun w e w' hw => ?_)
    · rw [encodeKvp, hkvw, ok_bind, hw]
      simp only [Except.map, ok_bind, flush, hty, hid]
    · rw [encodeKvp, hkvw, ok_bind, hw, ok_bind]

/-- `encode_data` with a large enough buffer. -/
theorem encodeData_writes (requestId : UInt16) (rtype : RecordType) {d : Bytes}
    (h : Suffices A [d.length]) :
    ∃ rs, Writes (fun w => w.encodeData A requestId rtype d) (WireRecord.encodeAll rs)
        (.ok (.ok ())) ∧ Finished rtype requestId d rs := by
  obtain ⟨buf, hbuf⟩ := exists_buf A
  have hstart : Buffered rtype requestId [] buf [] := buffered_start hbuf rtype requestId
  obtain ⟨rs, -, hwrites | ⟨buf', hwrites, hbuf'⟩⟩ := appendToStream_writes (A := A) d hstart
  · obtain ⟨w, hr, -⟩ := hwrites.of_accepting oneByOne_accepting
    have hok : ∃ w' rs', oneByOne.encodeData A requestId rtype d = .ok (.ok (), w') ∧
        w'.io.sent = oneByOne.io.sent ++ WireRecord.encodeAll rs' ∧
        Finished rtype requestId d rs' := encodeData_finished oneByOne_accepting d h
    obtain ⟨w', rs', hr', -⟩ := hok
    rw [encodeData, hbuf, ok_bind, hr] at hr'
    cases hr'
  · obtain ⟨rs', hend, hfin⟩ := hbuf'.endStream A
    rw [List.nil_append, List.nil_append] at hfin
    refine ⟨rs ++ rs', ?_, hfin⟩
    rw [WireRecord.encodeAll_append]
    refine hwrites.seq hend (fun w w' hw => ?_) (fun w e w' hw => ?_)
    · rw [encodeData, hbuf, ok_bind, hw]
      rfl
    · rw [encodeData, hbuf, ok_bind, hw, ok_bind]

theorem Writes.record {op : FCGIWriter → Except Fault (Except IoError Unit × FCGIWriter)}
    {r : WireRecord} (h : ∀ w, op w = .ok (w.writeWholeBuf r.encode)) :
    Writes op (WireRecord.encodeAll [r]) (.ok (.ok ())) := by
  have hone : WireRecord.encodeAll [r] = r.encode := by
    rw [WireRecord.encodeAll_cons, WireRecord.encodeAll_nil, List.append_nil]
  rw [hone, funext h]
  exact .whole _

/-- **One item**, on any transport. -/
theorem encode_word (hA : A.Exact) {item : FCGIType} (h : item.Fits A) :
    ∃ rs, Writes (fun w => w.encode A item) (WireRecord.encodeAll rs) (.ok (.ok ())) ∧
      item.Word rs := by
  cases item with
  | beginRequest requestId role flags =>
    exact ⟨_, .record fun w => encode_beginRequest w role flags, rfl⟩
  | abortRequest requestId => exact ⟨_, .record encode_abortRequest, rfl⟩
  | endRequest requestId app proto =>
    exact ⟨_, .record fun w => encode_endRequest w requestId app proto, rfl⟩
  | params requestId p =>
    obtain ⟨rs, hwrites, hfin⟩ := encodeKvp_writes hA requestId .params h
    exact ⟨rs, hwrites, h.encodable, hfin⟩
  | getValues p =>
    obtain ⟨rs, hwrites, hfin⟩ := encodeKvp_writes hA mgmtRequestId .getValues h
    exact ⟨rs, hwrites, h.encodable, hfin⟩
  | getValuesResult p =>
    obtain ⟨rs, hwrites, hfin⟩ := encodeKvp_writes hA mgmtRequestId .getValuesResult h
    exact ⟨rs, hwrites, h.encodable, hfin⟩
  | stdin requestId d => exact encodeData_writes requestId .stdIn h
  | stdout requestId d => exact encodeData_writes requestId .stdOut h
  | stderr requestId d => exact encodeData_writes requestId .stdErr h
  | data requestId d => exact encodeData_writes requestId .data h

/-- One item after the other. -/
theorem encodeItems_words (hA : A.Exact) {items : List FCGIType} (h : ∀ item ∈ items, item.Fits A) :
    ∃ words, List.Forall₂ FCGIType.Word items words ∧
      Writes (fun w => w.encodeItems A items) (WireRecord.encodeAll words.flatten)
        (.ok (.ok ())) := by
  induction items with
  | nil => exact ⟨[], .nil, .nothing fun _ => rfl⟩
  | cons item items ih =>
    obtain ⟨rs, hwrites, hword⟩ := encode_word hA (h item List.mem_cons_self)
    obtain ⟨words, hwords, hrest⟩ := ih fun i hi => h i (List.mem_cons_of_mem _ hi)
    refine ⟨rs :: words, .cons hword hwords, ?_⟩
    rw [List.flatten_cons, WireRecord.encodeAll_append]
    refine hwrites.seq hrest (fun w w' hw => ?_) (fun w e w' hw => ?_)
    · rw [encodeItems, hw]
      rfl
    · rw [encodeItems, hw, ok_bind]

/-- **What is encoded is read back.** Items of all types, in any order, with a buffer that is large
enough: whatever the transport does, `encode` for one after the other sends bytes that are read as
exactly these items, or a part of these bytes and then reports the error of the transport. -/
theorem encodeItems_readBack (hA : A.Exact) {items : List FCGIType}
    (h : ∀ item ∈ items, item.Fits A) :
    ∃ bytes, FCGIType.ofBytes bytes = some items ∧
      Writes (fun w => w.encodeItems A items) bytes (.ok (.ok ())) := by
  obtain ⟨words, hwords, hwrites⟩ := encodeItems_words hA h
  exact ⟨_, FCGIType.ofBytes_words hwords, hwrites⟩

/-- A request, and a part of the answer to another. -/
def requestItems : List FCGIType :=
  [.beginRequest 1 .responder keepConn, .params 1 threePairs, .stdin 1 [1, 2, 3],
    .stderr 2 [], .endRequest 2 0 0]

theorem requestItems_fits : ∀ item ∈ requestItems, item.Fits zeroed := by
  intro item hitem
  simp only [requestItems, List.mem_cons, List.not_mem_nil, or_false] at hitem
  rcases hitem with rfl | rfl | rfl | rfl | rfl
  · trivial
  · refine ⟨fun p hp => ?_, by decide⟩
    simp only [threePairs, List.mem_cons, List.not_mem_nil, or_false] at hp
    rcases hp with rfl | rfl | rfl <;> exact ⟨by decide, by decide⟩
  · exact suffices_of_le zeroed (by decide)
  · exact suffices_of_le zeroed (by decide)
  · trivial

theorem encodeItems_readBack_request :
    ∃ bytes, FCGIType.ofBytes bytes = some requestItems ∧
      Writes (fun w => w.encodeItems zeroed requestItems) bytes (.ok (.ok ())) :=
  encodeItems_readBack zeroed_exact requestItems_fits

end FCGIWriter

end AsyncFcgi
