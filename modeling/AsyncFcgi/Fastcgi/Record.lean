import AsyncFcgi.Fastcgi.NameValue
import AsyncFcgi.Lib.Code

/-!
# Records (`src/fastcgi.rs`)

`Body` and `Record`, `Record::parse_body`, `Record::read` for whole records in memory,
the record constructors, and `Record::append`.

`WireRecord` is a record as the other side sends it: any version and reserved byte, at
most `0xffff` content bytes and at most `0xff` padding bytes of any value.

* `parse_headerBytes`: `Header::parse` reads the header of every wire record.
* `read_encode`: `Record::read` takes exactly the first record of a stream and parses
  its content, or panics as `parse_body` does.
* `append_nv`: what `append` adds to a buffer for a name-value record.
* `encodeAll_prefix`: where a stream of records is cut between two of them.
* `drain_encodeAll`: repeated `Record::read` takes a stream of records to its last byte.
-/

namespace AsyncFcgi

open Lib

/-- `BeginRequestBody` (lines 29–33). -/
structure BeginRequestBody where
  role : FastCGIRole
  flags : UInt8
  deriving DecidableEq, Repr

/-- `EndRequestBody` (lines 34–38). -/
structure EndRequestBody where
  appStatus : UInt32
  protocolStatus : ProtoStatus
  deriving DecidableEq, Repr

/-- `UnknownTypeBody` (lines 39–42). -/
structure UnknownTypeBody where
  rtype : UInt8
  deriving DecidableEq, Repr

/-- `Body` (lines 60–71). -/
inductive Body
  | beginRequest (b : BeginRequestBody)
  | endRequest (b : EndRequestBody)
  | unknownType (b : UnknownTypeBody)
  | params (nvs : NVBody)
  | stdIn (b : Bytes)
  | stdErr (b : Bytes)
  | stdOut (b : Bytes)
  | abort
  | getValues (nvs : NVBody)
  | getValuesResult (nvs : NVBody)
  deriving DecidableEq, Repr

/-- `Record` (lines 73–76). -/
structure Record where
  header : Header
  body : Body
  deriving DecidableEq, Repr

/-- `EndRequestBody::parse` (lines 667–674). -/
def EndRequestBody.parse (data : Bytes) : Except Fault EndRequestBody := do
  let (appStatus, data) ← getU32 data
  let (status, data) ← getU8 data
  let protocolStatus ← ProtoStatus.tryFrom status
  let _ ← advance data 3
  .ok { appStatus, protocolStatus }

/-- The `UnknownType` arm of `parse_body` (lines 465–469). -/
def UnknownTypeBody.parse (data : Bytes) : Except Fault UnknownTypeBody := do
  let (rtype, data) ← getU8 data
  let _ ← advance data 7
  .ok { rtype }

/-- `BeginRequestBody::write_into` (lines 658–662). -/
def BeginRequestBody.writeInto (A : Allocator) (self : BeginRequestBody) (data : BytesMut) :
    BytesMut :=
  ((data.put A (beU16 self.role.toU16)).put A [self.flags]).put A (List.replicate 5 0)

namespace Record

/-- `Record::get_request_id` (lines 432–434). -/
def getRequestId (self : Record) : UInt16 := self.header.requestId

/-- `Record::parse_body` (lines 460–475). -/
def parseBody (payload : Bytes) (ptype : RecordType) : Except Fault Body :=
  match ptype with
  | .stdOut => .ok (.stdOut payload)
  | .stdErr => .ok (.stdErr payload)
  | .endRequest => (EndRequestBody.parse payload).map .endRequest
  | .unknownType => (UnknownTypeBody.parse payload).map .unknownType
  | .getValuesResult => .ok (.getValuesResult (.fromBytes payload))
  | .getValues => .ok (.getValues (.fromBytes payload))
  | .params => .ok (.params (.fromBytes payload))
  | _ => .error .notImpl

/-- `Record::read` (lines 438–458): the record if it is complete, and what is left. -/
def read (data : Bytes) : Except Fault (Option Record × Bytes) :=
  if data.length < 8 then .ok (none, data)
  else do
    let (header, _) ← Header.parse data
    let len := header.contentLength.toNat + header.paddingLength.toNat
    if data.length < len + 8 then .ok (none, data)
    else
      let data ← advance data 8
      let body ← slice data 0 header.contentLength.toNat
      let data ← advance data len
      let body ← parseBody body header.rtype
      .ok (some { header, body }, data)

/-- `Record::append` (lines 477–510). -/
def append (A : Allocator) (self : Record) (buf : BytesMut) : Except Fault BytesMut :=
  match self.body with
  | .beginRequest brb => .ok (brb.writeInto A (self.header.writeInto A buf))
  | .params nvs | .getValues nvs | .getValuesResult nvs => do
    let buf := self.header.writeInto A buf
    let kvp ← nvs.drain
    (buf.put A kvp).advanceMut self.header.paddingLength.toNat
  | .stdIn b =>
    let buf := self.header.writeInto A buf
    if b.length = 0 then .ok buf
    else (buf.put A b).advanceMut self.header.paddingLength.toNat
  | .abort => .ok (self.header.writeInto A buf)
  | _ => .error .notImpl

end Record

/-- `BeginRequestBody::new` (lines 349–360). -/
def BeginRequestBody.new (role : FastCGIRole) (flags : UInt8) (requestId : UInt16) : Record where
  header :=
    { version := Header.version1, rtype := .beginRequest, requestId, contentLength := 8,
      paddingLength := 0 }
  body := .beginRequest { role, flags }

/-- `STDINBody::new` (lines 293–301): the record, and what remains of the buffer. -/
def STDINBody.new (requestId : UInt16) (b : Bytes) : Record × Bytes :=
  let recData := b.take maxLength
  ({ header := Header.new .stdIn requestId (UInt16.ofNat recData.length), body := .stdIn recData },
    b.drop maxLength)

/-- `NVBody::to_record` (lines 519–539). -/
def NVBody.toRecord (self : NVBody) (rtype : RecordType) (requestId : UInt16) :
    Except Fault Record := do
  let body ← match rtype with
    | .params => .ok (Body.params self)
    | .getValues => .ok (Body.getValues self)
    | .getValuesResult => .ok (Body.getValuesResult self)
    | _ => .error .noValidType
  .ok
    { header :=
        { version := Header.version1, rtype, requestId, contentLength := self.len,
          paddingLength := Header.padFor self.len }
      body }

/-- The types whose body is a list of name-value pairs. -/
def RecordType.IsNV (rtype : RecordType) : Prop :=
  rtype = .params ∨ rtype = .getValues ∨ rtype = .getValuesResult

instance (rtype : RecordType) : Decidable rtype.IsNV := by
  unfold RecordType.IsNV; infer_instance

/-- The body of a record of a name-value type. -/
def Body.nv? : Body → Option NVBody
  | .params nvs | .getValues nvs | .getValuesResult nvs => some nvs
  | _ => none

/-! ## Records on the wire -/

/-- No content and no padding are within their bounds, and so is the body of an END_REQUEST. -/
theorem noContent_le : ([] : Bytes).length ≤ 0xffff := Nat.zero_le _

theorem noPadding_le : ([] : Bytes).length ≤ 0xff := Nat.zero_le _

theorem endBody_le : ([0, 0, 0, 0, 0, 0, 0, 0] : Bytes).length ≤ 0xffff := by decide

/-- A record as the other side sends it. -/
structure WireRecord where
  version : UInt8
  rtype : RecordType
  requestId : UInt16
  reserved : UInt8
  content : Bytes
  padding : Bytes
  content_le : content.length ≤ 0xffff
  padding_le : padding.length ≤ 0xff
  deriving DecidableEq, Repr

namespace WireRecord

/-- The header of the record. -/
def header (r : WireRecord) : Header where
  version := r.version
  rtype := r.rtype
  requestId := r.requestId
  contentLength := UInt16.ofNat r.content.length
  paddingLength := UInt8.ofNat r.padding.length

/-- The eight header bytes. -/
def headerBytes (r : WireRecord) : Bytes :=
  [r.version, r.rtype.toU8] ++ beU16 r.requestId ++ beU16 (UInt16.ofNat r.content.length) ++
    [UInt8.ofNat r.padding.length, r.reserved]

/-- The bytes of the record. -/
def encode (r : WireRecord) : Bytes := r.headerBytes ++ (r.content ++ r.padding)

/-- The bytes of a stream of records. -/
def encodeAll (rs : List WireRecord) : Bytes := (rs.map encode).flatten

@[simp] theorem length_headerBytes (r : WireRecord) : r.headerBytes.length = 8 := rfl

@[simp] theorem length_encode (r : WireRecord) :
    r.encode.length = 8 + r.content.length + r.padding.length := by
  simp [encode]; omega

@[simp] theorem encodeAll_nil : encodeAll [] = [] := rfl

@[simp] theorem encodeAll_cons (r : WireRecord) (rs : List WireRecord) :
    encodeAll (r :: rs) = r.encode ++ encodeAll rs := rfl

@[simp] theorem encodeAll_append (rs rs' : List WireRecord) :
    encodeAll (rs ++ rs') = encodeAll rs ++ encodeAll rs' := by
  simp [encodeAll]

theorem encodeAll_eq_nil {rs : List WireRecord} (h : encodeAll rs = []) : rs = [] := by
  cases rs with
  | nil => rfl
  | cons r rs => simp [encode, headerBytes] at h

@[simp] theorem header_rtype (r : WireRecord) : r.header.rtype = r.rtype := rfl

@[simp] theorem header_requestId (r : WireRecord) : r.header.requestId = r.requestId := rfl

@[simp] theorem toNat_contentLength (r : WireRecord) :
    r.header.contentLength.toNat = r.content.length := by
  have := r.content_le
  rw [header, UInt16.toNat_ofNat']
  omega

@[simp] theorem toNat_paddingLength (r : WireRecord) :
    r.header.paddingLength.toNat = r.padding.length := by
  have := r.padding_le
  rw [header, UInt8.toNat_ofNat']
  omega

theorem parse_headerBytes (r : WireRecord) (rest : Bytes) :
    Header.parse (r.headerBytes ++ rest) = .ok (r.header, rest) :=
  Header.parse_cons r.header r.reserved rest

/-- `Record::read` at the start of a record: exactly that record, with its content
parsed by `parse_body`. -/
theorem read_encode (r : WireRecord) (rest : Bytes) :
    Record.read (r.encode ++ rest) =
      (Record.parseBody r.content r.rtype).map
        fun body => (some { header := r.header, body }, rest) := by
  have hparse : Header.parse (r.encode ++ rest) =
      .ok (r.header, r.content ++ (r.padding ++ rest)) := by
    rw [encode, List.append_assoc, parse_headerBytes, List.append_assoc]
  have hadv : advance (r.encode ++ rest) 8 = .ok (r.content ++ (r.padding ++ rest)) := by
    rw [encode, List.append_assoc, List.append_assoc]
    exact advance_append r.headerBytes _
  have hbody : slice (r.content ++ (r.padding ++ rest)) 0 r.content.length = .ok r.content := by
    rw [slice_of_le (by simp), List.take_left]
  have hadv' : advance (r.content ++ (r.padding ++ rest)) (r.content.length + r.padding.length) =
      .ok rest := by
    rw [← List.append_assoc, ← List.length_append]
    exact advance_append _ rest
  rw [Record.read, if_neg (by simp; omega), hparse, ok_bind]
  simp only [toNat_contentLength, toNat_paddingLength, header_rtype]
  rw [if_neg (by simp; omega), hadv, ok_bind, hbody, ok_bind, hadv', ok_bind]
  cases Record.parseBody r.content r.rtype <;> rfl

/-- With less than the whole record at hand, `Record::read` takes nothing. -/
theorem read_short (r : WireRecord) {data : Bytes} (hpre : data <+: r.encode)
    (hlt : data.length < r.encode.length) : Record.read data = .ok (none, data) := by
  rw [Record.read]
  by_cases h8 : data.length < 8
  · rw [if_pos h8]
  · obtain ⟨tail, htail⟩ := hpre
    obtain ⟨body, rfl, -⟩ := split_of_append_eq htail.symm (show 8 ≤ data.length by omega)
    rw [if_neg h8, parse_headerBytes, ok_bind]
    simp only [toNat_contentLength, toNat_paddingLength]
    rw [if_pos]
    rw [length_encode] at hlt
    omega

/-! ### Where records end -/

theorem headerBytes_inj {r r' : WireRecord} (h : r.headerBytes = r'.headerBytes) :
    r.header = r'.header ∧ r.reserved = r'.reserved := by
  have hparse := parse_headerBytes r []
  rw [h, parse_headerBytes r' []] at hparse
  have hlast := congrArg (fun d => d[7]?) h
  exact ⟨(Prod.mk.inj (Except.ok.inj hparse)).1.symm, Option.some.inj hlast⟩

theorem selfDelimiting : SelfDelimiting encode where
  ne_nil r h := by simpa using congrArg List.length h
  inj {r r' s t} h := by
    simp only [encode, List.append_assoc] at h
    obtain ⟨hheader, hrest⟩ := List.append_inj h rfl
    obtain ⟨hhead, hreserved⟩ := headerBytes_inj hheader
    have hlen : r.content.length = r'.content.length := by
      rw [← toNat_contentLength, hhead, toNat_contentLength]
    have hpad : r.padding.length = r'.padding.length := by
      rw [← toNat_paddingLength, hhead, toNat_paddingLength]
    obtain ⟨hcontent, hrest⟩ := List.append_inj hrest hlen
    obtain ⟨hpadding, hst⟩ := List.append_inj hrest hpad
    have hversion : r.version = r'.version := congrArg Header.version hhead
    have hrtype : r.rtype = r'.rtype := congrArg Header.rtype hhead
    have hid : r.requestId = r'.requestId := congrArg Header.requestId hhead
    refine ⟨?_, hst⟩
    cases r
    cases r'
    cases hversion
    cases hrtype
    cases hid
    cases hreserved
    cases hcontent
    cases hpadding
    rfl

/-- A stream that is cut between two records is cut behind some of them. -/
theorem encodeAll_prefix {rs rs' : List WireRecord} (h : encodeAll rs <+: encodeAll rs') :
    rs <+: rs' :=
  prefix_of_flatten_prefix selfDelimiting h

theorem encodeAll_inj {rs rs' : List WireRecord} (h : encodeAll rs = encodeAll rs') : rs = rs' := by
  have hpre : rs <+: rs' := encodeAll_prefix (h ▸ List.prefix_rfl)
  have hpre' : rs' <+: rs := encodeAll_prefix (h ▸ List.prefix_rfl)
  exact hpre.eq_of_length (le_antisymm hpre.length_le hpre'.length_le)

/-- A header in a stream is that of the next record. -/
theorem header_prefix {pre rs : List WireRecord} {r : WireRecord}
    (h : encodeAll pre ++ r.headerBytes <+: encodeAll rs) :
    ∃ x, pre ++ [x] <+: rs ∧ x.rtype = r.rtype ∧ x.requestId = r.requestId := by
  obtain ⟨post, rfl⟩ := encodeAll_prefix ((List.prefix_append _ _).trans h)
  rw [encodeAll_append, List.prefix_append_right_inj] at h
  cases post with
  | nil => simpa using h.length_le
  | cons x post =>
    rw [encodeAll_cons, encode, List.append_assoc] at h
    have hbytes : r.headerBytes = x.headerBytes :=
      (List.prefix_of_prefix_length_le h (List.prefix_append _ _) (by simp)).eq_of_length (by simp)
    obtain ⟨hhead, -⟩ := headerBytes_inj hbytes
    refine ⟨x, ?_, congrArg Header.rtype hhead.symm, congrArg Header.requestId hhead.symm⟩
    exact ⟨post, by simp⟩

end WireRecord

namespace Record

theorem parseBody_nv {rtype : RecordType} (h : rtype.IsNV) (payload : Bytes) :
    ∃ body, parseBody payload rtype = .ok body ∧ body.nv? = some (.fromBytes payload) := by
  rcases h with rfl | rfl | rfl
  · exact ⟨_, rfl, rfl⟩
  · exact ⟨_, rfl, rfl⟩
  · exact ⟨_, rfl, rfl⟩

/-- `append` of a name-value record: header, pairs, and padding bytes that were in the
spare memory. -/
theorem append_nv (A : Allocator) (r : Record) {nvs : NVBody} (hnv : r.body.nv? = some nvs)
    {kvp : Bytes} (hd : nvs.drain = .ok kvp) (buf : BytesMut) :
    r.append A buf =
      ((r.header.writeInto A buf).put A kvp).advanceMut r.header.paddingLength.toNat := by
  unfold append
  cases hb : r.body <;> simp only [hb, Body.nv?, Option.some.injEq, reduceCtorEq] at hnv
  all_goals subst hnv; simp only [hd, ok_bind]

/-! ## Repeated `Record::read` -/

theorem read_lt {data rest : Bytes} {r : Record} (h : read data = .ok (some r, rest)) :
    rest.length < data.length := by
  unfold read at h
  split at h
  · cases h
  · obtain ⟨⟨header, _⟩, -, h⟩ := bind_eq_ok.mp h
    simp only at h
    split at h
    · cases h
    · obtain ⟨d₁, h₁, h⟩ := bind_eq_ok.mp h
      obtain ⟨_, -, h⟩ := bind_eq_ok.mp h
      obtain ⟨d₂, h₂, h⟩ := bind_eq_ok.mp h
      obtain ⟨_, -, h⟩ := bind_eq_ok.mp h
      simp only [Except.ok.injEq, Prod.mk.injEq] at h
      rw [← h.2]
      have := (advance_consumes h₁).2
      have := (advance_consumes h₂).2
      omega

/-- `Record::read` as an incremental reader; it keeps nothing between two calls. -/
def incremental : Incremental Fault Unit UInt8 Record where
  read _ data := (read data).map fun x => (x.1, (), x.2)
  size _ data := data.length
  size_lt {_ data r _ rest} h := by
    cases hr : read data with
    | error e => rw [hr] at h; cases h
    | ok x =>
      rw [hr] at h
      simp only [Except.map, Except.ok.injEq, Prod.mk.injEq] at h
      obtain ⟨o, rest'⟩ := x
      obtain ⟨rfl, -, rfl⟩ := h
      exact read_lt hr

/-- A stream of records that `parse_body` accepts, and then less than a header. -/
theorem drain_encodeAll (rs : List WireRecord) (body : WireRecord → Body)
    (hbody : ∀ r ∈ rs, parseBody r.content r.rtype = .ok (body r)) {tail : Bytes}
    (htail : tail.length < 8) :
    incremental.drain () (WireRecord.encodeAll rs ++ tail) =
      .ok (rs.map fun r => { header := r.header, body := body r }, (), tail) := by
  induction rs with
  | nil =>
    refine Incremental.drain_none (I := incremental) ?_
    show (read tail).map _ = _
    rw [read, if_pos htail]
    rfl
  | cons r rs ih =>
    have hread : incremental.read () (WireRecord.encodeAll (r :: rs) ++ tail) =
        .ok (some { header := r.header, body := body r }, (),
          WireRecord.encodeAll rs ++ tail) := by
      show (read _).map _ = _
      rw [WireRecord.encodeAll_cons, List.append_assoc, WireRecord.read_encode,
        hbody r List.mem_cons_self]
      rfl
    rw [Incremental.drain_some (I := incremental) hread,
      ih fun r' hr' => hbody r' (List.mem_cons_of_mem _ hr')]
    rfl

end Record

end AsyncFcgi
