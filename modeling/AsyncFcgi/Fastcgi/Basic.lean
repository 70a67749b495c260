import AsyncFcgi.Bufvec

/-!
# Record types and the record header (`src/fastcgi.rs`)

`RecordType`, `ProtoStatus` and `FastCGIRole` with their wire values, and the eight
byte `Header`: `Header::new`, `write_into` and `parse`.

* `tryFrom_toU8`: `RecordType::try_from` inverts the wire value.
* `parse_toBytes`: `Header::parse` reads back what `write_into` wrote.
* `new_aligned`: content and padding of a new header add up to a multiple of 8.
-/

namespace AsyncFcgi

open Lib

/-- `RecordType` (lines 104–130). -/
inductive RecordType
  | beginRequest
  | abortRequest
  | endRequest
  | params
  | stdIn
  | stdOut
  | stdErr
  | data
  | getValues
  | getValuesResult
  | unknownType
  deriving DecidableEq, Repr

/-- `rtype as u8`. -/
def RecordType.toU8 : RecordType → UInt8
  | .beginRequest => 1
  | .abortRequest => 2
  | .endRequest => 3
  | .params => 4
  | .stdIn => 5
  | .stdOut => 6
  | .stdErr => 7
  | .data => 8
  | .getValues => 9
  | .getValuesResult => 10
  | .unknownType => 11

/-- `TryFrom<u8> for RecordType` (lines 131–150); the callers `expect` a result. -/
def RecordType.tryFrom (value : UInt8) : Except Fault RecordType :=
  match value.toNat with
  | 1 => .ok .beginRequest
  | 2 => .ok .abortRequest
  | 3 => .ok .endRequest
  | 4 => .ok .params
  | 5 => .ok .stdIn
  | 6 => .ok .stdOut
  | 7 => .ok .stdErr
  | 8 => .ok .data
  | 9 => .ok .getValues
  | 10 => .ok .getValuesResult
  | 11 => .ok .unknownType
  | _ => .error (.notAFcgiType value)

@[simp] theorem RecordType.tryFrom_toU8 (rtype : RecordType) :
    RecordType.tryFrom rtype.toU8 = .ok rtype := by
  cases rtype <;> rfl

/-- `ProtoStatus` (lines 185–194). -/
inductive ProtoStatus
  | complete
  | cantMpxCon
  | overloaded
  | unknownRole
  deriving DecidableEq, Repr

/-- `TryFrom<u8> for ProtoStatus` (lines 195–206). -/
def ProtoStatus.tryFrom (value : UInt8) : Except Fault ProtoStatus :=
  match value.toNat with
  | 0 => .ok .complete
  | 1 => .ok .cantMpxCon
  | 2 => .ok .overloaded
  | 3 => .ok .unknownRole
  | _ => .error (.notAFcgiStatus value)

/-- `FastCGIRole` (lines 176–182). -/
inductive FastCGIRole
  | responder
  | authorizer
  | filter
  deriving DecidableEq, Repr

/-- `role as u16`. -/
def FastCGIRole.toU16 : FastCGIRole → UInt16
  | .responder => 1
  | .authorizer => 2
  | .filter => 3

/-- `Body::MAX_LENGTH` (line 83). -/
def maxLength : ℕ := 0xffff

/-- `Record::MGMT_REQUEST_ID` (line 99). -/
def mgmtRequestId : UInt16 := 0

/-- `BeginRequestBody::KEEP_CONN` (line 172). -/
def keepConn : UInt8 := 1

/-! ## `Header` -/

/-- `Header` (lines 21–28). -/
structure Header where
  version : UInt8
  rtype : RecordType
  requestId : UInt16
  contentLength : UInt16
  paddingLength : UInt8
  deriving DecidableEq, Repr

namespace Header

/-- `Header::HEADER_LEN` (line 91). -/
def headerLen : ℕ := 8

/-- `Header::VERSION_1` (line 94). -/
def version1 : UInt8 := 1

/-- The padding computed by `Header::new` and `NVBody::to_record`. -/
def padFor (len : UInt16) : UInt8 :=
  let pad := UInt8.ofNat (len.toNat % 8)
  if pad ≠ 0 then 8 - pad else pad

/-- `Header::new` (lines 305–317). -/
def new (rtype : RecordType) (requestId : UInt16) (len : UInt16) : Header where
  version := version1
  rtype := rtype
  requestId := requestId
  contentLength := len
  paddingLength := padFor len

/-- `Header::get_padding` (lines 340–342). -/
def getPadding (self : Header) : UInt8 := self.paddingLength

/-- The bytes put by `Header::write_into` (lines 318–326). -/
def toBytes (self : Header) : Bytes :=
  [self.version, self.rtype.toU8] ++ beU16 self.requestId ++ beU16 self.contentLength ++
    [self.paddingLength, 0]

/-- `Header::write_into` (lines 318–326), into a growable buffer. -/
def writeInto (A : Allocator) (self : Header) (data : BytesMut) : BytesMut :=
  (((((data.put A [self.version]).put A [self.rtype.toU8]).put A (beU16 self.requestId)).put A
    (beU16 self.contentLength)).put A [self.paddingLength]).put A [0]

/-- `Header::parse` (lines 328–338). -/
def parse (data : Bytes) : Except Fault (Header × Bytes) := do
  let (version, data) ← getU8 data
  let (ty, data) ← getU8 data
  let rtype ← RecordType.tryFrom ty
  let (requestId, data) ← getU16 data
  let (contentLength, data) ← getU16 data
  let (paddingLength, data) ← getU8 data
  let data ← advance data 1
  .ok ({ version, rtype, requestId, contentLength, paddingLength }, data)

@[simp] theorem length_toBytes (h : Header) : h.toBytes.length = headerLen := rfl

@[simp] theorem writeInto_bytes (A : Allocator) (h : Header) (data : BytesMut) :
    (h.writeInto A data).bytes = data.bytes ++ h.toBytes := by
  simp [writeInto, toBytes]

theorem writeInto_of_le (A : Allocator) (h : Header) {data : BytesMut}
    (hle : headerLen ≤ data.spare.length) :
    h.writeInto A data = ⟨data.bytes ++ h.toBytes, data.spare.drop headerLen⟩ := by
  have h8 : 8 ≤ data.spare.length := hle
  unfold writeInto
  simp (disch := (simp only [List.length_drop, List.length_singleton, length_beU16]; omega)) only
    [BytesMut.put_of_le]
  simp [toBytes, headerLen]

/-- `parse` reads any header with a known type byte; the reserved byte is skipped. -/
theorem parse_cons (h : Header) (reserved : UInt8) (rest : Bytes) :
    parse ([h.version, h.rtype.toU8] ++ beU16 h.requestId ++ beU16 h.contentLength ++
      [h.paddingLength, reserved] ++ rest) = .ok (h, rest) := by
  simp only [List.append_assoc, List.cons_append, List.nil_append, parse, getU8_cons, ok_bind,
    RecordType.tryFrom_toU8, getU16_beU16]
  rfl

theorem parse_toBytes (h : Header) (rest : Bytes) : parse (h.toBytes ++ rest) = .ok (h, rest) :=
  parse_cons h 0 rest

theorem toNat_padFor (len : UInt16) : (padFor len).toNat = (8 - len.toNat % 8) % 8 := by
  have hlt : len.toNat % 8 < 8 := Nat.mod_lt _ (by norm_num)
  unfold padFor
  generalize len.toNat % 8 = k at hlt
  interval_cases k <;> rfl

@[simp] theorem new_rtype (rtype : RecordType) (id len : UInt16) :
    (new rtype id len).rtype = rtype := rfl

@[simp] theorem new_requestId (rtype : RecordType) (id len : UInt16) :
    (new rtype id len).requestId = id := rfl

@[simp] theorem new_contentLength (rtype : RecordType) (id len : UInt16) :
    (new rtype id len).contentLength = len := rfl

@[simp] theorem new_paddingLength (rtype : RecordType) (id len : UInt16) :
    (new rtype id len).paddingLength = padFor len := rfl

/-- Content and padding of a new header add up to a multiple of 8. -/
theorem new_aligned (rtype : RecordType) (id len : UInt16) :
    8 ∣ (new rtype id len).contentLength.toNat + (new rtype id len).paddingLength.toNat := by
  rw [new_contentLength, new_paddingLength, toNat_padFor]
  omega

end Header

end AsyncFcgi
