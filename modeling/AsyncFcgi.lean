import AsyncFcgi.Fastcgi.RoundTrip
import AsyncFcgi.Fastcgi.Chunking
import AsyncFcgi.Fastcgi.NvBodyList
import AsyncFcgi.Fastcgi.Append
import AsyncFcgi.Codec.StreamWriters
import AsyncFcgi.Codec.NvEncoders
import AsyncFcgi.Codec.Items
import AsyncFcgi.Codec.InMemory
import AsyncFcgi.Client.Loopback
import AsyncFcgi.Client.Ids
import AsyncFcgi.Client.Drain
import AsyncFcgi.Client.Responding
import AsyncFcgi.Client.Close
import AsyncFcgi.Client.Panics
import AsyncFcgi.Client.Answers
import AsyncFcgi.Client.Attended
import AsyncFcgi.Client.Load
import AsyncFcgi.Client.Negotiation
import AsyncFcgi.Client.RequestHead
import AsyncFcgi.Client.Framing
import AsyncFcgi.Client.OwnTransport
import AsyncFcgi.Client.Grammar
import AsyncFcgi.Client.EndOfStream
import AsyncFcgi.Client.Exchange
import AsyncFcgi.Client.Failure
import AsyncFcgi.Client.Reconnect
import AsyncFcgi.Client.CleanEnd
import AsyncFcgi.Client.ClosedLoop
import AsyncFcgi.Client.Environment
import AsyncFcgi.Client.Faults
import AsyncFcgi.Client.Isolation
import AsyncFcgi.Client.Headers
import AsyncFcgi.Client.Frames
import AsyncFcgi.Client.StoredWaker
import AsyncFcgi.Client.Buffers
import AsyncFcgi.Client.Query
import AsyncFcgi.Client.ConPool
import AsyncFcgi.Client.Delivery
import AsyncFcgi.Client.Multiplex
