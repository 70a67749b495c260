import AsyncFcgi.Bytes

/-!
# `std::io` and `std::task`

Errors, the result of a poll, and the writing side of a transport.
-/

namespace AsyncFcgi

/-- The kinds of `std::io::Error` the crate makes or looks at. -/
inductive ErrorKind
  | notConnected
  | wouldBlock
  | invalidData
  | connectionAborted
  | other
  deriving DecidableEq, Repr

/-- `std::io::Error`. -/
structure IoError where
  kind : ErrorKind
  message : String
  deriving DecidableEq, Repr

/-- `std::task::Poll`. -/
inductive Poll (α : Type*)
  | ready (a : α)
  | pending
  deriving DecidableEq, Repr

/-- What a write of a chunk with at least one byte does: take its first `n + 1` bytes, or all
if it has fewer, or fail. -/
inductive WriteAnswer
  | accepts (n : ℕ)
  | fails (e : IoError)
  deriving DecidableEq, Repr

/-- The writing side of a transport: what it took so far, the number of writes, and what it
does with each of them. -/
structure Transport where
  sent : Bytes
  writes : ℕ
  answer : ℕ → WriteAnswer

namespace Transport

/-- A transport that was not written to. -/
def new (answer : ℕ → WriteAnswer) : Transport := ⟨[], 0, answer⟩

/-- Every write is accepted, one byte of it at least. -/
def Accepting (io : Transport) : Prop := ∀ k, ∃ n, io.answer k = .accepts n

end Transport

end AsyncFcgi
