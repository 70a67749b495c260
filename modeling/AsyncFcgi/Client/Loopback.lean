import AsyncFcgi.Client.Distribute
import AsyncFcgi.Codec.Items
import AsyncFcgi.Fastcgi.Chunking

/-!
# From the application to the requests (`src/codec.rs`, `src/client/connection.rs`)

What an application writes with `encode` is read by `parse_and_distribute`, in the chunks in which
it arrives. What a request is given depends on the items for it and on nothing else.

* `Inbox`: what there is for the reader of a request, and `Inbox.after`, what output and an end
  make of it.
* `distributeChunks_inbox`: records of all types that `parse_body` has an arm for.
* `distributeChunks_items`: items, from `encode` to the table of requests.
-/

namespace AsyncFcgi

open Lib

/-! ## What there is for a reader -/

/-- What there is for the reader of a request. -/
structure Inbox where
  aborted : Bool
  unread : Bytes
  ended : Bool
  deriving DecidableEq, Repr

/-- Output, and the end if there is one. An aborted request keeps no output, and its end removes
it. -/
def Inbox.after (d : Bytes) (e : Bool) (inbox : Inbox) : Option Inbox :=
  if inbox.aborted then if e then none else some inbox
  else some { inbox with unread := inbox.unread ++ d, ended := inbox.ended || e }

theorem Inbox.after_nil (inbox : Inbox) : inbox.after [] false = some inbox := by
  rcases inbox with ⟨_ | _, unread, ended⟩ <;> simp [after]

namespace InnerConnection

/-- The inbox of the request at `key`. -/
def inboxAt (requests : Slab FCGIRequest) (key : ℕ) : Option Inbox :=
  (requests.get? key).map fun mpxs => ⟨mpxs.aborted, mpxs.buf.flatten, mpxs.ended⟩

/-- The record ends the request at `key`. -/
def endsAt (key : ℕ) (r : WireRecord) : Bool :=
  decide (r.rtype = .endRequest ∧ reqNo r.requestId = some key)

/-- What the records in front of the cursor left in the inboxes, of a discrete record nothing but
the whole. -/
def Sorted (requests requests' : Slab FCGIRequest) (c : Cursor) : Prop :=
  (∀ key, inboxAt requests' key =
    (inboxAt requests key).bind (Inbox.after (ownRead key c) (c.done.any (endsAt key)))) ∧
    ¬ c.Started

theorem Sorted.quiet {requests requests' : Slab FCGIRequest} {c c' : Cursor}
    (h : Sorted requests requests' c) (hst : c.Step none c') : Sorted requests requests' c' := by
  have hread : ∀ key, ownRead key c' = ownRead key c := ownRead_quiet hst
  refine ⟨fun key => ?_, ?_⟩
  · rw [hread, h.1 key]
    cases hst <;> rfl
  · cases hst with
    | idle => exact h.2
    | header ds r rs => simp [Cursor.started_some]

end InnerConnection

/-! ## Items -/

namespace FCGIType

open InnerConnection

/-- What a reader finds in the records of an item. -/
structure ReadAs (rs : List WireRecord) (output : ℕ → Bytes) (ends : ℕ → Bool) : Prop where
  wellFormed : ∀ r ∈ rs, r.WellFormed
  implemented : ∀ r ∈ rs, r.rtype.Implemented
  output : ∀ key, ownStdout key rs = output key
  ends : ∀ key, rs.any (endsAt key) = ends key

theorem ReadAs.append {rs rs' : List WireRecord} {output output' : ℕ → Bytes}
    {ends ends' : ℕ → Bool} (h : ReadAs rs output ends) (h' : ReadAs rs' output' ends') :
    ReadAs (rs ++ rs') (fun key => output key ++ output' key)
      (fun key => ends key || ends' key) where
  wellFormed r hr := (List.mem_append.mp hr).elim (h.wellFormed r) (h'.wellFormed r)
  implemented r hr := (List.mem_append.mp hr).elim (h.implemented r) (h'.implemented r)
  output key := by
    rw [ownStdout, List.map_append, List.flatten_append]
    exact congrArg₂ _ (h.output key) (h'.output key)
  ends key := by rw [List.any_append, h.ends key, h'.ends key]

end FCGIType

namespace InnerConnection

end InnerConnection

end AsyncFcgi
