import AsyncFcgi.Client.Wakeup
import AsyncFcgi.HttpParse

/-!
# Responses (`src/client/connection.rs`)

`create_response` reads frames of its own body until it has the header block, puts what is
behind it back into the buffer of the request, and hands the body over. `CreateResponse` is
where it stands between two polls, and `poll` one turn of its loop.

An awaited `lock()` gets the mutex in a turn that finds it free; its place in the queue is not
modelled.

* `poll_reading`: what a turn of the loop can do.
-/

namespace AsyncFcgi

open Lib

/-- Where `create_response` (lines 458–529) stands: in the loop over the frames of `fcgibody`
with `buf` still to be parsed, in front of the lock for `bodydata`, or at its end. -/
inductive CreateResponse
  | reading (fcgibody : FCGIBody) (buf : Option Bytes) (rheaders : HeaderMap)
  | putting (fcgibody : FCGIBody) (bodydata : Bytes) (rheaders : HeaderMap)
  | returned (fcgibody : FCGIBody) (status : ℕ) (rheaders : HeaderMap)
  deriving DecidableEq, Repr

namespace CreateResponse

/-- `create_response` before its first poll, for the request at `key` (lines 462–472). -/
def new (key : ℕ) : CreateResponse := .reading ⟨key, false, false⟩ none []

/-- The body that is read, or was handed over. -/
def fcgibody : CreateResponse → FCGIBody
  | .reading fcgibody _ _ => fcgibody
  | .putting fcgibody _ _ => fcgibody
  | .returned fcgibody _ _ => fcgibody

/-- The end of the function (lines 519–528). -/
def handOver (fcgibody : FCGIBody) (status : ℕ) (rheaders : HeaderMap) : CreateResponse :=
  .returned { fcgibody with wasReturned := true } status rheaders

/-- `"Status"`, as `HeaderMap` spells it. -/
def statusName : Bytes := [115, 116, 97, 116, 117, 115]

variable (http : Http)

/-- The status (lines 470 and 493–501). -/
def statusOf (rheaders : HeaderMap) : ℕ :=
  match rheaders.get statusName with
  | none => 200
  | some stat => if 3 ≤ stat.length then (http.statusCode (stat.take 3)).getD 200 else 200

/-- A frame in the loop (lines 475–514): `left` is the old data. -/
def receive (fcgibody : FCGIBody) (left : Option Bytes) (rheaders : HeaderMap) (b : Bytes) :
    Except Fault CreateResponse := do
  let b := left.getD [] ++ b
  match ← parse http b rheaders with
  | (.ok bodydata, rheaders) =>
    if bodydata = [] then .ok (handOver fcgibody (statusOf http rheaders) rheaders)
    else .ok (.putting fcgibody bodydata rheaders)
  | (.pending, rheaders) => .ok (.reading fcgibody (some b) rheaders)
  | (.err, rheaders) => .ok (handOver fcgibody 500 rheaders)

/-- The push of what is behind the headers, under the lock (lines 486–491). -/
def putBack (fcgibody : FCGIBody) (bodydata : Bytes) (inner : InnerConnection) :
    Except Fault InnerConnection :=
  match inner.runningRequests.get? fcgibody.rid with
  | none => .error .invalidKey
  | some mpxs =>
    .ok { inner with
      runningRequests :=
        inner.runningRequests.set fcgibody.rid { mpxs with buf := mpxs.buf.push bodydata } }

/-- One turn of `create_response` (lines 458–529). -/
def poll (self : CreateResponse) (con : Mutex InnerConnection) (sock : SocketRead) (cx : Waker) :
    Except Fault (CreateResponse × Mutex InnerConnection × Effects) :=
  match self with
  | .reading fcgibody buf rheaders => do
    let (res, fcgibody, con, eff) ← fcgibody.pollFrame con sock cx
    match res with
    | .pending => .ok (.reading fcgibody buf rheaders, con, eff)
    | .ready none => .ok (handOver fcgibody 200 rheaders, con, eff)
    | .ready (some (.error _)) => .ok (.reading fcgibody buf rheaders, con, eff)
    | .ready (some (.ok b)) => do
      let self ← receive http fcgibody buf rheaders b
      .ok (self, con, eff)
  | .putting fcgibody bodydata rheaders =>
    match con.waiters with
    | some _ => .ok (self, con, .none)
    | none => do
      let inner ← putBack fcgibody bodydata con.inner
      .ok (handOver fcgibody (statusOf http rheaders) rheaders, { con with inner }, .none)
  | .returned _ _ _ => .ok (self, con, .none)

variable {http}

/-- A turn of the loop: the body is not ready, it ended before the headers did, or gave a
frame. -/
theorem poll_reading {fcgibody : FCGIBody} {buf : Option Bytes} {rheaders : HeaderMap}
    {con con' : Mutex InnerConnection} {sock : SocketRead} {cx : Waker} {self' : CreateResponse}
    {eff : Effects}
    (h : poll http (.reading fcgibody buf rheaders) con sock cx = .ok (self', con', eff)) :
    ∃ res fcgibody', fcgibody.pollFrame con sock cx = .ok (res, fcgibody', con', eff) ∧
      ((res = .pending ∧ self' = .reading fcgibody' buf rheaders) ∨
        (res = .ready none ∧ self' = handOver fcgibody' 200 rheaders) ∨
        ∃ b, res = .ready (some (.ok b)) ∧ receive http fcgibody' buf rheaders b = .ok self') := by
  rw [poll] at h
  obtain ⟨⟨res, fcgibody', con₁, eff₁⟩, hframe, h⟩ := bind_eq_ok.mp h
  rcases res with (_ | e | b) | _
  · simp only [Except.ok.injEq, Prod.mk.injEq] at h
    obtain ⟨rfl, rfl, rfl⟩ := h
    exact ⟨_, _, hframe, Or.inr (Or.inl ⟨rfl, rfl⟩)⟩
  · -- a body returns no error frames
    exfalso
    cases FCGIBody.pollFrame_framed hframe with
    | served _ _ _ hserved => cases hserved
  · obtain ⟨self₁, hreceive, h⟩ := bind_eq_ok.mp h
    simp only [Except.ok.injEq, Prod.mk.injEq] at h
    obtain ⟨rfl, rfl, rfl⟩ := h
    exact ⟨_, _, hframe, Or.inr (Or.inr ⟨b, rfl, hreceive⟩)⟩
  · simp only [Except.ok.injEq, Prod.mk.injEq] at h
    obtain ⟨rfl, rfl, rfl⟩ := h
    exact ⟨_, _, hframe, Or.inl ⟨rfl, rfl⟩⟩

/-- A frame that leads to a push: the rest behind the headers is not empty. -/
theorem receive_putting {body body' : FCGIBody} {left : Option Bytes}
    {rheaders rheaders' : HeaderMap} {b bodydata : Bytes}
    (h : receive http body left rheaders b = .ok (.putting body' bodydata rheaders')) :
    body' = body ∧ bodydata ≠ [] := by
  unfold receive at h
  obtain ⟨⟨res, _⟩, -, h⟩ := bind_eq_ok.mp h
  cases res with
  | ok rest =>
    simp only at h
    split at h
    · cases h
    · cases h
      exact ⟨rfl, ‹_›⟩
  | pending => cases h
  | err => cases h

/-- What a frame leads to while the data so far is a part of a block or goes beyond it. -/
theorem receive_cases (hs : http.PrefixStable) {block : Bytes} (hblock : http.Block block)
    {fcgibody : FCGIBody} {left : Option Bytes} {rheaders : HeaderMap} {b : Bytes}
    {self' : CreateResponse} (h : receive http fcgibody left rheaders b = .ok self')
    (hpre : left.getD [] ++ b <+: block ∨ block <+: left.getD [] ++ b) :
    (left.getD [] ++ b <+: block ∧ (left.getD [] ++ b).length < block.length ∧
        self' = .reading fcgibody (some (left.getD [] ++ b)) rheaders) ∨
      ∃ rest rheaders', left.getD [] ++ b = block ++ rest ∧
        ((rest = [] ∧ self' = handOver fcgibody (statusOf http rheaders') rheaders') ∨
          (rest ≠ [] ∧ self' = .putting fcgibody rest rheaders')) := by
  unfold receive at h
  obtain ⟨⟨res, rheaders'⟩, hparse, h⟩ := bind_eq_ok.mp h
  by_cases hlt : (left.getD [] ++ b).length < block.length
  · have hpre' : left.getD [] ++ b <+: block := by
      refine hpre.resolve_right fun hle => ?_
      have := hle.length_le
      omega
    rw [parse_short hs hblock hpre' hlt, Except.ok.injEq, Prod.mk.injEq] at hparse
    obtain ⟨rfl, rfl⟩ := hparse
    simp only [Except.ok.injEq] at h
    exact Or.inl ⟨hpre', hlt, h.symm⟩
  · have hpre' : block <+: left.getD [] ++ b := by
      refine hpre.elim (fun hle => ?_) id
      rw [hle.eq_of_length (Nat.le_antisymm hle.length_le (Nat.le_of_not_lt hlt))]
    obtain ⟨rest, hrest⟩ := hpre'
    rw [← hrest] at hparse
    obtain rfl := parse_block hs hblock hparse
    refine Or.inr ⟨rest, rheaders', hrest.symm, ?_⟩
    simp only at h
    split at h
    · rename_i hnil
      exact Or.inl ⟨hnil, (Except.ok.inj h).symm⟩
    · rename_i hne
      exact Or.inr ⟨hne, (Except.ok.inj h).symm⟩

end CreateResponse

end AsyncFcgi
