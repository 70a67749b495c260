import AsyncFcgi.Client.Response
import AsyncFcgi.Fastcgi.RoundTrip
import AsyncFcgi.Lib.Run

/-!
# What the crate does with a `BufList` (`src/bufvec.rs` and its callers)

The two lists of the crate are `pairs` of a name-value body and `buf` of a request. `BufList` works
as a `Buf` while none of its buffers is empty, which `push` only debug-asserts, so each caller has
to look at what it pushes. `NVBody::add` does so for the value of a pair and not for its name.

* `Step`: the operations on a list, by who holds it.
* `serve_step`, `putBack_step`: `poll_frame` and `create_response` make such steps.
* `faithful_iff`: the lists are faithful all along a run if and only if no pair without a name is
  added.
-/

namespace AsyncFcgi

open Lib

/-- The list is a `Buf` of the bytes in it. -/
structure BufList.Faithful (list : BufList) : Prop where
  nonEmpty : list.NonEmpty
  chunk : 0 < list.remaining → list.chunk ≠ []
  remaining : list.remaining = list.flatten.length
  advance : ∀ n ≤ list.remaining, (list.advance n).flatten = list.flatten.drop n
  copyToBytes : ∀ len ≤ list.remaining,
    ∃ rest, list.copyToBytes len = .ok (list.flatten.take len, rest)

/-- All of it follows from the first. -/
theorem BufList.NonEmpty.faithful {self : BufList} (h : self.NonEmpty) : self.Faithful where
  nonEmpty := h
  chunk hpos := (h.chunk hpos).1
  remaining := self.remaining_eq
  advance n _ := self.flatten_advance n
  copyToBytes len hlen := by
    obtain ⟨rest, hcopy, -⟩ := copyToBytes_eq h hlen
    exact ⟨rest, hcopy⟩

/-- Who holds a list: a body, the `drain` of one, or a request. -/
inductive Holder
  | body (nv : NVBody)
  | drained (pairs : BufList)
  | request (mpxs : FCGIRequest)
  deriving DecidableEq, Repr

namespace Holder

/-- The list. -/
def list : Holder → BufList
  | .body nv => nv.pairs
  | .drained pairs => pairs
  | .request mpxs => mpxs.buf

/-- Where a list comes from. -/
inductive Origin
  | new
  | fromBytes (buf : Bytes)
  | request (permit : Permit)
  deriving DecidableEq, Repr

/-- `NVBody::new`, `NVBody::from_bytes`, or the entry of a new request. -/
def Origin.holder : Origin → Holder
  | .new => .body .new
  | .fromBytes buf => .body (.fromBytes buf)
  | .request permit => .request (.new permit)

/-- An operation on a list. -/
inductive Op
  | add (pair : NameValuePair)
  | drain
  | advance (n : ℕ)
  | receive (body : Body)
  | putBack (bodydata : Bytes)
  | oldest
  | other
  deriving DecidableEq, Repr

/-- The operations. `add` may refuse its pair. What else happens to the entry of a request leaves
its list alone. -/
inductive Step : Holder → Op → Holder → Prop
  | add (nv : NVBody) (pair : NameValuePair) : Step (.body nv) (.add pair) (.body (nv.add pair).1)
  | drain (nv : NVBody) : Step (.body nv) .drain (.drained nv.pairs)
  | advance {pairs : BufList} {n : ℕ} (h : n ≤ pairs.remaining) :
      Step (.drained pairs) (.advance n) (.drained (pairs.advance n))
  | receive {mpxs mpxs' : FCGIRequest} {body : Body} (h : (mpxs.receive body).1 = some mpxs') :
      Step (.request mpxs) (.receive body) (.request mpxs')
  | putBack (mpxs : FCGIRequest) {bodydata : Bytes} (h : bodydata ≠ []) :
      Step (.request mpxs) (.putBack bodydata)
        (.request { mpxs with buf := mpxs.buf.push bodydata })
  | oldest (mpxs : FCGIRequest) :
      Step (.request mpxs) .oldest (.request { mpxs with buf := mpxs.buf.oldest.2 })
  | other {mpxs mpxs' : FCGIRequest} (h : mpxs'.buf = mpxs.buf) :
      Step (.request mpxs) .other (.request mpxs')

/-- The list is a `Buf` of the bytes in it, and `drain` of a body returns the first `len` of
them. -/
structure Faithful (holder : Holder) : Prop where
  list : holder.list.Faithful
  drain : ∀ nv, holder = .body nv → nv.len.toNat ≤ nv.pairs.remaining ∧
    nv.drain = .ok (nv.pairs.flatten.take nv.len.toNat)

/-- A pair that the body takes has a name. -/
def Named : Holder → Op → Prop
  | .body nv, .add pair => nv.fits pair → pair.nameData ≠ []
  | _, _ => True

/-- No buffer is empty, and a body has the bytes it counts. -/
structure Inv (holder : Holder) : Prop where
  nonEmpty : holder.list.NonEmpty
  len_le : ∀ nv, holder = .body nv → nv.len.toNat ≤ nv.pairs.flatten.length

theorem Inv.faithful {self : Holder} (h : self.Inv) : self.Faithful := by
  refine ⟨h.nonEmpty.faithful, fun nv hnv => ?_⟩
  subst hnv
  have hle : nv.len.toNat ≤ nv.pairs.remaining := by
    rw [BufList.remaining_eq]
    exact h.len_le nv rfl
  have hne : nv.pairs.NonEmpty := h.nonEmpty
  obtain ⟨rest, hcopy, -⟩ := BufList.copyToBytes_eq hne hle
  refine ⟨hle, ?_⟩
  rw [NVBody.drain, hcopy]
  rfl

/-- A list that no body holds has nothing to count. -/
theorem Inv.of_drained {pairs : BufList} (h : pairs.NonEmpty) : (drained pairs).Inv :=
  ⟨h, fun nv hnv => by cases hnv⟩

theorem Inv.of_request {mpxs : FCGIRequest} (h : mpxs.buf.NonEmpty) : (request mpxs).Inv :=
  ⟨h, fun nv hnv => by cases hnv⟩

theorem Origin.inv (origin : Origin) : origin.holder.Inv := by
  cases origin with
  | new =>
    refine ⟨BufList.nonEmpty_new, fun nv hnv => ?_⟩
    cases hnv
    exact Nat.zero_le _
  | fromBytes buf =>
    have hlen : (UInt16.ofNat buf.length).toNat ≤ buf.length := by
      rw [UInt16.toNat_ofNat']
      exact Nat.mod_le _ _
    show Inv (.body (.fromBytes buf))
    rw [NVBody.fromBytes]
    split
    · rename_i hpos
      have hne : buf ≠ [] := by
        rintro rfl
        cases hpos
      refine ⟨BufList.nonEmpty_new.push hne, fun nv hnv => ?_⟩
      cases hnv
      simpa using hlen
    · rename_i hzero
      refine ⟨BufList.nonEmpty_new, fun nv hnv => ?_⟩
      cases hnv
      rw [gt_iff_lt, UInt16.lt_iff_toNat_lt, Nat.not_lt] at hzero
      exact hzero
  | request permit => exact .of_request BufList.nonEmpty_new

/-- What a record leaves in the buffer of a request. -/
theorem receive_nonEmpty {mpxs mpxs' : FCGIRequest} {body : Body} (h : mpxs.buf.NonEmpty)
    (hreceive : (mpxs.receive body).1 = some mpxs') : mpxs'.buf.NonEmpty := by
  unfold FCGIRequest.receive at hreceive
  split at hreceive
  · split at hreceive
    · cases hreceive
    · cases hreceive
      exact h
  · split at hreceive
    · cases hreceive
      exact h
    · split at hreceive
      · rename_i hpos
        cases hreceive
        exact h.push (List.length_pos_iff.mp hpos)
      · cases hreceive
        exact h
  · cases hreceive
    exact h

/-- A step that adds no pair without a name. -/
theorem Step.inv {s s' : Holder} {op : Op} (hinv : s.Inv) (h : Step s op s') (hnamed : s.Named op) :
    s'.Inv := by
  cases h with
  | add nv pair =>
    cases hfits : nv.fits pair with
    | false =>
      rw [NVBody.add_full hfits]
      exact hinv
    | true =>
      rw [NVBody.add_eq hfits]
      refine ⟨fun b hb => ?_, fun nv' hnv' => ?_⟩
      · rcases List.mem_append.mp hb with hb | hb
        · exact hinv.nonEmpty b hb
        · exact (NVBody.pushed_nonEmpty pair).mpr (hnamed hfits) b hb
      · cases hnv'
        have hlen := hinv.len_le nv rfl
        show (UInt16.ofNat (pair.len + nv.len.toNat)).toNat ≤
          (nv.pairs.bufs ++ NVBody.pushed pair).flatten.length
        have hmod : (UInt16.ofNat (pair.len + nv.len.toNat)).toNat ≤ pair.len + nv.len.toNat := by
          rw [UInt16.toNat_ofNat']
          exact Nat.mod_le _ _
        rw [List.flatten_append, List.length_append, NVBody.flatten_pushed, pair.length_encode]
        exact Nat.le_trans hmod (by rw [Nat.add_comm]; exact Nat.add_le_add_right hlen _)
  | drain nv => exact .of_drained hinv.nonEmpty
  | advance hle => exact .of_drained (hinv.nonEmpty.advance _)
  | receive hreceive => exact .of_request (receive_nonEmpty hinv.nonEmpty hreceive)
  | putBack mpxs hne => exact .of_request (hinv.nonEmpty.push hne)
  | oldest mpxs =>
    exact .of_request fun b hb => hinv.nonEmpty b (List.mem_of_mem_tail hb)
  | other hbuf =>
    refine .of_request ?_
    rw [hbuf]
    exact hinv.nonEmpty

/-- A step that adds one. -/
theorem Step.not_faithful {s s' : Holder} {op : Op} (h : Step s op s') (hno : ¬ s.Named op) :
    ¬ s'.Faithful := by
  intro hfaithful
  cases h with
  | add nv pair =>
    have hno' : ¬ (nv.fits pair → pair.nameData ≠ []) := hno
    rw [Classical.not_imp] at hno'
    refine hno'.2 ((NVBody.pushed_nonEmpty pair).mp fun b hb => ?_)
    have hne := hfaithful.list.nonEmpty
    rw [NVBody.add_eq hno'.1] at hne
    exact hne b (List.mem_append_right _ hb)
  | drain nv => exact hno trivial
  | advance hle => exact hno trivial
  | receive hreceive => exact hno trivial
  | putBack mpxs hne => exact hno trivial
  | oldest mpxs => exact hno trivial
  | other hbuf => exact hno trivial

/-! ## The steps of the crate -/

/-- A turn of `parse_and_distribute` receives a record for a request, or leaves it alone. -/
theorem distributeTo_step {requests : Slab FCGIRequest} {r : Record} {key : ℕ}
    {mpxs mpxs' : FCGIRequest} (hq : requests.get? key = some mpxs)
    (hq' : (InnerConnection.distributeTo requests r).1.get? key = some mpxs') :
    ∃ op, Step (.request mpxs) op (.request mpxs') := by
  rw [InnerConnection.get?_distributeTo, hq] at hq'
  split at hq'
  · exact ⟨.receive r.body, .receive hq'⟩
  · cases hq'
    exact ⟨.other, .other rfl⟩

/-- `poll_frame` takes the oldest buffer of its request, or leaves the list alone. -/
theorem serve_step {fcgibody fcgibody' : FCGIBody} {inner inner' : InnerConnection} {cx : Waker}
    {res : FramePoll} {eff : Effects} {mpxs mpxs' : FCGIRequest}
    (h : fcgibody.serve inner cx = .ok (res, fcgibody', inner', eff))
    (hq : inner.runningRequests.get? fcgibody.rid = some mpxs)
    (hq' : inner'.runningRequests.get? fcgibody.rid = some mpxs') :
    ∃ op, Step (.request mpxs) op (.request mpxs') := by
  cases FCGIBody.serve_served h with
  | vanished hnone =>
    rw [hq] at hnone
    cases hnone
  | @frame slab front rest hslab hbuf =>
    rw [Slab.get?_set hslab, if_pos rfl] at hq'
    rw [hq] at hslab
    cases hslab
    cases hq'
    have holdest : mpxs.buf.oldest.2 = ⟨rest⟩ := by rw [BufList.oldest, hbuf]; rfl
    rw [← holdest]
    exact ⟨.oldest, .oldest mpxs⟩
  | last =>
    rw [Slab.get?_remove, if_pos rfl] at hq'
    cases hq'
  | finished =>
    rw [Slab.get?_remove, if_pos rfl] at hq'
    cases hq'
  | early =>
    rw [hq] at hq'
    cases hq'
    exact ⟨.other, .other rfl⟩
  | @waits slab hslab =>
    rw [Slab.get?_set hslab, if_pos rfl] at hq'
    rw [hq] at hslab
    cases hslab
    cases hq'
    exact ⟨.other, .other rfl⟩

/-- `create_response` puts back what is behind the headers, if that is not empty
(`receive_putting`). -/
theorem putBack_step {fcgibody : FCGIBody} {bodydata : Bytes} {inner inner' : InnerConnection}
    {mpxs mpxs' : FCGIRequest} (hne : bodydata ≠ [])
    (h : CreateResponse.putBack fcgibody bodydata inner = .ok inner')
    (hq : inner.runningRequests.get? fcgibody.rid = some mpxs)
    (hq' : inner'.runningRequests.get? fcgibody.rid = some mpxs') :
    Step (.request mpxs) (.putBack bodydata) (.request mpxs') := by
  rw [CreateResponse.putBack, hq] at h
  cases h
  rw [Slab.get?_set hq, if_pos rfl] at hq'
  cases hq'
  exact .putBack mpxs hne

/-- **The lists are faithful in every state of a run if and only if no step adds a pair without a
name.** -/
theorem faithful_iff (origin : Origin) (ops : List Op) (s : Holder) :
    Always Step Faithful origin.holder ops s ↔ EveryStep Step Named origin.holder ops s :=
  always_iff origin.inv (fun _ h => h.faithful) (fun _ _ _ hinv h hnamed => h.inv hinv hnamed)
    fun _ _ _ _ h hno => h.not_faithful hno

/-- A pair with the value `v` and no name. -/
def noName : NameValuePair := ⟨[], [118]⟩

/-- `drain` of a body with it makes no progress. -/
theorem drain_loops :
    ¬ ∀ (origin : Origin) (ops : List Op) (s : Holder),
      Always Step Faithful origin.holder ops s := by
  intro h
  have hrun : Run Step Origin.new.holder [.add noName] (.body (NVBody.new.add noName).1) :=
    .snoc .nil (.add .new noName)
  have hfaithful := h .new [.add noName] _ [.add noName] [] _ rfl hrun .nil
  have hloops : (NVBody.new.add noName).1.drain = .error .loops := by
    have hadd : (NVBody.new.add noName).1 = ⟨⟨[[0, 1], [], [118]]⟩, 3⟩ := by decide
    -- behind the two lengths the front buffer is empty
    have hfront : BufList.copyLoop ⟨[[], [118]]⟩ 1 = .error .loops := by
      rw [BufList.copyLoop]
      rfl
    have hcopy : BufList.copyLoop ⟨[[0, 1], [], [118]]⟩ 3 = .error .loops := by
      rw [BufList.copyLoop]
      exact congrArg (· >>= _) hfront
    rw [hadd]
    exact congrArg (Except.map Prod.fst) hcopy
  have hdrain := (hfaithful.drain _ rfl).2
  rw [hloops] at hdrain
  cases hdrain

end Holder

end AsyncFcgi
