import AsyncFcgi.Client.Exchange

/-!
# The headers of a response, in any records (`src/client/connection.rs`)

What the application writes as the header block may come in any number of STDOUT records, cut
anywhere, and `create_response` may be polled before or behind any of them. Of `httparse` it is
only said that more bytes change neither a complete block nor an error.

* `headOf`: status and headers for a whole STDOUT.
* `Heading.step`: the bytes that were parsed so far are the first ones of it.
* `head_split`: two runs with the same STDOUT have the same status and headers.
-/

namespace AsyncFcgi

open Lib

/-- More bytes change neither a complete block nor an error. -/
structure Http.Stable (http : Http) : Prop where
  complete_append {n bs pos headers} : http.parseHeaders n bs = .ok (.complete pos headers) →
    ∀ more, http.parseHeaders n (bs ++ more) = .ok (.complete pos headers)
  error_append {n bs e} : http.parseHeaders n bs = .error e →
    ∀ more, http.parseHeaders n (bs ++ more) = .error e

theorem Http.PrefixStable.stable {http : Http} (hs : http.PrefixStable) : http.Stable :=
  ⟨hs.complete_append, hs.error_append⟩

variable {http : Http}

/-- Once there is a whole block, the headers do not change any more. -/
theorem parse_complete_append (hs : http.Stable) {bs rest : Bytes} {headerMap headerMap' : HeaderMap}
    (h : parse http bs headerMap = .ok (.ok rest, headerMap')) (more : Bytes) :
    parse http (bs ++ more) headerMap = .ok (.ok (rest ++ more), headerMap') := by
  cases parse_parsed http h with
  | @ok pos headers _ _ hp hmap hleft =>
    have hle : pos ≤ bs.length := by
      have := (advance_consumes hleft).2
      omega
    rw [advance_of_le hle] at hleft
    cases hleft
    rw [parse, hs.complete_append hp more]
    simp only [hmap, ok_bind]
    rw [advance_of_le (by rw [List.length_append]; omega), List.drop_append_of_le_length hle]
    rfl

theorem parse_err_append (hs : http.Stable) {bs : Bytes} {headerMap headerMap' : HeaderMap}
    (h : parse http bs headerMap = .ok (.err, headerMap')) (more : Bytes) :
    headerMap' = headerMap ∧ parse http (bs ++ more) headerMap = .ok (.err, headerMap) := by
  cases parse_parsed http h with
  | err hp =>
    rw [parse, hs.error_append hp more]
    exact ⟨rfl, rfl⟩

theorem parse_pending {bs : Bytes} {headerMap headerMap' : HeaderMap}
    (h : parse http bs headerMap = .ok (.pending, headerMap')) : headerMap' = headerMap := by
  cases parse_parsed http h with
  | pending hp => rfl

/-- Status and headers for a STDOUT: those of its header block, 500 if there is an error in it, and
200 without headers if it is cut short. -/
def headOf (http : Http) (stdout : Bytes) : ℕ × HeaderMap :=
  if stdout = [] then (200, [])
  else
    match parse http stdout [] with
    | .ok (.ok _, headerMap) => (CreateResponse.statusOf http headerMap, headerMap)
    | .ok (.err, _) => (500, [])
    | _ => (200, [])

namespace Exchange

variable {key : ℕ} {stdout : Bytes}

/-- What was parsed, and with which result. -/
def Heading (http : Http) (key : ℕ) (stdout : Bytes) (ex : Exchange) : Prop :=
  match ex.resp with
  | .reading fcgibody buf rheaders => fcgibody = ⟨key, false, false⟩ ∧ rheaders = [] ∧
      (∀ b, buf = some b → parse http b [] = .ok (.pending, [])) ∧
      ∃ unread, Unread key ex unread ∧ ex.arrived = buf.getD [] ++ unread
  | .putting _ _ rheaders => (CreateResponse.statusOf http rheaders, rheaders) = headOf http stdout
  | .returned _ status rheaders => (status, rheaders) = headOf http stdout

/-- A frame, with the bytes that were kept, is parsed. -/
theorem receive_head (hs : http.Stable) {fcgibody : FCGIBody} {left : Option Bytes} {b : Bytes}
    {resp : CreateResponse} (h : CreateResponse.receive http fcgibody left [] b = .ok resp)
    (hpre : left.getD [] ++ b <+: stdout) (hne : stdout ≠ []) :
    (resp = .reading fcgibody (some (left.getD [] ++ b)) [] ∧
        parse http (left.getD [] ++ b) [] = .ok (.pending, [])) ∨
      (∃ bodydata rheaders, resp = .putting fcgibody bodydata rheaders ∧
        (CreateResponse.statusOf http rheaders, rheaders) = headOf http stdout) ∨
      ∃ status rheaders, resp = CreateResponse.handOver fcgibody status rheaders ∧
        (status, rheaders) = headOf http stdout := by
  obtain ⟨more, rfl⟩ := hpre
  unfold CreateResponse.receive at h
  obtain ⟨⟨res, rheaders⟩, hparse, h⟩ := bind_eq_ok.mp h
  cases res with
  | ok bodydata =>
    have hhead : (CreateResponse.statusOf http rheaders, rheaders) =
        headOf http (left.getD [] ++ b ++ more) := by
      rw [headOf, if_neg hne, parse_complete_append hs hparse more]
    simp only at h
    split at h
    · cases h
      exact Or.inr (Or.inr ⟨_, _, rfl, hhead⟩)
    · cases h
      exact Or.inr (Or.inl ⟨_, _, rfl, hhead⟩)
  | pending =>
    cases h
    obtain rfl := parse_pending hparse
    exact Or.inl ⟨rfl, hparse⟩
  | err =>
    cases h
    obtain ⟨rfl, herr⟩ := parse_err_append hs hparse more
    refine Or.inr (Or.inr ⟨_, _, rfl, ?_⟩)
    rw [headOf, if_neg hne, herr]

/-- A turn of `create_response` in its loop. -/
theorem heading_reading (hs : http.Stable) {ex ex' : Exchange} {fcgibody : FCGIBody}
    {buf : Option Bytes} {rheaders : HeaderMap} (hr : ex.resp = .reading fcgibody buf rheaders)
    {sock : SocketRead} {cx : Waker} (h : Heading http key stdout ex) (hfits : ex'.Fits stdout)
    (hnext : ex.next http key (.respond sock cx) = .ok ex') : Heading http key stdout ex' := by
  have hheading := h
  rw [Heading, hr] at h
  obtain ⟨rfl, rfl, hbuf, unread, hunread, harr⟩ := h
  rcases next_reading hr hunread harr hnext with rfl | ⟨-, -, -, hturn⟩
  · exact hheading
  rw [Heading]
  rcases hturn with ⟨hresp, unread', hu, harr'⟩ | ⟨b, rest, hsome, hreceive, hu, harr'⟩ |
      ⟨hended, -, harr', hresp⟩
  · -- nothing yet
    rw [hresp, hr]
    exact ⟨rfl, rfl, hbuf, unread', hu, harr'⟩
  · -- a frame
    have hpre : buf.getD [] ++ b <+: stdout := by
      refine List.IsPrefix.trans ?_ hfits.1
      exact ⟨rest, harr'.symm⟩
    have hne : stdout ≠ [] := by
      rintro rfl
      rw [List.prefix_nil.mp hfits.1, List.append_assoc] at harr'
      exact hsome (List.append_eq_nil_iff.mp harr'.symm).2
    rcases receive_head hs hreceive hpre hne with
      ⟨hresp, hpending⟩ | ⟨bodydata, rheaders', hresp, hhead⟩ | ⟨status, rheaders', hresp, hhead⟩
    · rw [hresp]
      refine ⟨rfl, rfl, fun b' hb' => ?_, rest, hu, harr'⟩
      rw [← Option.some.inj hb']
      exact hpending
    · rw [hresp]
      exact hhead
    · rw [hresp]
      exact hhead
  · -- the request ended before its headers did
    rw [hfits.2 hended] at harr'
    rw [hresp]
    show (200, []) = headOf http stdout
    cases hb : buf with
    | none =>
      rw [harr', hb]
      rfl
    | some b =>
      rw [hb, Option.getD_some] at harr'
      rw [headOf, harr', hbuf b hb, ite_self]

/-- `create_response` in front of the lock. -/
theorem heading_putting {ex ex' : Exchange} {fcgibody : FCGIBody} {bodydata : Bytes}
    {rheaders : HeaderMap} (hr : ex.resp = .putting fcgibody bodydata rheaders) {sock : SocketRead}
    {cx : Waker} (h : Heading http key stdout ex)
    (hnext : ex.next http key (.respond sock cx) = .ok ex') : Heading http key stdout ex' := by
  rcases next_putting hr hnext with rfl | ⟨inner, -, rfl⟩
  · exact h
  · rw [Heading, hr] at h
    exact h

theorem heading_respond (hs : http.Stable) {ex ex' : Exchange} {sock : SocketRead} {cx : Waker}
    (h : Heading http key stdout ex) (hfits : ex'.Fits stdout)
    (hnext : ex.next http key (.respond sock cx) = .ok ex') : Heading http key stdout ex' := by
  cases hr : ex.resp with
  | reading fcgibody buf rheaders => exact heading_reading hs hr h hfits hnext
  | putting fcgibody bodydata rheaders => exact heading_putting hr h hnext
  | returned fcgibody status rheaders =>
    simp only [next, hr, CreateResponse.poll, ok_bind, Except.ok.injEq] at hnext
    subst hnext
    rwa [← hr]

/-- A `poll_frame` of the caller changes neither status nor headers. -/
theorem heading_read {ex ex' : Exchange} {sock : SocketRead} {cx : Waker}
    (h : Heading http key stdout ex) (hnext : ex.next http key (.read sock cx) = .ok ex') :
    Heading http key stdout ex' := by
  rw [next] at hnext
  cases hr : ex.resp with
  | returned fcgibody status rheaders =>
    rw [hr] at hnext
    obtain ⟨⟨res, fcgibody', con', eff⟩, -, hex⟩ := bind_eq_ok.mp hnext
    have hresp : ex'.resp = .returned fcgibody' status rheaders := by
      rcases res with (_ | e | b) | _ <;> (cases hex; rfl)
    rw [Heading, hr] at h
    rw [Heading, hresp]
    exact h
  | _ =>
    simp only [hr, Except.ok.injEq] at hnext
    rwa [← hnext]

/-- The steps of other tasks. -/
theorem Heading.pass {ex ex' : Exchange} (h : Heading http key stdout ex)
    (hp : Passed key ex ex') : Heading http key stdout ex' := by
  unfold Heading at h ⊢
  rw [hp.resp]
  cases hr : ex.resp with
  | reading fcgibody buf rheaders =>
    rw [hr] at h
    obtain ⟨rfl, hnil, hbuf, unread, hu, harr⟩ := h
    obtain ⟨new, hnew, hun⟩ := hp.arrive (by rw [hr]; rfl)
    exact ⟨rfl, hnil, hbuf, _, hun _ hu, by rw [hnew, harr, List.append_assoc]⟩
  | _ =>
    rw [hr] at h
    exact h

/-- One step. -/
theorem Heading.step (hs : http.Stable) {ex ex' : Exchange} {ev : Event}
    (h : Heading http key stdout ex) (hstep : Step http key stdout ex ev ex') :
    Heading http key stdout ex' := by
  obtain ⟨hnext, huntouched, hfits⟩ := hstep
  cases ev with
  | respond sock cx => exact heading_respond hs h hfits hnext
  | read sock cx => exact heading_read h hnext
  | drive sock cx => exact h.pass (passed_drive hnext)
  | others con => exact h.pass (passed_others huntouched hnext)

theorem heading_start {con : Mutex InnerConnection} {permit : Permit}
    (hnew : con.inner.runningRequests.get? key = some (.new permit)) :
    Heading http key stdout (start key con) :=
  ⟨rfl, rfl, nofun, [], ⟨_, hnew, rfl, rfl, rfl⟩, rfl⟩

/-- **The head of a response does not depend on the records it comes in.** Two new requests, on
any connections, whose applications write the same STDOUT in any records, each with any order of
turns of `create_response`, reads of the caller and steps of other tasks: if both calls get their
response, it has the same status and headers. Until then the bytes that are kept and those in the
buffer of the request are all that arrived, in order. -/
theorem head_split (hs : http.Stable) (stdout : Bytes) {key₁ key₂ : ℕ}
    {con₁ con₂ : Mutex InnerConnection} {permit₁ permit₂ : Permit}
    (hnew₁ : con₁.inner.runningRequests.get? key₁ = some (.new permit₁))
    (hnew₂ : con₂.inner.runningRequests.get? key₂ = some (.new permit₂)) {evs₁ evs₂ : List Event}
    {ex₁ ex₂ : Exchange} (hrun₁ : Run (Step http key₁ stdout) (start key₁ con₁) evs₁ ex₁)
    (hrun₂ : Run (Step http key₂ stdout) (start key₂ con₂) evs₂ ex₂) :
    (∀ body₁ body₂ status₁ status₂ headers₁ headers₂,
        ex₁.resp = .returned body₁ status₁ headers₁ →
        ex₂.resp = .returned body₂ status₂ headers₂ →
        status₁ = status₂ ∧ headers₁ = headers₂) ∧
      ∀ body buf headers, ex₁.resp = .reading body buf headers →
        ex₁.arrived = buf.getD [] ++ ex₁.unread key₁ := by
  have h₁ : Heading http key₁ stdout ex₁ :=
    hrun₁.inv (heading_start hnew₁) fun _ _ _ h hstep => h.step hs hstep
  have h₂ : Heading http key₂ stdout ex₂ :=
    hrun₂.inv (heading_start hnew₂) fun _ _ _ h hstep => h.step hs hstep
  constructor
  · intro body₁ body₂ status₁ status₂ headers₁ headers₂ hr₁ hr₂
    rw [Heading, hr₁] at h₁
    rw [Heading, hr₂] at h₂
    exact Prod.mk.inj (h₁.trans h₂.symm)
  · intro body buf headers hr
    rw [Heading, hr] at h₁
    obtain ⟨-, -, -, unread, ⟨mpxs, hq, -, hbuf, -⟩, harr⟩ := h₁
    rw [harr, ← hbuf, Exchange.unread, hq]

/-- A record of STDOUT with the first byte of the block, and one with the rest. -/
def cutInside : List WireRecord :=
  [{ firstHalf with content := [13], content_le := by decide },
    { firstHalf with content := [10, 97, 98], content_le := by decide }]

/-- The block in one record, and cut inside its line end. -/
theorem head_split_cut : ∃ evs₁ evs₂ ex₁ ex₂ body₁ body₂ status₁ status₂ headers₁ headers₂,
    Run (Step (onlyBlock emptyHead) 0 firstHalf.content) (start 0 FCGIBody.freshCon) evs₁ ex₁ ∧
      Run (Step (onlyBlock emptyHead) 0 firstHalf.content) (start 0 FCGIBody.freshCon) evs₂ ex₂ ∧
      ex₁.resp = .returned body₁ status₁ headers₁ ∧ ex₂.resp = .returned body₂ status₂ headers₂ ∧
      status₁ = status₂ ∧ headers₁ = headers₂ := by
  have hrun₁ : (replay (onlyBlock emptyHead) 0 firstHalf.content (start 0 FCGIBody.freshCon)
      [.respond (.ready firstHalf.encode) 7, .respond .pending 7]).map Exchange.resp =
        some (.returned ⟨0, false, true⟩ 200 []) := by
    decide +kernel
  have hrun₂ : (replay (onlyBlock emptyHead) 0 firstHalf.content (start 0 FCGIBody.freshCon)
      [.drive (.ready (WireRecord.encodeAll cutInside)) 9, .respond .pending 7,
        .respond .pending 7, .respond .pending 7]).map Exchange.resp =
        some (.returned ⟨0, false, true⟩ 200 []) := by
    decide +kernel
  obtain ⟨ex₁, hreplay₁, hr₁⟩ := Option.map_eq_some_iff.mp hrun₁
  obtain ⟨ex₂, hreplay₂, hr₂⟩ := Option.map_eq_some_iff.mp hrun₂
  have hsame := (head_split (onlyBlock_prefixStable emptyHead).stable firstHalf.content rfl rfl
    (run_of_replay _ hreplay₁) (run_of_replay _ hreplay₂)).1 _ _ _ _ _ _ hr₁ hr₂
  exact ⟨_, _, ex₁, ex₂, _, _, _, _, _, _, run_of_replay _ hreplay₁, run_of_replay _ hreplay₂,
    hr₁, hr₂, hsame⟩

end Exchange

end AsyncFcgi
