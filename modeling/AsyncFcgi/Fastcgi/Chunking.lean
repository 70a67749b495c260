import AsyncFcgi.Fastcgi.RecordReader

/-!
# Discrete records and chunk boundaries (`src/fastcgi.rs`)

The body of an `END_REQUEST`, `GET_VALUES_RESULT` or `UNKNOWN_TYPE` record is one value,
not a part of a stream. `RecordReader::read` hands out what is there of a record as soon
as a content byte is there, for these types too.

* `cuts_iff_started`: a chunk ends inside a discrete record, behind its header, iff
  the reader has then handed out a piece of that record and waits for more.
* `discrete_delivered_iff`: reading does not panic and delivers each discrete record once
  with the body `parse_body` gives for its whole content iff no chunk ends there.
* `discrete_lost_endRequest`: an `END_REQUEST` in two halves makes the reader panic.
-/

namespace AsyncFcgi

open Lib

/-- The record types whose body is one value. -/
def RecordType.Discrete (rtype : RecordType) : Prop :=
  rtype = .endRequest ∨ rtype = .getValuesResult ∨ rtype = .unknownType

instance (rtype : RecordType) : Decidable rtype.Discrete :=
  inferInstanceAs (Decidable (_ ∨ _ ∨ _))

/-- The record types `parse_body` has an arm for: all but those only a web server sends. -/
def RecordType.Implemented (rtype : RecordType) : Prop :=
  rtype ∉ [RecordType.beginRequest, .abortRequest, .stdIn, .data]

instance (rtype : RecordType) : Decidable rtype.Implemented :=
  inferInstanceAs (Decidable (_ ∉ _))

namespace WireRecord

/-- The fixed layouts: an `END_REQUEST` body of 8 bytes with a protocol status of 0 to 3, an
`UNKNOWN_TYPE` body of 8 bytes. -/
def WellFormed (r : WireRecord) : Prop :=
  (r.rtype = .endRequest → r.content.length = 8 ∧ (r.content.getD 4 0).toNat ≤ 3) ∧
    (r.rtype = .unknownType → r.content.length = 8)

instance (r : WireRecord) : Decidable r.WellFormed :=
  inferInstanceAs (Decidable (_ ∧ _))

/-- A place inside a discrete record with content, behind its header. -/
def BehindHeader (r : WireRecord) (pos : ℕ) : Prop :=
  r.rtype.Discrete ∧ r.content ≠ [] ∧ Header.headerLen < pos

instance (r : WireRecord) (pos : ℕ) : Decidable (r.BehindHeader pos) :=
  inferInstanceAs (Decidable (_ ∧ _))

end WireRecord

/-- The discrete records the reader returned: type, request id and body. -/
def delivered (out : List Record) : List (RecordType × UInt16 × Except Fault Body) :=
  (out.filter fun rec => rec.header.rtype.Discrete).map
    fun rec => (rec.header.rtype, rec.getRequestId, .ok rec.body)

/-- The discrete records of a stream, each with the body of its whole content. -/
def sent (rs : List WireRecord) : List (RecordType × UInt16 × Except Fault Body) :=
  (rs.filter fun r => r.rtype.Discrete).map
    fun r => (r.rtype, r.requestId, Record.parseBody r.content r.rtype)

/-! ## Bodies -/

theorem parseBody_implemented {x : Bytes} {rtype : RecordType} {b : Body}
    (h : Record.parseBody x rtype = .ok b) : rtype.Implemented := by
  cases rtype <;> first | decide | cases h

/-- Every piece of a stream record is a body. -/
theorem parseBody_stream {rtype : RecordType} (hi : rtype.Implemented) (hd : ¬ rtype.Discrete)
    (x : Bytes) : ∃ b, Record.parseBody x rtype = .ok b := by
  cases rtype with
  | stdOut | stdErr | params | getValues => exact ⟨_, rfl⟩
  | endRequest | getValuesResult | unknownType => exact absurd (by decide) hd
  | beginRequest | abortRequest | stdIn | data => exact absurd hi (by decide)

theorem endRequest_parse {content : Bytes} (hlen : content.length = 8)
    (hstatus : (content.getD 4 0).toNat ≤ 3) : ∃ b, EndRequestBody.parse content = .ok b := by
  match content, hlen with
  | [a, b, c, d, status, x, y, z], _ =>
    have hs : ∃ ps, ProtoStatus.tryFrom status = .ok ps := by
      have hle : status.toNat ≤ 3 := hstatus
      unfold ProtoStatus.tryFrom
      interval_cases status.toNat <;> exact ⟨_, rfl⟩
    obtain ⟨ps, hps⟩ := hs
    simp only [EndRequestBody.parse, getU32, ok_bind, getU8_cons, hps]
    exact ⟨_, rfl⟩

theorem unknownType_parse {content : Bytes} (hlen : content.length = 8) :
    ∃ b, UnknownTypeBody.parse content = .ok b := by
  match content, hlen with
  | [a, b, c, d, e, x, y, z], _ => exact ⟨_, rfl⟩

/-- The whole content of a well-formed record is a body. -/
theorem parseBody_wellFormed {r : WireRecord} (hwf : r.WellFormed) (hi : r.rtype.Implemented) :
    ∃ b, Record.parseBody r.content r.rtype = .ok b := by
  cases ht : r.rtype with
  | stdOut | stdErr | params | getValues | getValuesResult => exact ⟨_, rfl⟩
  | endRequest =>
    obtain ⟨b, hb⟩ := endRequest_parse (hwf.1 ht).1 (hwf.1 ht).2
    exact ⟨_, by rw [Record.parseBody, hb]; rfl⟩
  | unknownType =>
    obtain ⟨b, hb⟩ := unknownType_parse (hwf.2 ht)
    exact ⟨_, by rw [Record.parseBody, hb]; rfl⟩
  | beginRequest | abortRequest | stdIn | data =>
    rw [ht] at hi
    exact absurd hi (by decide)

/-! ## Counting what was delivered -/

theorem delivered_append (out : List Record) (rec : Record) :
    delivered (out ++ [rec]) = delivered out ++
      if rec.header.rtype.Discrete then [(rec.header.rtype, rec.getRequestId, .ok rec.body)]
      else [] := by
  by_cases h : rec.header.rtype.Discrete <;> simp [delivered, h]

theorem sent_append (rs : List WireRecord) (r : WireRecord) :
    sent (rs ++ [r]) = sent rs ++
      if r.rtype.Discrete then [(r.rtype, r.requestId, Record.parseBody r.content r.rtype)]
      else [] := by
  by_cases h : r.rtype.Discrete <;> simp [sent, h]

theorem length_delivered_append {rec : Record} {r : WireRecord} (h : rec.header.rtype = r.rtype)
    (out : List Record) : (delivered (out ++ [rec])).length =
      (delivered out).length + if r.rtype.Discrete then 1 else 0 := by
  rw [delivered_append, List.length_append, h]
  split <;> rfl

theorem length_sent_append (rs : List WireRecord) (r : WireRecord) :
    (sent (rs ++ [r])).length = (sent rs).length + if r.rtype.Discrete then 1 else 0 := by
  rw [sent_append, List.length_append]
  split <;> rfl

namespace Cursor

/-- A piece of a discrete record was handed out, and the record is not finished. -/
def Started (c : Cursor) : Prop :=
  ∃ r got, c.cur = some (r, got) ∧ r.rtype.Discrete ∧ 0 < got

theorem not_started_none (ds rs : List WireRecord) : ¬ Started ⟨ds, none, rs⟩ := by
  rintro ⟨r, got, h, -⟩
  cases h

theorem started_some {ds rs : List WireRecord} {r : WireRecord} {got : ℕ} :
    Started ⟨ds, some (r, got), rs⟩ ↔ r.rtype.Discrete ∧ 0 < got := by
  constructor
  · rintro ⟨r', got', h, hd, hpos⟩
    cases h
    exact ⟨hd, hpos⟩
  · rintro ⟨hd, hpos⟩
    exact ⟨r, got, rfl, hd, hpos⟩

theorem started_opens {c : Cursor} {ds r got rs} (ho : c.Opens ds r got rs) :
    c.Started ↔ r.rtype.Discrete ∧ 0 < got := by
  rcases ho with rfl | ⟨rfl, rfl⟩
  · exact started_some
  · exact iff_of_false (not_started_none _ _) (by simp)

/-- Where the reader is stuck behind the header of a discrete record with content, it has
handed out a piece of it, and only there. -/
theorem within_iff_started {c : Cursor} (hv : c.Valid) {d : Bytes} (hs : c.Stuck d) :
    c.Within d WireRecord.BehindHeader ↔ c.Started := by
  obtain ⟨ds, cur, todo⟩ := c
  cases cur with
  | none =>
    refine iff_of_false ?_ (not_started_none _ _)
    cases todo with
    | nil => exact id
    | cons r rs =>
      rintro ⟨-, -, h8⟩
      exact absurd (show d.length < 8 from hs) (by simp only [Header.headerLen] at h8; omega)
  | some x =>
    obtain ⟨r, got⟩ := x
    obtain ⟨hle, -⟩ := hv r got rfl
    simp only [Stuck] at hs
    simp only [started_some, Within, WireRecord.BehindHeader, ← List.length_pos_iff]
    split at hs
    · subst hs
      simp only [List.length_nil]
      constructor
      · rintro ⟨hdisc, -, hlt⟩
        exact ⟨hdisc, by omega⟩
      · rintro ⟨hdisc, hgot⟩
        exact ⟨hdisc, by omega, by omega⟩
    · constructor
      · rintro ⟨hdisc, hc, -⟩
        exact ⟨hdisc, by omega⟩
      · rintro ⟨hdisc, hgot⟩
        exact ⟨hdisc, by omega, by omega⟩

end Cursor

/-! ## The runs without a cut -/

/-- Every finished discrete record was delivered, and none is half delivered. -/
def InStep (out : List Record) (c : Cursor) : Prop :=
  delivered out = sent c.done ∧ ¬ c.Started

theorem InStep.quiet {out : List Record} {c c' : Cursor} (h : InStep out c)
    (hst : c.Step none c') : InStep out c' := by
  cases hst with
  | idle => exact h
  | header ds r rs => exact ⟨h.1, by simp [Cursor.started_some]⟩

/-- A chunk ends inside a discrete record with content, behind its header, exactly if a
piece of that record was handed out. -/
theorem cuts_iff_started {c : Cursor} {as bs : List Bytes} (hw : RecordReader.WaitsFor c bs)
    (hcs : (as ++ bs).flatten = WireRecord.encodeAll c.stream) :
    RecordReader.Cuts WireRecord.BehindHeader c.stream as.flatten.length ↔ c.Started := by
  obtain ⟨d, hu, hs, hcut⟩ := hw.cuts_iff WireRecord.BehindHeader hcs
  rw [hcut, Cursor.within_iff_started hw.1 hs]

theorem delivered_of_uncut {rs : List WireRecord} (hwf : ∀ r ∈ rs, r.WellFormed)
    (hi : ∀ r ∈ rs, r.rtype.Implemented) {cs : List Bytes}
    (hcs : cs.flatten = WireRecord.encodeAll rs)
    (huncut : ∀ as, as <+: cs → ¬ RecordReader.Cuts WireRecord.BehindHeader rs as.flatten.length) :
    ∃ out, RecordReader.incremental.feed .new [] cs = .ok (out, .new, []) ∧
      delivered out = sent rs := by
  have hinit : InStep [] (.start rs) := ⟨rfl, Cursor.not_started_none _ _⟩
  refine (RecordReader.feedWith_cursor_total (f := fun out rec => out ++ [rec]) cs hcs hinit
    InStep.quiet ?_).imp fun out h => ⟨h.1, h.2.1⟩
  rintro out c r x c' bs hin hst rfl ⟨as, rfl⟩ hwaits
  -- a piece that does not finish its record is the last of its chunk
  have hpart : ¬ c'.Started := by
    intro hstart
    obtain ⟨r', got, hcur, -⟩ := id hstart
    rw [← hst.stream_eq] at hcs huncut
    exact huncut as (List.prefix_append as bs)
      ((cuts_iff_started (hwaits (by rw [hcur]; rfl)) hcs).mpr hstart)
  obtain ⟨hdel, hstart⟩ := hin
  have hr := hst.mem_stream
  cases hst with
  | @part _ ds _ got rs n ho hn hle =>
    have hd : ¬ r.rtype.Discrete := fun hd => hpart (Cursor.started_some.mpr ⟨hd, by omega⟩)
    obtain ⟨b, hb⟩ := parseBody_stream (hi r hr) hd ((r.content.drop got).take n)
    refine ⟨b, hb, fun h hty hid => ⟨?_, hpart⟩⟩
    rw [delivered_append, hty, if_neg hd, List.append_nil, hdel, Cursor.done_of_opens ho]
  | @last _ ds _ got rs ho hle =>
    by_cases hd : r.rtype.Discrete
    · -- nothing of a discrete record was handed out before
      have hgot : got = 0 := by
        by_contra h0
        exact hstart ((Cursor.started_opens ho).mpr ⟨hd, by omega⟩)
      subst hgot
      obtain ⟨b, hb⟩ := parseBody_wellFormed (hwf r hr) (hi r hr)
      refine ⟨b, hb, fun h hty hid => ⟨?_, hpart⟩⟩
      rw [delivered_append, sent_append, hty, if_pos hd, if_pos hd, hdel,
        Cursor.done_of_opens ho, hb, Record.getRequestId, hid]
    · obtain ⟨b, hb⟩ := parseBody_stream (hi r hr) hd (r.content.drop got)
      refine ⟨b, hb, fun h hty hid => ⟨?_, hpart⟩⟩
      rw [delivered_append, sent_append, hty, if_neg hd, if_neg hd, hdel,
        Cursor.done_of_opens ho]

/-! ## The runs with a cut -/

/-- At least one delivery for each finished discrete record, and one more for a started
one. -/
def Counts (out : List Record) (c : Cursor) : Prop :=
  (∀ r ∈ c.done, r.rtype.Implemented) ∧ (sent c.done).length ≤ (delivered out).length ∧
    (c.Started → (sent c.done).length < (delivered out).length)

/-- A delivery too many. -/
def Surplus (out : List Record) (c : Cursor) : Prop :=
  (sent c.done).length < (delivered out).length

theorem surplus_keeps : RecordReader.Keeps (fun out rec => out ++ [rec]) Surplus where
  quiet h hst := by
    cases hst with
    | idle => exact h
    | header ds r rs => exact h
  piece {out c r x c' rec} h hst _ hty _ := by
    unfold Surplus at h ⊢
    rw [length_delivered_append hty]
    cases hst with
    | part n ho hn hle =>
      rw [Cursor.done_of_opens ho] at h
      exact Nat.lt_add_right _ h
    | last ho hle =>
      rw [Cursor.done_of_opens ho] at h
      rw [length_sent_append]
      exact Nat.add_lt_add_right h _

theorem counts_keeps : RecordReader.Keeps (fun out rec => out ++ [rec]) Counts where
  quiet h hst := by
    cases hst with
    | idle => exact h
    | header ds r rs => exact ⟨h.1, h.2.1, by simp [Cursor.started_some]⟩
  piece {out c r x c' rec} h hst hb hty _ := by
    obtain ⟨hi, hle', -⟩ := h
    unfold Counts
    rw [length_delivered_append hty]
    cases hst with
    | part n ho hn hle =>
      rw [Cursor.done_of_opens ho] at hi hle'
      refine ⟨hi, Nat.le_add_right_of_le hle', fun hstart => ?_⟩
      rw [if_pos (Cursor.started_some.mp hstart).1]
      exact Nat.lt_succ_of_le hle'
    | last ho hle =>
      rw [Cursor.done_of_opens ho] at hi hle'
      rw [length_sent_append]
      refine ⟨?_, Nat.add_le_add_right hle' _, fun h => absurd h (Cursor.not_started_none _ _)⟩
      intro r' hr'
      rcases List.mem_append.mp hr' with hr' | hr'
      · exact hi r' hr'
      · rw [List.mem_singleton.mp hr']
        exact parseBody_implemented hb

theorem uncut_of_delivered {rs : List WireRecord} {cs : List Bytes}
    (hcs : cs.flatten = WireRecord.encodeAll rs) {out : List Record} {reader : RecordReader}
    {left : Bytes} (hf : RecordReader.incremental.feed .new [] cs = .ok (out, reader, left))
    (hdel : delivered out = sent rs) :
    (∀ r ∈ rs, r.rtype.Implemented) ∧
      ∀ as, as <+: cs → ¬ RecordReader.Cuts WireRecord.BehindHeader rs as.flatten.length := by
  by_cases hnil : cs = []
  · subst hnil
    obtain rfl := WireRecord.encodeAll_eq_nil hcs.symm
    exact ⟨by simp, fun _ _ => id⟩
  have hat : RecordReader.AtCursor Counts rs [] .new ([] ++ cs.flatten) := by
    rw [List.nil_append, hcs]
    exact RecordReader.atCursor_start
      ⟨by simp [Cursor.start], le_rfl, fun h => absurd h (Cursor.not_started_none _ _)⟩
  refine ⟨(RecordReader.feedWith_cursor_end counts_keeps hnil hat hf).1.1, ?_⟩
  rintro as ⟨bs, rfl⟩ hcut
  have has : as ≠ [] := by
    rintro rfl
    exact RecordReader.not_cuts_zero (fun r h => absurd h.2.2 (Nat.not_lt_zero _)) rs hcut
  -- at the cut a record is started: one delivery too many, which no later step takes back
  rw [Incremental.feed, Incremental.feedWith_append] at hf
  obtain ⟨⟨out₁, reader₁, left₁⟩, hf₁, hf₂⟩ := bind_eq_ok.mp hf
  rw [List.flatten_append] at hat
  obtain ⟨c, rfl, hv, rfl, hu, hcounts, hstuck⟩ :=
    RecordReader.feedWith_cursor counts_keeps as hat hf₁
  have hstart : c.Started :=
    (cuts_iff_started ⟨hv, left₁, hu, hstuck has⟩ hcs).mp hcut
  have hbs : bs ≠ [] := by
    rintro rfl
    rw [List.flatten_nil, List.append_nil] at hu
    rw [Cursor.finished hv (hu ▸ hstuck has)] at hstart
    exact Cursor.not_started_none _ _ hstart
  have hend := (RecordReader.feedWith_cursor_end surplus_keeps hbs
    ⟨c, rfl, hv, rfl, hu, hcounts.2.2 hstart⟩ hf₂).1
  rw [Surplus, hdel] at hend
  exact lt_irrefl _ hend

/-- **Discrete records under chunking.** A stream of well-formed records, cut into any
chunks: no call of `read` panics and every discrete record is delivered once with the body
of its whole content exactly if `parse_body` has an arm for every record and no chunk ends
inside a discrete record with content, behind its header. -/
theorem discrete_delivered_iff (rs : List WireRecord) (hwf : ∀ r ∈ rs, r.WellFormed)
    (cs : List Bytes) (hcs : cs.flatten = WireRecord.encodeAll rs) :
    (∃ out reader left,
      RecordReader.incremental.feed .new [] cs = .ok (out, reader, left) ∧
        delivered out = sent rs) ↔
      (∀ r ∈ rs, r.rtype.Implemented) ∧
        ∀ as, as <+: cs → ¬ RecordReader.Cuts WireRecord.BehindHeader rs as.flatten.length := by
  constructor
  · rintro ⟨out, reader, left, hf, hdel⟩
    exact uncut_of_delivered hcs hf hdel
  · rintro ⟨hi, huncut⟩
    obtain ⟨out, hf, hdel⟩ := delivered_of_uncut hwf hi hcs huncut
    exact ⟨out, _, _, hf, hdel⟩

/-- The record that ends request 1. -/
def endRequestOne : WireRecord where
  version := 1
  rtype := .endRequest
  requestId := 1
  reserved := 0
  content := [0, 0, 0, 0, 0, 0, 0, 0]
  padding := []
  content_le := endBody_le
  padding_le := noPadding_le

/-- Its header in one chunk and its body in the next. -/
theorem discrete_delivered_iff_header_first :
    ∃ out reader left,
      RecordReader.incremental.feed .new [] [endRequestOne.headerBytes, endRequestOne.content] =
          .ok (out, reader, left) ∧
        delivered out = sent [endRequestOne] :=
  (discrete_delivered_iff [endRequestOne] (by decide)
    [endRequestOne.headerBytes, endRequestOne.content] (by decide)).mpr
    ⟨by decide, fun as has => by
      rw [← List.mem_inits] at has
      revert as
      decide⟩

/-- Cut in the middle of its body, `EndRequestBody::parse` panics on the first half. -/
theorem discrete_lost_endRequest :
    endRequestOne.WellFormed ∧
      [endRequestOne.encode.take 10, endRequestOne.encode.drop 10].flatten =
        WireRecord.encodeAll [endRequestOne] ∧
      ¬ ∃ out reader left,
        RecordReader.incremental.feed .new []
            [endRequestOne.encode.take 10, endRequestOne.encode.drop 10] =
            .ok (out, reader, left) ∧
          delivered out = sent [endRequestOne] := by
  refine ⟨by decide, by decide, ?_⟩
  have hfault : RecordReader.incremental.feed .new []
      [endRequestOne.encode.take 10, endRequestOne.encode.drop 10] = .error .outOfBounds := by
    decide +kernel
  rintro ⟨out, reader, left, hf, -⟩
  rw [hfault] at hf
  cases hf

end AsyncFcgi
