import AsyncFcgi.Fastcgi.Record

/-!
# `RecordReader` (`src/fastcgi.rs`)

`RecordReader::read` returns a record as soon as some of its content is there, and keeps
the header of an unfinished record in `current`.

A `Cursor` is a position in a stream of wire records as the reader sees it: the record
whose header has been taken, with the number of its content bytes already returned, and
the records after it. `Cursor.Step` lists everything one call can do.

* `read_spec`: on a prefix of the unread stream, one call does one `Step`, returns the
  piece of content of that step parsed by `parse_body`, and panics only if that does.
* `Stuck`: where a call returns nothing, and `Cursor.finished`: at the end of the stream
  that is nowhere but behind the last record.
* `drainWith_cursor`, `feedWith_cursor`: a property of what was consumed and of the cursor,
  kept by every step, holds after the `while let` loop and after any chunking.
* `cuts_iff_within`: where the reader is stuck, the place of the last byte at hand is in the
  record the cursor is in.
* `feedWith_cursor_total`: if no piece makes `parse_body` panic, any chunking of the whole
  stream is read to its end.
-/

namespace AsyncFcgi

open Lib

/-- `RecordReader` (lines 365–367). -/
structure RecordReader where
  current : Option Header
  deriving DecidableEq, Repr

namespace RecordReader

/-- `RecordReader::new` (lines 370–372). -/
def new : RecordReader := ⟨none⟩

/-- The end of `read` (lines 406–427): `header` and `bodyLen` are those of the piece to
return, `current` what was stored for the rest of the record. -/
def deliver (header : Header) (bodyLen : ℕ) (current : Option Header) (data : Bytes) :
    Except Fault (Option Record × RecordReader × Bytes) := do
  let body ← slice data 0 bodyLen
  let data ← advance data bodyLen
  if data.length < header.paddingLength.toNat then
    if bodyLen < 1 then .ok (none, ⟨some header⟩, data)
    else
      let nh := { header with contentLength := 0 }
      let body ← Record.parseBody body header.rtype
      .ok (some { header, body }, ⟨some nh⟩, data)
  else
    let data ← advance data header.paddingLength.toNat
    let body ← Record.parseBody body header.rtype
    .ok (some { header, body }, ⟨current⟩, data)

/-- `read` once the header is known (lines 385–427). -/
def readBody (fullHeader : Header) (data : Bytes) :
    Except Fault (Option Record × RecordReader × Bytes) :=
  let bodyLen := fullHeader.contentLength.toNat
  if data.length < bodyLen then
    let bodyLen := data.length
    let nh := { fullHeader with contentLength := UInt16.ofNat bodyLen, paddingLength := 0 }
    let fullHeader :=
      { fullHeader with contentLength := fullHeader.contentLength - UInt16.ofNat bodyLen }
    -- "we need to enforce a read if we are out of data"
    if bodyLen < 1 then .ok (none, ⟨some fullHeader⟩, data)
    else deliver nh bodyLen (some fullHeader) data
  else deliver fullHeader bodyLen none data

/-- `RecordReader::read` (lines 373–428): the record, the reader and the unread bytes. -/
def read (self : RecordReader) (data : Bytes) :
    Except Fault (Option Record × RecordReader × Bytes) :=
  match self.current with
  | some h => readBody h data
  | none =>
    if data.length < 8 then .ok (none, ⟨none⟩, data)
    else do
      let (h, data) ← Header.parse data
      readBody h data

/-! ## Progress -/

theorem parse_consumes {data rest : Bytes} {h : Header}
    (hp : Header.parse data = .ok (h, rest)) : Consumes 8 data rest := by
  unfold Header.parse at hp
  obtain ⟨⟨version, d₁⟩, h₁, hp⟩ := bind_eq_ok.mp hp
  obtain ⟨⟨ty, d₂⟩, h₂, hp⟩ := bind_eq_ok.mp hp
  obtain ⟨rtype, -, hp⟩ := bind_eq_ok.mp hp
  obtain ⟨⟨requestId, d₃⟩, h₃, hp⟩ := bind_eq_ok.mp hp
  obtain ⟨⟨contentLength, d₄⟩, h₄, hp⟩ := bind_eq_ok.mp hp
  obtain ⟨⟨paddingLength, d₅⟩, h₅, hp⟩ := bind_eq_ok.mp hp
  obtain ⟨d₆, h₆, hp⟩ := bind_eq_ok.mp hp
  simp only [Except.ok.injEq, Prod.mk.injEq] at hp
  rw [← hp.2]
  have h₁₂ := (getU8_consumes h₁).trans (getU8_consumes h₂)
  have h₃₄ := (getU16_consumes h₃).trans (getU16_consumes h₄)
  have h₅₆ := (getU8_consumes h₅).trans (advance_consumes h₆)
  exact (h₁₂.trans h₃₄).trans h₅₆

/-- A bound on the records still to come from the bytes at hand. -/
def size (self : RecordReader) (data : Bytes) : ℕ :=
  2 * data.length + if self.current.isSome then 1 else 0

theorem deliver_size {header : Header} {bodyLen : ℕ} {current : Option Header} {data : Bytes}
    {r : Record} {self' : RecordReader} {data' : Bytes}
    (hcur : current.isSome → 1 ≤ bodyLen)
    (h : deliver header bodyLen current data = .ok (some r, self', data')) :
    self'.size data' < 2 * data.length + 1 := by
  unfold deliver at h
  obtain ⟨body, -, h⟩ := bind_eq_ok.mp h
  obtain ⟨d, hadv, h⟩ := bind_eq_ok.mp h
  have hd := (advance_consumes hadv).2
  split at h
  · split at h
    · cases h
    · obtain ⟨b, -, h⟩ := bind_eq_ok.mp h
      simp only [Except.ok.injEq, Prod.mk.injEq] at h
      rw [← h.2.1, ← h.2.2]
      simp only [size, Option.isSome_some, if_true]
      omega
  · obtain ⟨d', hadv', h⟩ := bind_eq_ok.mp h
    have hd' := (advance_consumes hadv').2
    obtain ⟨b, -, h⟩ := bind_eq_ok.mp h
    simp only [Except.ok.injEq, Prod.mk.injEq] at h
    rw [← h.2.1, ← h.2.2]
    simp only [size]
    split
    · have := hcur (by assumption)
      omega
    · omega

theorem readBody_size {h : Header} {data : Bytes} {r : Record} {self' : RecordReader}
    {data' : Bytes} (hr : readBody h data = .ok (some r, self', data')) :
    self'.size data' < 2 * data.length + 1 := by
  unfold readBody at hr
  simp only at hr
  split at hr
  · split at hr
    · cases hr
    · exact deliver_size (fun _ => by omega) hr
  · exact deliver_size (by simp) hr

/-- Each returned record uses up bytes, or the header kept in `current`. -/
theorem read_size {self : RecordReader} {data : Bytes} {r : Record} {self' : RecordReader}
    {data' : Bytes} (hr : self.read data = .ok (some r, self', data')) :
    self'.size data' < self.size data := by
  unfold read at hr
  cases hc : self.current with
  | some h =>
    rw [hc] at hr
    simpa [size, hc] using readBody_size hr
  | none =>
    rw [hc] at hr
    simp only at hr
    split at hr
    · cases hr
    · obtain ⟨⟨h, rest⟩, hp, hr⟩ := bind_eq_ok.mp hr
      have hlen := (parse_consumes hp).2
      have hlt := readBody_size hr
      simp only [size, hc, Option.isSome_none, Bool.false_eq_true, if_false] at hlt ⊢
      omega

/-- The reader as it is driven by `while let Some(r) = read(data)`. -/
def incremental : Incremental Fault RecordReader UInt8 Record where
  read := read
  size := size
  size_lt := read_size

end RecordReader

/-! ## Positions in a stream of records -/

/-- A position in a stream of wire records: the records that are finished, the record whose
header has been taken with the number of content bytes already returned, and the records
after it. -/
structure Cursor where
  done : List WireRecord
  cur : Option (WireRecord × ℕ)
  todo : List WireRecord

namespace Cursor

/-- The whole stream. -/
def stream (c : Cursor) : List WireRecord := c.done ++ ((c.cur.map Prod.fst).toList ++ c.todo)

/-- The header the reader keeps for a record of which `got` content bytes were returned. -/
def restHeader (r : WireRecord) (got : ℕ) : Header :=
  { r.header with contentLength := UInt16.ofNat (r.content.length - got) }

/-- The reader at the cursor. -/
def reader (c : Cursor) : RecordReader := ⟨c.cur.map fun x => restHeader x.1 x.2⟩

/-- The bytes from the cursor on. -/
def unread (c : Cursor) : Bytes :=
  (match c.cur with
    | none => []
    | some (r, got) => r.content.drop got ++ r.padding) ++ WireRecord.encodeAll c.todo

/-- A started record is not finished: content or padding is missing. -/
def Valid (c : Cursor) : Prop :=
  ∀ r got, c.cur = some (r, got) →
    got ≤ r.content.length ∧ (got = r.content.length → r.padding ≠ [])

/-- The record that comes next, with the number of its content bytes already returned and
the records before and behind it. -/
def Opens (c : Cursor) (ds : List WireRecord) (r : WireRecord) (got : ℕ)
    (rs : List WireRecord) : Prop :=
  c = ⟨ds, some (r, got), rs⟩ ∨ (c = ⟨ds, none, r :: rs⟩ ∧ got = 0)

/-- What one call of `read` can do: nothing, take a header, return a piece of content that
does not finish its record, or return the piece that does. -/
inductive Step : Cursor → Option (WireRecord × Bytes) → Cursor → Prop
  | idle (c) : Step c none c
  | header (ds r rs) : Step ⟨ds, none, r :: rs⟩ none ⟨ds, some (r, 0), rs⟩
  | part {c ds r got rs} (n) (ho : Opens c ds r got rs) (hn : 0 < n)
      (hle : got + n ≤ r.content.length) :
      Step c (some (r, (r.content.drop got).take n)) ⟨ds, some (r, got + n), rs⟩
  | last {c ds r got rs} (ho : Opens c ds r got rs) (hle : got ≤ r.content.length) :
      Step c (some (r, r.content.drop got)) ⟨ds ++ [r], none, rs⟩

/-- With the bytes `d` at hand the reader can do nothing: less than a header, no content
byte, or less than the whole padding. -/
def Stuck (c : Cursor) (d : Bytes) : Prop :=
  match c.cur with
  | none => d.length < 8
  | some (r, got) => if got < r.content.length then d = [] else d.length < r.padding.length

/-- With the bytes `d` at hand, the last of them is in a record at an offset with `p`. -/
def Within (c : Cursor) (d : Bytes) (p : WireRecord → ℕ → Prop) : Prop :=
  match c.cur, c.todo with
  | none, [] => False
  | none, r :: _ => p r d.length
  | some (r, got), _ => p r (Header.headerLen + got + d.length)

/-- A cursor at the start of a stream. -/
def start (rs : List WireRecord) : Cursor := ⟨[], none, rs⟩

@[simp] theorem stream_start (rs : List WireRecord) : (start rs).stream = rs := rfl

@[simp] theorem reader_start (rs : List WireRecord) : (start rs).reader = .new := rfl

@[simp] theorem unread_start (rs : List WireRecord) :
    (start rs).unread = WireRecord.encodeAll rs := rfl

theorem valid_none (ds rs : List WireRecord) : Valid ⟨ds, none, rs⟩ := by
  intro r got h
  cases h

theorem stream_of_opens {c : Cursor} {ds r got rs} (ho : c.Opens ds r got rs) :
    c.stream = ds ++ r :: rs := by
  rcases ho with rfl | ⟨rfl, -⟩ <;> rfl

theorem done_of_opens {c : Cursor} {ds r got rs} (ho : c.Opens ds r got rs) : c.done = ds := by
  rcases ho with rfl | ⟨rfl, -⟩ <;> rfl

/-- No step changes the stream. -/
theorem Step.stream_eq {c c' : Cursor} {o} (h : c.Step o c') : c'.stream = c.stream := by
  cases h with
  | idle => rfl
  | header ds r rs => rfl
  | part n ho hn hle => rw [stream_of_opens ho]; rfl
  | last ho hle => rw [stream_of_opens ho]; simp [stream]

/-- A returned piece is of a record of the stream. -/
theorem Step.mem_stream {c c' : Cursor} {r x} (h : c.Step (some (r, x)) c') : r ∈ c.stream := by
  cases h with
  | part n ho hn hle => rw [stream_of_opens ho]; simp
  | last ho hle => rw [stream_of_opens ho]; simp

theorem unread_some (ds : List WireRecord) (r : WireRecord) (got : ℕ) (rs : List WireRecord) :
    unread ⟨ds, some (r, got), rs⟩ =
      r.content.drop got ++ (r.padding ++ WireRecord.encodeAll rs) := by
  simp [unread]

theorem toNat_restHeader (r : WireRecord) (got : ℕ) :
    (restHeader r got).contentLength.toNat = r.content.length - got := by
  have := r.content_le
  rw [restHeader, UInt16.toNat_ofNat']
  omega

/-- The header while `n` bytes more of the content are returned. -/
theorem restHeader_sub (r : WireRecord) {got n : ℕ} (hn : got + n ≤ r.content.length) :
    { restHeader r got with
      contentLength := (restHeader r got).contentLength - UInt16.ofNat n } =
    restHeader r (got + n) := by
  have hcl := r.content_le
  simp only [restHeader, Header.mk.injEq, true_and, and_true]
  apply UInt16.toNat_inj.mp
  rw [UInt16.toNat_sub_of_le, UInt16.toNat_ofNat', UInt16.toNat_ofNat', UInt16.toNat_ofNat']
  · omega
  · rw [UInt16.le_iff_toNat_le, UInt16.toNat_ofNat', UInt16.toNat_ofNat']
    omega

@[simp] theorem restHeader_padding (r : WireRecord) (got : ℕ) :
    (restHeader r got).paddingLength.toNat = r.padding.length :=
  r.toNat_paddingLength

/-- At the end of the stream the reader is stuck only behind the last record. -/
theorem finished {c : Cursor} (hv : c.Valid) (hs : c.Stuck c.unread) :
    c = ⟨c.stream, none, []⟩ := by
  obtain ⟨ds, cur, todo⟩ := c
  cases cur with
  | none =>
    cases todo with
    | nil => simp [stream]
    | cons r rs =>
      simp only [Stuck, unread, WireRecord.encodeAll_cons, List.nil_append, List.length_append,
        WireRecord.length_encode] at hs
      omega
  | some x =>
    obtain ⟨r, got⟩ := x
    obtain ⟨hle, hpad⟩ := hv r got rfl
    simp only [Stuck, unread_some] at hs
    split at hs
    · have := congrArg List.length hs
      simp at this
      omega
    · have hp := List.length_pos_iff.mpr (hpad (by omega))
      simp at hs
      omega

end Cursor

namespace RecordReader

/-- What `read` returns for the piece `x` of the record `r`. -/
def Returns (x : Bytes) (r : WireRecord) (self' : RecordReader) (d' : Bytes)
    (res : Except Fault (Option Record × RecordReader × Bytes)) : Prop :=
  ∃ h : Header, h.rtype = r.rtype ∧ h.requestId = r.requestId ∧
    res = (Record.parseBody x r.rtype).map fun body => (some { header := h, body }, self', d')

/-- `deliver` with the whole piece at hand. -/
theorem deliver_eq (h : Header) (current : Option Header) (x tail : Bytes) :
    deliver h x.length current (x ++ tail) =
      if tail.length < h.paddingLength.toNat then
        if x.length < 1 then .ok (none, ⟨some h⟩, tail)
        else (Record.parseBody x h.rtype).map fun body =>
          (some { header := h, body }, ⟨some { h with contentLength := 0 }⟩, tail)
      else (Record.parseBody x h.rtype).map fun body =>
        (some { header := h, body }, ⟨current⟩, tail.drop h.paddingLength.toNat) := by
  have hs : slice (x ++ tail) 0 x.length = .ok x := by
    rw [slice_of_le (by simp), List.take_left]
  simp only [deliver, hs, ok_bind, advance_append]
  by_cases hp : tail.length < h.paddingLength.toNat
  · simp only [if_pos hp]
    by_cases hx : x.length < 1
    · simp only [if_pos hx]
    · simp only [if_neg hx]
      cases Record.parseBody x h.rtype <;> rfl
  · simp only [if_neg hp, advance_of_le (show h.paddingLength.toNat ≤ tail.length by omega), ok_bind]
    cases Record.parseBody x h.rtype <;> rfl

section

variable (ds : List WireRecord) (r : WireRecord) (got : ℕ) (rs : List WireRecord) (fut : Bytes)

/-- No record: the reader stays where it is, and is stuck. -/
def Stays (res : Except Fault (Option Record × RecordReader × Bytes)) : Prop :=
  ∃ d', Cursor.Valid ⟨ds, some (r, got), rs⟩ ∧
    Cursor.unread ⟨ds, some (r, got), rs⟩ = d' ++ fut ∧
    Cursor.Stuck ⟨ds, some (r, got), rs⟩ d' ∧
    res = .ok (none, Cursor.reader ⟨ds, some (r, got), rs⟩, d')

/-- A piece that does not finish the record; behind it the reader is stuck. -/
def Part (res : Except Fault (Option Record × RecordReader × Bytes)) : Prop :=
  ∃ n d', 0 < n ∧ got + n ≤ r.content.length ∧ Cursor.Valid ⟨ds, some (r, got + n), rs⟩ ∧
    Cursor.unread ⟨ds, some (r, got + n), rs⟩ = d' ++ fut ∧
    Cursor.Stuck ⟨ds, some (r, got + n), rs⟩ d' ∧
    Returns ((r.content.drop got).take n) r (Cursor.reader ⟨ds, some (r, got + n), rs⟩) d' res

/-- The rest of the record. -/
def Rest (res : Except Fault (Option Record × RecordReader × Bytes)) : Prop :=
  ∃ d', WireRecord.encodeAll rs = d' ++ fut ∧ Returns (r.content.drop got) r ⟨none⟩ d' res

end

/-- Less than the rest of the content is at hand. -/
theorem readBody_short (ds : List WireRecord) (r : WireRecord) {got : ℕ}
    (hgot : got ≤ r.content.length) (rs : List WireRecord) (d fut : Bytes)
    (hd : r.content.drop got ++ (r.padding ++ WireRecord.encodeAll rs) = d ++ fut)
    (hshort : d.length < r.content.length - got) :
    Stays ds r got rs fut (readBody (Cursor.restHeader r got) d) ∨
      Part ds r got rs fut (readBody (Cursor.restHeader r got) d) := by
  have hlen := Cursor.toNat_restHeader r got
  obtain ⟨tail, htail, hfut⟩ :=
    split_of_append_eq hd.symm (show d.length ≤ _ by rw [List.length_drop]; omega)
  have htake : d = (r.content.drop got).take d.length := by rw [htail, List.take_left]
  have hfut : r.content.drop (got + d.length) ++ (r.padding ++ WireRecord.encodeAll rs) = fut := by
    rw [← List.drop_drop, htail, List.drop_left, hfut]
  by_cases h0 : d.length < 1
  · left
    have hnil : d = [] := List.length_eq_zero_iff.mp (by omega)
    subst hnil
    refine ⟨[], ?_, by rw [Cursor.unread_some]; exact hd, ?_, ?_⟩
    · intro r' got' h
      cases h
      exact ⟨hgot, fun heq => by simp at hshort; omega⟩
    · simp only [Cursor.Stuck]
      rw [if_pos (by simp at hshort; omega)]
      trivial
    · unfold readBody
      simp only [hlen]
      rw [if_pos hshort, if_pos (by simp)]
      simp [Cursor.reader]
  · right
    refine ⟨d.length, [], by omega, by omega, ?_, ?_, ?_, ?_⟩
    · intro r' got' h
      cases h
      exact ⟨by omega, fun heq => by omega⟩
    · rw [Cursor.unread_some, hfut]; rfl
    · simp only [Cursor.Stuck]
      rw [if_pos (by omega)]
      trivial
    · refine ⟨{ Cursor.restHeader r got with
        contentLength := UInt16.ofNat d.length, paddingLength := 0 }, rfl, rfl, ?_⟩
      rw [← htake]
      unfold readBody
      simp only [hlen]
      rw [if_pos hshort, if_neg h0]
      have hdel := deliver_eq { Cursor.restHeader r got with
        contentLength := UInt16.ofNat d.length, paddingLength := 0 }
        (some (Cursor.restHeader r (got + d.length))) d []
      rw [List.append_nil] at hdel
      rw [Cursor.restHeader_sub r (by omega), hdel]
      rfl

/-- The whole rest of the content is at hand. -/
theorem readBody_whole (ds : List WireRecord) (r : WireRecord) {got : ℕ}
    (hgot : got ≤ r.content.length) (rs : List WireRecord) (d fut : Bytes)
    (hd : r.content.drop got ++ (r.padding ++ WireRecord.encodeAll rs) = d ++ fut)
    (hshort : ¬ d.length < r.content.length - got) :
    Stays ds r got rs fut (readBody (Cursor.restHeader r got) d) ∨
      Part ds r got rs fut (readBody (Cursor.restHeader r got) d) ∨
        Rest r got rs fut (readBody (Cursor.restHeader r got) d) := by
  have hlen := Cursor.toNat_restHeader r got
  obtain ⟨tail, rfl, htail⟩ := split_of_append_eq hd (by rw [List.length_drop]; omega)
  have hbody : readBody (Cursor.restHeader r got) (r.content.drop got ++ tail) =
      deliver (Cursor.restHeader r got) (r.content.drop got).length none
        (r.content.drop got ++ tail) := by
    unfold readBody
    simp only [hlen]
    rw [if_neg hshort, List.length_drop]
  rw [hbody, deliver_eq, Cursor.restHeader_padding]
  by_cases hpad : tail.length < r.padding.length
  · rw [if_pos hpad]
    have hne : r.padding ≠ [] := by
      rintro h
      rw [h] at hpad
      simp at hpad
    by_cases h0 : (r.content.drop got).length < 1
    · left
      have hfull : got = r.content.length := by rw [List.length_drop] at h0; omega
      have hnil : r.content.drop got = [] := List.length_eq_zero_iff.mp (by omega)
      refine ⟨tail, ?_, by rw [Cursor.unread_some, hnil]; exact htail, ?_, by rw [if_pos h0]; rfl⟩
      · intro r' got' h
        cases h
        exact ⟨hgot, fun _ => hne⟩
      · simp only [Cursor.Stuck]
        rw [if_neg (by omega)]
        exact hpad
    · right; left
      rw [List.length_drop] at h0
      have htake : (r.content.drop got).take (r.content.length - got) = r.content.drop got :=
        List.take_of_length_le (by rw [List.length_drop])
      refine ⟨r.content.length - got, tail, by omega, by omega, ?_, ?_, ?_, ?_⟩
      · intro r' got' h
        cases h
        exact ⟨by omega, fun _ => hne⟩
      · rw [Cursor.unread_some, List.drop_of_length_le (by omega)]
        exact htail
      · simp only [Cursor.Stuck]
        rw [if_neg (by omega)]
        exact hpad
      · rw [htake, if_neg (by rw [List.length_drop]; exact h0)]
        refine ⟨Cursor.restHeader r got, rfl, rfl, ?_⟩
        have hz : r.content.length - (got + (r.content.length - got)) = 0 := by omega
        simp [Cursor.reader, Cursor.restHeader, hz]
  · right; right
    rw [if_neg hpad]
    refine ⟨tail.drop r.padding.length, ?_, Cursor.restHeader r got, rfl, rfl, rfl⟩
    rw [← List.drop_append_of_le_length (by omega), ← htail, List.drop_left]

/-- `read` behind the header of the record `r`, of which `got` content bytes were
returned before. -/
theorem readBody_spec (ds : List WireRecord) (r : WireRecord) {got : ℕ}
    (hgot : got ≤ r.content.length) (rs : List WireRecord) (d fut : Bytes)
    (hd : Cursor.unread ⟨ds, some (r, got), rs⟩ = d ++ fut) :
    Stays ds r got rs fut (readBody (Cursor.restHeader r got) d) ∨
      Part ds r got rs fut (readBody (Cursor.restHeader r got) d) ∨
        Rest r got rs fut (readBody (Cursor.restHeader r got) d) := by
  rw [Cursor.unread_some] at hd
  by_cases hshort : d.length < r.content.length - got
  · exact (readBody_short ds r hgot rs d fut hd hshort).imp_right Or.inl
  · exact readBody_whole ds r hgot rs d fut hd hshort

/-- **What one call does.** With a prefix `d` of the unread stream at hand, `read` does one
step of the cursor; it panics only if `parse_body` panics on the piece it returns. Behind a
piece that does not finish its record it is stuck. -/
theorem read_spec {c : Cursor} (hv : c.Valid) (d fut : Bytes) (hd : c.unread = d ++ fut) :
    (∃ c' d', c.Step none c' ∧ c'.Valid ∧ c'.unread = d' ++ fut ∧ c'.Stuck d' ∧
        c.reader.read d = .ok (none, c'.reader, d')) ∨
      ∃ r x c' d', c.Step (some (r, x)) c' ∧ c'.Valid ∧ c'.unread = d' ++ fut ∧
        (c'.cur.isSome → c'.Stuck d') ∧ Returns x r c'.reader d' (c.reader.read d) := by
  -- the three outcomes of `readBody`, with the record and the position it starts from
  have main : ∀ {c : Cursor} {ds r got rs d₁ res}, c.Opens ds r got rs → got ≤ r.content.length →
      (∀ d', Cursor.Stuck ⟨ds, some (r, got), rs⟩ d' → c.Step none ⟨ds, some (r, got), rs⟩) →
      Cursor.unread ⟨ds, some (r, got), rs⟩ = d₁ ++ fut →
      res = readBody (Cursor.restHeader r got) d₁ →
      (∃ c' d', c.Step none c' ∧ c'.Valid ∧ c'.unread = d' ++ fut ∧ c'.Stuck d' ∧
        res = .ok (none, c'.reader, d')) ∨
      ∃ r x c' d', c.Step (some (r, x)) c' ∧ c'.Valid ∧ c'.unread = d' ++ fut ∧
        (c'.cur.isSome → c'.Stuck d') ∧ Returns x r c'.reader d' res := by
    intro c ds r got rs d₁ res ho hle hnone hd₁ hres
    subst hres
    rcases readBody_spec ds r hle rs d₁ fut hd₁ with ⟨d', hv', hu, hs, hr⟩ |
      ⟨n, d', hn, hgn, hv', hu, hs, hr⟩ | ⟨d', hu, hr⟩
    · exact Or.inl ⟨_, d', hnone d' hs, hv', hu, hs, hr⟩
    · exact Or.inr ⟨r, _, _, d', .part n ho hn hgn, hv', hu, fun _ => hs, hr⟩
    · exact Or.inr ⟨r, _, ⟨ds ++ [r], none, rs⟩, d', .last ho hle, Cursor.valid_none _ rs, hu, by simp, hr⟩
  obtain ⟨ds, cur, todo⟩ := c
  cases cur with
  | some x =>
    obtain ⟨r, got⟩ := x
    exact main (Or.inl rfl) (hv r got rfl).1 (fun _ _ => .idle _) hd rfl
  | none =>
    by_cases h8 : d.length < 8
    · refine Or.inl ⟨⟨ds, none, todo⟩, d, .idle _, hv, hd, h8, ?_⟩
      simp only [Cursor.reader, Option.map_none, RecordReader.read, if_pos h8]
    · cases todo with
      | nil =>
        have := congrArg List.length hd
        simp [Cursor.unread] at this
        omega
      | cons r rs =>
        -- a whole header is at hand
        have hun : Cursor.unread ⟨ds, none, r :: rs⟩ =
            r.headerBytes ++ Cursor.unread ⟨ds, some (r, 0), rs⟩ := by
          simp [Cursor.unread, WireRecord.encode]
        obtain ⟨d₁, rfl, hd₁⟩ := split_of_append_eq (hun.symm.trans hd)
          (show 8 ≤ d.length by omega)
        refine main (Or.inr ⟨rfl, rfl⟩) (Nat.zero_le _) (fun _ _ => .header ds r rs) hd₁ ?_
        simp only [Cursor.reader, Option.map_none, RecordReader.read, if_neg h8,
          WireRecord.parse_headerBytes, ok_bind]
        rfl

/-! ## Runs over a stream -/

variable {τ : Type*} {f : τ → Record → τ} {P : τ → Cursor → Prop}

/-- Every step keeps `P`, with the records it returns consumed by `f`. -/
structure Keeps (f : τ → Record → τ) (P : τ → Cursor → Prop) : Prop where
  quiet : ∀ {acc c c'}, P acc c → c.Step none c' → P acc c'
  piece : ∀ {acc c r x c' rec}, P acc c → c.Step (some (r, x)) c' →
    Record.parseBody x r.rtype = .ok rec.body → rec.header.rtype = r.rtype →
    rec.getRequestId = r.requestId → P (f acc rec) c'

/-- The reader and its unread bytes stand at a cursor of the stream `rs` with `P`. -/
def AtCursor (P : τ → Cursor → Prop) (rs : List WireRecord) (acc : τ) (s : RecordReader)
    (rest : Bytes) : Prop :=
  ∃ c : Cursor, c.stream = rs ∧ c.Valid ∧ c.reader = s ∧ c.unread = rest ∧ P acc c

theorem atCursor_start {rs : List WireRecord} {acc : τ} (h : P acc (.start rs)) :
    AtCursor P rs acc .new (WireRecord.encodeAll rs) :=
  ⟨_, rfl, Cursor.valid_none _ _, rfl, rfl, h⟩

theorem Keeps.preservesOk (hk : Keeps f P) (rs : List WireRecord) (fut : Bytes) :
    incremental.PreservesOk f (AtCursor P rs) fut := by
  rintro acc s d ⟨c, hs, hv, rfl, hu, hP⟩ o s' d' hr
  rcases read_spec hv d fut hu with ⟨c', d₁, hst, hv', hu', -, hr'⟩ |
    ⟨r, x, c', d₁, hst, hv', hu', -, h, hty, hid, hr'⟩
  · obtain ⟨rfl, rfl, rfl⟩ : o = none ∧ s' = c'.reader ∧ d' = d₁ := by
      simpa using hr.symm.trans hr'
    exact ⟨c', hst.stream_eq.trans hs, hv', rfl, hu', hk.quiet hP hst⟩
  · have hr := hr.symm.trans hr'
    cases hb : Record.parseBody x r.rtype with
    | error e => rw [hb] at hr; cases hr
    | ok b =>
      rw [hb] at hr
      obtain ⟨rfl, rfl, rfl⟩ : o = .some ⟨h, b⟩ ∧ s' = c'.reader ∧ d' = d₁ := by
        simpa [Except.map] using hr
      exact ⟨c', hst.stream_eq.trans hs, hv', rfl, hu', hk.piece hP hst hb hty hid⟩

/-- A call that returns no record leaves the reader stuck. -/
theorem AtCursor.stuck {rs : List WireRecord} {acc : τ} {s s' : RecordReader} {d d' fut : Bytes}
    (hk : Keeps f P) (h : AtCursor P rs acc s (d ++ fut)) (hr : s.read d = .ok (none, s', d')) :
    ∃ c : Cursor, c.stream = rs ∧ c.Valid ∧ c.reader = s' ∧ c.unread = d' ++ fut ∧ P acc c ∧
      c.Stuck d' := by
  obtain ⟨c, hs, hv, rfl, hu, hP⟩ := h
  rcases read_spec hv d fut hu with ⟨c', d₁, hst, hv', hu', hstuck, hr'⟩ |
    ⟨r, x, c', d₁, -, -, -, -, h, -, -, hr'⟩
  · obtain ⟨rfl, rfl⟩ : s' = c'.reader ∧ d' = d₁ := by simpa using hr.symm.trans hr'
    exact ⟨c', hst.stream_eq.trans hs, hv', rfl, hu', hk.quiet hP hst, hstuck⟩
  · have hr := hr.symm.trans hr'
    cases hb : Record.parseBody x r.rtype with
    | error e => rw [hb] at hr; cases hr
    | ok b => rw [hb] at hr; simp [Except.map] at hr

/-- `P` after the `while let` loop, at a cursor where the reader is stuck. -/
theorem drainWith_cursor (hk : Keeps f P) {rs : List WireRecord} {acc acc' : τ}
    {s s' : RecordReader} {d d' fut : Bytes} (h : AtCursor P rs acc s (d ++ fut))
    (hd : incremental.drainWith f acc s d = .ok (acc', s', d')) :
    ∃ c : Cursor, c.stream = rs ∧ c.Valid ∧ c.reader = s' ∧ c.unread = d' ++ fut ∧ P acc' c ∧
      c.Stuck d' := by
  obtain ⟨-, s₀, d₀, h₀, hr⟩ :=
    Incremental.drainWith_ok_rule (hk.preservesOk rs fut) s d acc h acc' s' d' hd
  exact h₀.stuck hk hr

/-- The same with input `fut` that is not part of any chunk. -/
theorem Keeps.preservesOk_append (hk : Keeps f P) (rs : List WireRecord) (bs fut : Bytes) :
    incremental.PreservesOk f (fun acc s rest => AtCursor P rs acc s (rest ++ fut)) bs := by
  intro acc s d hinv
  simp only [List.append_assoc] at hinv ⊢
  exact hk.preservesOk rs (bs ++ fut) acc s d hinv

/-- `P` after any chunking of a part of the stream, at a cursor where the reader is stuck
if there was a chunk. -/
theorem feedWith_cursor (hk : Keeps f P) {rs : List WireRecord} {acc acc' : τ}
    {s s' : RecordReader} {left left' fut : Bytes} (cs : List Bytes)
    (h : AtCursor P rs acc s (left ++ (cs.flatten ++ fut)))
    (hf : incremental.feedWith f acc s left cs = .ok (acc', s', left')) :
    ∃ c : Cursor, c.stream = rs ∧ c.Valid ∧ c.reader = s' ∧ c.unread = left' ++ fut ∧
      P acc' c ∧ (cs ≠ [] → c.Stuck left') := by
  obtain ⟨⟨c, hs, hv, hr, hu, hP⟩, hlast⟩ := Incremental.feedWith_ok_rule cs
    (fun bs _ => hk.preservesOk_append rs bs.flatten fut) acc s left (by simpa using h)
    acc' s' left' hf
  by_cases hcs : cs = []
  · exact ⟨c, hs, hv, hr, hu, hP, fun h => absurd hcs h⟩
  · obtain ⟨s₀, d₀, h₀, hr₀⟩ := hlast hcs
    obtain ⟨c, hs, hv, hr, hu, hP, hstuck⟩ := h₀.stuck hk hr₀
    exact ⟨c, hs, hv, hr, hu, hP, fun _ => hstuck⟩

/-- After the last chunk of the stream the reader stands behind the last record. -/
theorem feedWith_cursor_end (hk : Keeps f P) {rs : List WireRecord} {acc acc' : τ}
    {s s' : RecordReader} {left left' : Bytes} {cs : List Bytes} (hcs : cs ≠ [])
    (h : AtCursor P rs acc s (left ++ cs.flatten))
    (hf : incremental.feedWith f acc s left cs = .ok (acc', s', left')) :
    P acc' ⟨rs, none, []⟩ ∧ s' = .new ∧ left' = [] := by
  rw [← List.append_nil cs.flatten] at h
  obtain ⟨c, hs, hv, hr, hu, hP, hstuck⟩ := feedWith_cursor hk cs h hf
  rw [List.append_nil] at hu
  have hend := Cursor.finished hv (hu ▸ hstuck hcs)
  rw [hs] at hend
  subst hend
  exact ⟨hP, hr.symm, hu.symm⟩

/-! ## Places in a stream -/

/-- The place `pos` is inside a record, at an offset with `p`. -/
def Cuts (p : WireRecord → ℕ → Prop) : List WireRecord → ℕ → Prop
  | [], _ => False
  | r :: rs, pos =>
    if pos < r.encode.length then p r pos else Cuts p rs (pos - r.encode.length)

instance decidableCuts (p : WireRecord → ℕ → Prop) [∀ r pos, Decidable (p r pos)] :
    ∀ rs pos, Decidable (Cuts p rs pos)
  | [], _ => inferInstanceAs (Decidable False)
  | r :: rs, pos =>
    have := decidableCuts p rs (pos - r.encode.length)
    inferInstanceAs (Decidable (if pos < r.encode.length then p r pos
      else Cuts p rs (pos - r.encode.length)))

theorem cuts_append (p : WireRecord → ℕ → Prop) (ds rs : List WireRecord) (pos : ℕ) :
    Cuts p (ds ++ rs) ((WireRecord.encodeAll ds).length + pos) ↔ Cuts p rs pos := by
  induction ds with
  | nil => simp
  | cons r ds ih =>
    have hsub : r.encode.length + (WireRecord.encodeAll ds).length + pos - r.encode.length =
        (WireRecord.encodeAll ds).length + pos := by omega
    rw [List.cons_append, Cuts, WireRecord.encodeAll_cons, List.length_append, if_neg (by omega),
      hsub, ih]

theorem cuts_cons_of_lt (p : WireRecord → ℕ → Prop) {r : WireRecord} {pos : ℕ}
    (h : pos < r.encode.length) (rs : List WireRecord) : Cuts p (r :: rs) pos ↔ p r pos := by
  rw [Cuts, if_pos h]

theorem not_cuts_zero {p : WireRecord → ℕ → Prop} (hp : ∀ r, ¬ p r 0) (rs : List WireRecord) :
    ¬ Cuts p rs 0 := by
  cases rs with
  | nil => exact id
  | cons r rs =>
    rw [cuts_cons_of_lt p (by rw [WireRecord.length_encode]; omega)]
    exact hp r

/-- Where the reader is stuck, the bytes before it end in the record the cursor is in. -/
theorem cuts_iff_within (p : WireRecord → ℕ → Prop) {c : Cursor} (hv : c.Valid) {d fut : Bytes}
    (hu : c.unread = d ++ fut) (hs : c.Stuck d) {pos : ℕ}
    (hpos : pos + fut.length = (WireRecord.encodeAll c.stream).length) :
    Cuts p c.stream pos ↔ c.Within d p := by
  obtain ⟨ds, cur, todo⟩ := c
  have hlen := congrArg List.length hu
  cases cur with
  | none =>
    simp only [Cursor.stream, Option.map_none, Option.toList_none, List.nil_append, Cursor.unread,
      Cursor.Stuck, WireRecord.encodeAll_append, List.length_append] at hpos hs hlen ⊢
    obtain rfl : pos = (WireRecord.encodeAll ds).length + d.length := by omega
    rw [cuts_append]
    cases todo with
    | nil => exact Iff.rfl
    | cons r rs => exact cuts_cons_of_lt p (r := r) (by rw [WireRecord.length_encode]; omega) rs
  | some x =>
    obtain ⟨r, got⟩ := x
    obtain ⟨hle, -⟩ := hv r got rfl
    simp only [Cursor.stream, Option.map_some, Option.toList_some, List.cons_append,
      List.nil_append, Cursor.unread_some, Cursor.Stuck, WireRecord.encodeAll_append,
      WireRecord.encodeAll_cons, WireRecord.length_encode, List.length_append,
      List.length_drop] at hpos hs hlen ⊢
    obtain rfl : pos = (WireRecord.encodeAll ds).length + (Header.headerLen + got + d.length) := by
      rw [Header.headerLen]
      omega
    rw [cuts_append, cuts_cons_of_lt]
    · exact Iff.rfl
    · rw [WireRecord.length_encode, Header.headerLen]
      split at hs
      · subst hs
        simp only [List.length_nil]
        omega
      · omega

/-- Behind the cursor `c` the reader waits for the chunks `bs`. -/
def WaitsFor (c : Cursor) (bs : List Bytes) : Prop :=
  c.Valid ∧ ∃ d, c.unread = d ++ bs.flatten ∧ c.Stuck d

/-- A chunk boundary where the reader waits inside a record. -/
theorem WaitsFor.cuts_iff (p : WireRecord → ℕ → Prop) {c : Cursor} {as bs : List Bytes}
    (hw : WaitsFor c bs) (hcs : (as ++ bs).flatten = WireRecord.encodeAll c.stream) :
    ∃ d, c.unread = d ++ bs.flatten ∧ c.Stuck d ∧
      (Cuts p c.stream as.flatten.length ↔ c.Within d p) := by
  obtain ⟨hv, d, hu, hs⟩ := hw
  refine ⟨d, hu, hs, cuts_iff_within p hv hu hs ?_⟩
  rw [← List.length_append, ← List.flatten_append, hcs]

/-- **Reading to the end.** If steps keep `P`, and `parse_body` accepts each piece (a piece
that does not finish its record is the last of its chunk), then the whole stream is read
without a panic, whatever the chunks are. -/
theorem feedWith_cursor_total {rs : List WireRecord} (cs : List Bytes)
    (hcs : cs.flatten = WireRecord.encodeAll rs) {acc : τ} (hinit : P acc (.start rs))
    (hquiet : ∀ {acc c c'}, P acc c → c.Step none c' → P acc c')
    (hpiece : ∀ acc c r x c' bs, P acc c → c.Step (some (r, x)) c' → c.stream = rs →
      bs <:+ cs → (c'.cur.isSome → WaitsFor c' bs) →
      ∃ b, Record.parseBody x r.rtype = .ok b ∧
        ∀ h : Header, h.rtype = r.rtype → h.requestId = r.requestId → P (f acc ⟨h, b⟩) c') :
    ∃ acc', incremental.feedWith f acc .new [] cs = .ok (acc', .new, []) ∧
      P acc' ⟨rs, none, []⟩ := by
  by_cases hnil : cs = []
  · subst hnil
    obtain rfl := WireRecord.encodeAll_eq_nil hcs.symm
    exact ⟨acc, rfl, hinit⟩
  · have hstep : ∀ bs, bs <:+ cs → incremental.Preserves f (AtCursor P rs) bs.flatten := by
      rintro bs hbs acc s d ⟨c, hs, hv, rfl, hu, hP⟩
      rcases read_spec hv d bs.flatten hu with ⟨c', d', hst, hv', hu', -, hr⟩ |
        ⟨r, x, c', d', hst, hv', hu', hstuck, h, hty, hid, hr⟩
      · exact ⟨none, _, d', hr, c', hst.stream_eq.trans hs, hv', rfl, hu', hquiet hP hst⟩
      · obtain ⟨b, hb, hP'⟩ := hpiece _ _ _ _ _ bs hP hst hs hbs fun hcur => ⟨hv', d', hu', hstuck hcur⟩
        rw [hb] at hr
        exact ⟨_, _, d', hr, c', hst.stream_eq.trans hs, hv', rfl, hu', hP' h hty hid⟩
    have hat : AtCursor P rs acc .new ([] ++ cs.flatten) := by
      rw [List.nil_append, hcs]
      exact atCursor_start hinit
    obtain ⟨⟨acc', s', left'⟩, hf⟩ := Incremental.feedWith_total cs hstep acc .new [] hat
    obtain ⟨-, hlast⟩ :=
      Incremental.feedWith_ok_rule cs (fun bs hbs => (hstep bs hbs).ok) acc .new [] hat _ _ _ hf
    -- the last call of the last loop returned nothing, with nothing still to come
    obtain ⟨s₀, d₀, ⟨c₀, hs₀, hv₀, rfl, hu₀, hP₀⟩, hr₀⟩ := hlast hnil
    have hpiece₀ : ∀ {r x c'}, c₀.Step (some (r, x)) c' → (c'.cur.isSome → WaitsFor c' []) →
        ∃ b, Record.parseBody x r.rtype = .ok b := fun hst hw => by
      obtain ⟨b, hb, -⟩ := hpiece _ _ _ _ _ _ hP₀ hst hs₀ List.nil_suffix hw
      exact ⟨b, hb⟩
    rcases read_spec hv₀ d₀ [] (by simpa using hu₀) with ⟨c', d', hst, hv', hu', hstuck, hr⟩ |
      ⟨r, x, c', d', hst, hv', hu', hstuck, h, -, -, hr⟩
    · obtain ⟨rfl, rfl⟩ : s' = c'.reader ∧ left' = d' := by simpa using hr₀.symm.trans hr
      rw [List.append_nil] at hu'
      have hend := Cursor.finished hv' (hu' ▸ hstuck)
      rw [hst.stream_eq, hs₀] at hend
      subst hend
      exact ⟨acc', by rw [hf, ← hu']; rfl, hquiet hP₀ hst⟩
    · obtain ⟨b, hb⟩ := hpiece₀ hst fun hcur =>
        ⟨hv', d', by simpa using hu', hstuck hcur⟩
      have hr := hr₀.symm.trans hr
      rw [hb] at hr
      simp [Except.map] at hr

end RecordReader

end AsyncFcgi
