import AsyncFcgi.Fastcgi.RecordReader

/-!
# Two readers of records (`src/fastcgi.rs`)

`Record::read` waits for a whole record, `RecordReader::read` takes the header first and skips
the padding when it comes. On whole records they are the same reader, and they reject the same
ones: those of an unknown type, and those whose content `parse_body` panics on.

* `Record.reads`, `RecordReader.reads`: each takes one record per call.
* `readers_agree`: so they agree, record by record, and both stop in front of an incomplete one.
* `Record.read_cases`: there is nothing else in front of `Record::read` than an incomplete record,
  a header of an unknown type, or a whole record.
* `Record.drain_eq_ok`: what repeated `Record::read` leaves nothing of is a sequence of records.
-/

namespace AsyncFcgi

open Lib

/-- `try_from` takes the wire values only. -/
theorem RecordType.toU8_of_tryFrom {value : UInt8} {rtype : RecordType}
    (h : RecordType.tryFrom value = .ok rtype) : rtype.toU8 = value := by
  apply UInt8.toNat_inj.mp
  unfold tryFrom at h
  split at h
  all_goals
    cases h
    try exact Eq.symm ‹_›

/-- A record as it may come: with any type byte. -/
structure RawRecord where
  version : UInt8
  rtype : UInt8
  requestId : UInt16
  reserved : UInt8
  content : Bytes
  padding : Bytes
  content_le : content.length ≤ 0xffff
  padding_le : padding.length ≤ 0xff
  deriving Repr

namespace RawRecord

/-- The bytes of the record. -/
def encode (r : RawRecord) : Bytes :=
  [r.version, r.rtype] ++ beU16 r.requestId ++ beU16 (UInt16.ofNat r.content.length) ++
    [UInt8.ofNat r.padding.length, r.reserved] ++ (r.content ++ r.padding)

def encodeAll (rs : List RawRecord) : Bytes := (rs.map encode).flatten

/-- The record, of a known type. -/
def typed (r : RawRecord) (rtype : RecordType) : WireRecord := { r with rtype }

/-- What the code makes of a record: a panic for an unknown type, or for a content that
`parse_body` does not take. -/
def parse (r : RawRecord) : Except Fault Record := do
  let rtype ← RecordType.tryFrom r.rtype
  let body ← Record.parseBody r.content rtype
  .ok { header := (r.typed rtype).header, body }

theorem encode_typed {r : RawRecord} {rtype : RecordType}
    (h : RecordType.tryFrom r.rtype = .ok rtype) : (r.typed rtype).encode = r.encode := by
  rw [encode, ← RecordType.toU8_of_tryFrom h]
  rfl

theorem parse_unknown {r : RawRecord} {f : Fault} (h : RecordType.tryFrom r.rtype = .error f)
    (rest : Bytes) : Header.parse (r.encode ++ rest) = .error f := by
  simp only [encode, List.append_assoc, List.cons_append, List.nil_append, Header.parse,
    getU8_cons, ok_bind, h, error_bind]

theorem eight_le_length (r : RawRecord) : 8 ≤ r.encode.length := by
  simp [encode]
  omega

end RawRecord

/-- `RecordReader::read` at the start of a record that is there as a whole. -/
theorem WireRecord.reader_encode (r : WireRecord) (rest : Bytes) :
    RecordReader.new.read (r.encode ++ rest) =
      (Record.parseBody r.content r.rtype).map
        fun body => (some { header := r.header, body }, .new, rest) := by
  have hlen : (r.content ++ (r.padding ++ rest)).length ≥ r.content.length := by simp
  rw [RecordReader.read, RecordReader.new, if_neg (by simp; omega), encode, List.append_assoc,
    parse_headerBytes, ok_bind, List.append_assoc]
  unfold RecordReader.readBody
  simp only [toNat_contentLength]
  rw [if_neg (by omega), RecordReader.deliver_eq, toNat_paddingLength, if_neg (by simp),
    List.drop_left]
  rfl

theorem Record.reads : Record.incremental.Reads () RawRecord.encode RawRecord.parse := by
  intro r rest
  show (Record.read _).map _ = _
  cases htype : RecordType.tryFrom r.rtype with
  | error f =>
    have hlen := r.eight_le_length
    rw [Record.read, if_neg (by simp; omega), RawRecord.parse_unknown htype, RawRecord.parse, htype]
    rfl
  | ok rtype =>
    rw [← RawRecord.encode_typed htype, WireRecord.read_encode, RawRecord.parse, htype, ok_bind]
    show Except.map _ (Except.map _ (Record.parseBody r.content rtype)) = _
    cases Record.parseBody r.content rtype <;> rfl

theorem RecordReader.reads :
    RecordReader.incremental.Reads .new RawRecord.encode RawRecord.parse := by
  intro r rest
  show RecordReader.new.read (r.encode ++ rest) = _
  cases htype : RecordType.tryFrom r.rtype with
  | error f =>
    have hlen := r.eight_le_length
    rw [RecordReader.read, RecordReader.new, if_neg (by simp; omega),
      RawRecord.parse_unknown htype, RawRecord.parse, htype]
    rfl
  | ok rtype =>
    rw [← RawRecord.encode_typed htype, WireRecord.reader_encode, RawRecord.parse, htype, ok_bind]
    show Except.map _ (Record.parseBody r.content rtype) = _
    cases Record.parseBody r.content rtype <;> rfl

/-! ### Everything `Record::read` can see -/

theorem beU16_ofNat (a b : UInt8) : beU16 (UInt16.ofNat (a.toNat * 2 ^ 8 + b.toNat)) = [a, b] := by
  have ha := a.toNat_lt
  have hb := b.toNat_lt
  have hn : (UInt16.ofNat (a.toNat * 2 ^ 8 + b.toNat)).toNat = a.toNat * 2 ^ 8 + b.toNat := by
    rw [UInt16.toNat_ofNat']
    omega
  have hhigh : UInt8.ofNat ((a.toNat * 2 ^ 8 + b.toNat) / 2 ^ 8) = a := by
    rw [show (a.toNat * 2 ^ 8 + b.toNat) / 2 ^ 8 = a.toNat by omega, UInt8.ofNat_toNat]
  have hlow : UInt8.ofNat (a.toNat * 2 ^ 8 + b.toNat) = b := by
    apply UInt8.toNat_inj.mp
    rw [UInt8.toNat_ofNat']
    omega
  rw [beU16, hn, hhigh, hlow]

namespace Record

/-- Less than a record; a header of an unknown type; or a whole record with anything behind it. -/
theorem read_cases (d : Bytes) : read d = .ok (none, d) ∨
    (∃ f, ∀ e, read (d ++ e) = .error f) ∨ ∃ (r : RawRecord) (rest : Bytes), d = r.encode ++ rest := by
  match d with
  | [] | [_] | [_, _] | [_, _, _] | [_, _, _, _] | [_, _, _, _, _] | [_, _, _, _, _, _]
  | [_, _, _, _, _, _, _] => exact Or.inl rfl
  | version :: ty :: id₁ :: id₀ :: len₁ :: len₀ :: pad :: reserved :: d =>
    generalize hlen : UInt16.ofNat (len₁.toNat * 2 ^ 8 + len₀.toNat) = len
    cases htype : RecordType.tryFrom ty with
    | error f =>
      refine Or.inr (Or.inl ⟨f, fun e => ?_⟩)
      rw [read, if_neg (by simp)]
      simp only [List.cons_append, Header.parse, getU8_cons, ok_bind, htype, error_bind]
    | ok rtype =>
      have hparse : Header.parse
          (version :: ty :: id₁ :: id₀ :: len₁ :: len₀ :: pad :: reserved :: d) =
          .ok (⟨version, rtype, UInt16.ofNat (id₁.toNat * 2 ^ 8 + id₀.toNat), len, pad⟩, d) := by
        have h := Header.parse_cons
          ⟨version, rtype, UInt16.ofNat (id₁.toNat * 2 ^ 8 + id₀.toNat), len, pad⟩ reserved d
        simp only [RecordType.toU8_of_tryFrom htype, ← hlen, beU16_ofNat] at h
        rw [← hlen]
        exact h
      by_cases hshort : d.length < len.toNat + pad.toNat
      · left
        rw [read, if_neg (by simp), hparse, ok_bind]
        simp only [List.length_cons]
        rw [if_pos (by omega)]
      · have hlenle := len.toNat_lt
        have hpadle := pad.toNat_lt
        have hcontent : (d.take len.toNat).length = len.toNat := by
          rw [List.length_take]
          omega
        have hpadding : ((d.drop len.toNat).take pad.toNat).length = pad.toNat := by
          rw [List.length_take, List.length_drop]
          omega
        refine Or.inr (Or.inr ⟨⟨version, ty, UInt16.ofNat (id₁.toNat * 2 ^ 8 + id₀.toNat), reserved,
          d.take len.toNat, (d.drop len.toNat).take pad.toNat, by omega, by omega⟩,
          d.drop (len.toNat + pad.toNat), ?_⟩)
        have hrest : d.take len.toNat ++ ((d.drop len.toNat).take pad.toNat ++
            d.drop (len.toNat + pad.toNat)) = d := by
          rw [← List.drop_drop, List.take_append_drop, List.take_append_drop]
        have hlenBytes : beU16 len = [len₁, len₀] := by rw [← hlen, beU16_ofNat]
        simp only [RawRecord.encode, hcontent, hpadding, UInt16.ofNat_toNat, UInt8.ofNat_toNat,
          beU16_ofNat, hlenBytes, List.append_assoc, List.cons_append, List.nil_append]
        rw [hrest]

theorem incremental_cases (d : Bytes) : incremental.read () d = .ok (none, (), d) ∨
    (∃ f, ∀ e, incremental.read () (d ++ e) = .error f) ∨
    ∃ (r : RawRecord) (rest : Bytes), d = r.encode ++ rest := by
  have hmap : ∀ d, incremental.read () d = (read d).map fun x => (x.1, (), x.2) := fun _ => rfl
  rcases read_cases d with hnone | ⟨f, hf⟩ | hwhole
  · exact Or.inl (by rw [hmap, hnone]; rfl)
  · exact Or.inr (Or.inl ⟨f, fun e => by rw [hmap, hf]; rfl⟩)
  · exact Or.inr (Or.inr hwhole)

/-- `Record::read` leaves what is not a whole record as it is, and does not look behind one. -/
theorem waits : incremental.Waits where
  none_eq {_ d _ d'} h := by
    refine ⟨rfl, ?_⟩
    rcases incremental_cases d with hnone | ⟨f, hf⟩ | ⟨r, rest, rfl⟩
    · rw [hnone] at h
      cases h
      rfl
    · have hd := hf []
      rw [List.append_nil, h] at hd
      cases hd
    · rw [reads r rest] at h
      cases hr : r.parse <;> rw [hr] at h <;> cases h
  some_append {_ d rec _ d'} h e := by
    rcases incremental_cases d with hnone | ⟨f, hf⟩ | ⟨r, rest, rfl⟩
    · rw [hnone] at h
      cases h
    · have hd := hf []
      rw [List.append_nil, h] at hd
      cases hd
    · rw [reads r rest] at h
      rw [List.append_assoc, reads r (rest ++ e)]
      cases hr : r.parse <;> rw [hr] at h <;> cases h
      rfl
  error_append {_ d f} h e := by
    rcases incremental_cases d with hnone | ⟨f', hf⟩ | ⟨r, rest, rfl⟩
    · rw [hnone] at h
      cases h
    · have hd := hf []
      rw [List.append_nil, h] at hd
      rw [hf e, ← Except.error.inj hd]
    · rw [reads r rest] at h
      rw [List.append_assoc, reads r (rest ++ e)]
      cases hr : r.parse <;> rw [hr] at h <;> cases h
      rfl

@[simp] theorem drain_nil : incremental.drain () [] = .ok ([], (), []) := by
  have hread : incremental.read () [] = .ok (none, (), []) := rfl
  exact Incremental.drain_none hread

/-- Where repeated `Record::read` leaves nothing, there were records, and none was rejected. -/
theorem drain_eq_ok {d : Bytes} {recs : List Record} :
    incremental.drain () d = .ok (recs, (), []) ↔
      ∃ rs, d = RawRecord.encodeAll rs ∧ rs.mapM RawRecord.parse = .ok recs := by
  constructor
  · generalize hs : () = s
    induction s, d using Incremental.drain_induction (I := incremental) generalizing recs with
    | error s d f hr =>
      intro h
      rw [Incremental.drain_error hr] at h
      cases h
    | none s d s' d' hr =>
      intro h
      obtain ⟨-, rfl⟩ := waits.none_eq hr
      rw [Incremental.drain_none hr] at h
      cases h
      exact ⟨[], rfl, rfl⟩
    | some s d rec s' d' hr ih =>
      intro h
      rw [Incremental.drain_some hr] at h
      cases hrest : incremental.drain s' d' with
      | error f =>
        rw [hrest] at h
        cases h
      | ok x =>
        obtain ⟨recs', s'', d''⟩ := x
        rw [hrest] at h
        cases h
        obtain ⟨rs, hd', hrs⟩ := ih rfl hrest
        -- the item is that of a whole record
        rcases incremental_cases d with hnone | ⟨f, hf⟩ | ⟨r, rest, rfl⟩
        · rw [hnone] at hr
          cases hr
        · have hd := hf []
          rw [List.append_nil, hr] at hd
          cases hd
        · rw [reads r rest] at hr
          cases hp : r.parse with
          | error f =>
            rw [hp] at hr
            cases hr
          | ok rec' =>
            rw [hp] at hr
            cases hr
            refine ⟨r :: rs, ?_, ?_⟩
            · rw [hd']
              rfl
            · rw [List.mapM_cons, hp, hrs]
              rfl
  · rintro ⟨rs, rfl, hrs⟩
    have hnone : incremental.read () [] = .ok (none, (), []) := rfl
    have hdrain := reads.drain_eq hnone rs
    rw [List.append_nil, hrs] at hdrain
    exact hdrain

end Record

/-- Less than a header, or less than the record that a header of a known type announces. -/
def Incomplete (tail : Bytes) : Prop :=
  tail.length < 8 ∨ ∃ r : WireRecord, tail <+: r.encode ∧ tail.length < r.encode.length

theorem Incomplete.read {tail : Bytes} (h : Incomplete tail) :
    Record.read tail = .ok (none, tail) := by
  rcases h with hlt | ⟨r, hpre, hlt⟩
  · rw [Record.read, if_pos hlt]
  · exact WireRecord.read_short r hpre hlt

/-- **The two readers agree.** Whole records with any type bytes, lengths and paddings, and an
incomplete one behind them: the first `n` calls of `Record::read` and of a fresh
`RecordReader::read` return the same `n` records and leave the same bytes, or panic at the same
record. Where no record is rejected, repeated `Record::read` ends in front of the incomplete one. -/
theorem readers_agree (rs : List RawRecord) {tail : Bytes} (htail : Incomplete tail) :
    (∀ n ≤ rs.length,
      Record.incremental.take n () (RawRecord.encodeAll rs ++ tail) =
          ((rs.take n).mapM RawRecord.parse).map
            (fun recs => (recs, (), RawRecord.encodeAll (rs.drop n) ++ tail)) ∧
        RecordReader.incremental.take n .new (RawRecord.encodeAll rs ++ tail) =
          ((rs.take n).mapM RawRecord.parse).map
            (fun recs => (recs, .new, RawRecord.encodeAll (rs.drop n) ++ tail))) ∧
      Record.read tail = .ok (none, tail) ∧
      ∀ recs, rs.mapM RawRecord.parse = .ok recs →
        Record.incremental.drain () (RawRecord.encodeAll rs ++ tail) = .ok (recs, (), tail) ∧
          RecordReader.incremental.take rs.length .new (RawRecord.encodeAll rs ++ tail) =
            .ok (recs, .new, tail) := by
  have hnone : Record.incremental.read () tail = .ok (none, (), tail) := by
    show (Record.read tail).map _ = _
    rw [htail.read]
    rfl
  refine ⟨fun n hn => ⟨Record.reads.take_eq tail n hn, RecordReader.reads.take_eq tail n hn⟩,
    htail.read, fun recs hrecs => ⟨?_, ?_⟩⟩
  · have hdrain := Record.reads.drain_eq hnone rs
    rw [hrecs] at hdrain
    exact hdrain
  · have htake := RecordReader.reads.take_eq tail rs.length le_rfl
    rw [List.take_length, List.drop_length, hrecs] at htake
    exact htake

/-- A padded STDOUT record, and one of the unknown type 99. -/
def outputThenUnknown : List RawRecord :=
  [⟨1, 6, 1, 0, [104, 105], [0, 0, 0, 0, 0, 0], by decide, by decide⟩,
    ⟨1, 99, 0, 0, [], [], noContent_le, noPadding_le⟩]

theorem readers_agree_outputThenUnknown :
    (∀ n ≤ outputThenUnknown.length,
      Record.incremental.take n () (RawRecord.encodeAll outputThenUnknown ++ [1, 6, 0]) =
          ((outputThenUnknown.take n).mapM RawRecord.parse).map
            (fun recs => (recs, (), RawRecord.encodeAll (outputThenUnknown.drop n) ++ [1, 6, 0])) ∧
        RecordReader.incremental.take n .new
            (RawRecord.encodeAll outputThenUnknown ++ [1, 6, 0]) =
          ((outputThenUnknown.take n).mapM RawRecord.parse).map
            (fun recs =>
              (recs, .new, RawRecord.encodeAll (outputThenUnknown.drop n) ++ [1, 6, 0]))) ∧
      Record.read [1, 6, 0] = .ok (none, [1, 6, 0]) ∧
      ∀ recs, outputThenUnknown.mapM RawRecord.parse = .ok recs →
        Record.incremental.drain () (RawRecord.encodeAll outputThenUnknown ++ [1, 6, 0]) =
            .ok (recs, (), [1, 6, 0]) ∧
          RecordReader.incremental.take outputThenUnknown.length .new
              (RawRecord.encodeAll outputThenUnknown ++ [1, 6, 0]) =
            .ok (recs, .new, [1, 6, 0]) :=
  readers_agree outputThenUnknown (Or.inl (by decide))

end AsyncFcgi
