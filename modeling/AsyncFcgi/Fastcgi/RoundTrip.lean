import AsyncFcgi.Fastcgi.Record

/-!
# Name-value bodies: written, read back, drained

`NVDrain` and the round trip `to_record`, `append`, `Record::read`, `drain`.

* `add_eq`, `add_full`: `NVBody::add` accepts a pair exactly if it `fits`, and then adds its
  encoding; a refused pair changes nothing.
* `collect_short`, `collect_long`: draining encodings gives the pairs back if every name
  and value is shorter than `0x80` bytes, and panics otherwise.
* `nvBody_roundTrip_iff`: the round trip returns the pairs exactly in the first case.
-/

namespace AsyncFcgi

open Lib

/-! ## `NVBody::add` -/

namespace NVBody

/-- The bytes held by a body are counted by `len`, and no buffer is empty. -/
structure Inv (b : NVBody) : Prop where
  len_eq : b.len.toNat = b.pairs.flatten.length
  nonEmpty : b.pairs.NonEmpty

theorem inv_new : new.Inv := ⟨rfl, BufList.nonEmpty_new⟩

theorem addLengths_eq {ln lv : ℕ} (hn : ln < 2 ^ 31) (hv : lv < 2 ^ 31) :
    addLengths (if ln > 0x7f then ln ||| 0x80000000 else ln)
      (if lv > 0x7f then lv ||| 0x80000000 else lv) = lengthPrefix ln ++ lengthPrefix lv := by
  rw [addLengths, lengthPrefix_eq_add hn, lengthPrefix_eq_add hv]

theorem lengthPrefix_ne_nil (n : ℕ) : lengthPrefix n ≠ [] := by
  have := NameValuePair.length_lengthPrefix n
  intro h
  rw [h] at this
  split at this <;> simp at this

/-- The buffers that `add` pushes: there is none for an empty value. -/
def pushed (p : NameValuePair) : List Bytes :=
  [lengthPrefix p.nameData.length ++ lengthPrefix p.valueData.length, p.nameData] ++
    if p.valueData = [] then [] else [p.valueData]

@[simp] theorem flatten_pushed (p : NameValuePair) : (pushed p).flatten = p.encode := by
  rw [pushed, List.flatten_append]
  split
  · rename_i hvalue
    simp [NameValuePair.encode, hvalue]
  · simp [NameValuePair.encode]

theorem pushed_nonEmpty (p : NameValuePair) :
    (∀ b ∈ pushed p, b ≠ []) ↔ p.nameData ≠ [] := by
  constructor
  · intro h
    exact h p.nameData (List.mem_append_left _ (List.mem_cons_of_mem _ List.mem_cons_self))
  · intro hname b hb
    rcases List.mem_append.mp hb with hb | hb
    · rcases List.mem_pair.mp hb with rfl | rfl
      · simp [lengthPrefix_ne_nil]
      · exact hname
    · split at hb
      · cases hb
      · rename_i hvalue
        rwa [List.mem_singleton.mp hb]

/-- A pair that fits is added, also one without a name. -/
theorem add_eq {self : NVBody} {p : NameValuePair} (hfits : self.fits p = true) :
    self.add p =
      (⟨⟨self.pairs.bufs ++ pushed p⟩, UInt16.ofNat (p.len + self.len.toNat)⟩, .ok ()) := by
  simp only [fits, decide_eq_true_eq] at hfits
  have hlen := p.sum_le_len
  have hmax : maxLength = 0xffff := rfl
  -- the three checks behind the length update cannot fail
  have hsum : ¬ p.nameData.length + p.valueData.length > maxLength := by omega
  have hn : ¬ (p.nameData.length > 0x7f ∧ p.nameData.length > 0x7fffffff) := by omega
  have hv : ¬ (p.valueData.length > 0x7f ∧ p.valueData.length > 0x7fffffff) := by omega
  unfold add
  simp only [if_neg (show ¬ p.len + self.len.toNat > maxLength by omega), if_neg hsum, if_neg hn,
    if_neg hv, addLengths_eq (show p.nameData.length < 2 ^ 31 by omega)
      (show p.valueData.length < 2 ^ 31 by omega)]
  -- an empty value is not pushed
  by_cases hvalue : p.valueData = []
  · simp [pushed, hvalue, BufList.push]
  · have hpos : (if p.valueData.length > 0x7f then p.valueData.length ||| 0x80000000
        else p.valueData.length) > 0 := by
      have := List.length_pos_iff.mpr hvalue
      split
      · rw [or_top_bit (by omega)]; omega
      · exact this
    simp [if_pos hpos, pushed, hvalue, BufList.push]

theorem add_fits {self : NVBody} {p : NameValuePair} (hname : p.nameData ≠ [])
    (hinv : self.Inv) (hfits : self.fits p = true) :
    ∃ self', self.add p = (self', .ok ()) ∧ self'.Inv ∧
      self'.pairs.flatten = self.pairs.flatten ++ p.encode := by
  have hflat : (self.pairs.bufs ++ pushed p).flatten = self.pairs.flatten ++ p.encode := by
    rw [List.flatten_append, flatten_pushed]
    rfl
  refine ⟨_, add_eq hfits, ⟨?_, fun b hb => ?_⟩, hflat⟩
  · simp only [fits, decide_eq_true_eq] at hfits
    have hmax : maxLength = 0xffff := rfl
    show (UInt16.ofNat (p.len + self.len.toNat)).toNat = (self.pairs.bufs ++ pushed p).flatten.length
    rw [UInt16.toNat_ofNat', Nat.mod_eq_of_lt (by omega), hinv.len_eq, hflat, List.length_append,
      p.length_encode]
    exact Nat.add_comm _ _
  · rcases List.mem_append.mp hb with hb | hb
    · exact hinv.nonEmpty b hb
    · exact (pushed_nonEmpty p).mpr hname b hb

/-- A pair that does not fit is refused, and the body stays as it was. -/
theorem add_full {self : NVBody} {p : NameValuePair} (hfits : self.fits p = false) :
    self.add p = (self, .error ()) := by
  simp only [fits, decide_eq_false_iff_not] at hfits
  unfold add
  rw [if_pos (by omega)]

theorem addAll_eq : ∀ (ps : List NameValuePair) (self body : NVBody),
    (∀ p ∈ ps, p.nameData ≠ []) → self.Inv → self.addAll ps = some body →
      body.Inv ∧ body.pairs.flatten = self.pairs.flatten ++ (ps.map NameValuePair.encode).flatten
  | [], self, body, _, hinv, h => by
    simp only [addAll, Option.some.injEq] at h
    subst h
    exact ⟨hinv, by simp⟩
  | p :: ps, self, body, hnames, hinv, h => by
    cases hfits : self.fits p with
    | false => simp [addAll, add_full hfits] at h
    | true =>
      obtain ⟨self', hadd, hinv', hflat⟩ := add_fits (hnames p (by simp)) hinv hfits
      simp only [addAll, hadd] at h
      obtain ⟨hb, hbf⟩ := addAll_eq ps self' body (fun q hq => hnames q (by simp [hq])) hinv' h
      exact ⟨hb, by rw [hbf, hflat]; simp⟩

theorem drain_eq {self : NVBody} (hinv : self.Inv) : self.drain = .ok self.pairs.flatten := by
  have hle : self.len.toNat ≤ self.pairs.remaining := by rw [hinv.len_eq, BufList.remaining_eq]
  obtain ⟨rest, hcopy, -, -⟩ := BufList.copyToBytes_eq hinv.nonEmpty hle
  rw [drain, hcopy, hinv.len_eq, List.take_length]
  rfl

/-- `from_bytes` of a record content, drained. -/
theorem drain_fromBytes {buf : Bytes} (h : buf.length ≤ 0xffff) :
    (fromBytes buf).drain = .ok buf := by
  have hlen : (UInt16.ofNat buf.length).toNat = buf.length := by
    rw [UInt16.toNat_ofNat']; omega
  rcases Nat.eq_zero_or_pos buf.length with h0 | hpos
  · rw [List.length_eq_zero_iff.mp h0]
    exact drain_eq inv_new
  · have hgt : UInt16.ofNat buf.length > 0 := by
      rw [gt_iff_lt, UInt16.lt_iff_toNat_lt, hlen]
      simpa using hpos
    have hinv : (fromBytes buf).Inv := by
      rw [fromBytes, if_pos hgt]
      exact ⟨by simp [hlen], BufList.nonEmpty_new.push (List.length_pos_iff.mp hpos)⟩
    rw [drain_eq hinv, fromBytes, if_pos hgt]
    simp

end NVBody

/-! ## `NameValuePair::parse` of encodings -/

namespace NameValuePair

/-- The pair's lengths are written in one byte each. -/
def Short (p : NameValuePair) : Prop := p.nameData.length ≤ 0x7f ∧ p.valueData.length ≤ 0x7f

instance (p : NameValuePair) : Decidable p.Short := by unfold Short; infer_instance

theorem parse_short {p : NameValuePair} (h : p.Short) (rest : Bytes) :
    parse (p.encode ++ rest) = .ok (p, rest) := by
  obtain ⟨hn, hv⟩ := h
  obtain ⟨name, value⟩ := p
  simp only at hn hv
  have hk : (lengthPrefix name.length).length = 1 := by
    rw [length_lengthPrefix, if_neg (by omega)]
  have hl : (lengthPrefix value.length).length = 1 := by
    rw [length_lengthPrefix, if_neg (by omega)]
  have h1 := paramLength_short [] (lengthPrefix value.length ++ name ++ value ++ rest) hn
  have h2 := paramLength_short (lengthPrefix name.length) (name ++ value ++ rest) hv
  have hkey : slice (encode ⟨name, value⟩ ++ rest) 2 (2 + name.length) = .ok name := by
    rw [slice, if_pos (by simp [encode, hk, hl]; omega), encode]
    simp only [List.append_assoc]
    rw [← List.append_assoc, List.drop_left' (by simp [hk, hl])]
    simp
  have hval : slice (encode ⟨name, value⟩ ++ rest) (2 + name.length)
      (2 + name.length + value.length) = .ok value := by
    rw [slice, if_pos (by simp [encode, hk, hl]; omega), encode]
    rw [List.append_assoc _ value rest, List.drop_left' (by simp [hk, hl]; omega)]
    simp
  have hadv : advance (encode ⟨name, value⟩ ++ rest) (2 + name.length + value.length) =
      .ok rest := by
    have hlen : (encode ⟨name, value⟩).length = 2 + name.length + value.length := by
      simp [encode, hk, hl]; omega
    rw [← hlen, advance_append]
  simp only [List.nil_append, List.length_nil, Nat.zero_add, hk, Nat.reduceAdd] at h1 h2
  have e1 : lengthPrefix name.length ++ (lengthPrefix value.length ++ name ++ value ++ rest) =
      encode ⟨name, value⟩ ++ rest := by simp [encode]
  have e2 : lengthPrefix name.length ++ lengthPrefix value.length ++ (name ++ value ++ rest) =
      encode ⟨name, value⟩ ++ rest := by simp [encode]
  rw [e1] at h1
  rw [e2] at h2
  simp only [parse, h1, h2, hkey, hval, hadv, ok_bind]

/-- A long name or value makes `parse` panic. -/
theorem parse_long {p : NameValuePair} (h : ¬ p.Short) (hn : p.nameData.length < 2 ^ 31)
    (hv : p.valueData.length < 2 ^ 31) (rest : Bytes) :
    parse (p.encode ++ rest) = .error .outOfBounds := by
  obtain ⟨name, value⟩ := p
  simp only [Short, not_and_or, not_le] at h hn hv
  have e1 : lengthPrefix name.length ++ (lengthPrefix value.length ++ name ++ value ++ rest) =
      encode ⟨name, value⟩ ++ rest := by simp [encode]
  have e2 : lengthPrefix name.length ++ lengthPrefix value.length ++ (name ++ value ++ rest) =
      encode ⟨name, value⟩ ++ rest := by simp [encode]
  by_cases hname : 0x7f < name.length
  · have h1 := paramLength_long [] (lengthPrefix value.length ++ name ++ value ++ rest) hname hn
    simp only [List.nil_append, List.length_nil, e1] at h1
    simp only [parse, h1, error_bind]
  · have hk : (lengthPrefix name.length).length = 1 := by
      rw [length_lengthPrefix, if_neg (by omega)]
    have h1 := paramLength_short [] (lengthPrefix value.length ++ name ++ value ++ rest)
      (show name.length ≤ 0x7f by omega)
    have h2 := paramLength_long (lengthPrefix name.length) (name ++ value ++ rest)
      (h.resolve_left hname) hv
    simp only [List.nil_append, List.length_nil, Nat.zero_add, hk, e1, e2] at h1 h2
    simp only [parse, h1, ok_bind, h2, error_bind]

theorem paramLength_pos {data : Bytes} {pos n pos' : ℕ}
    (h : paramLength data pos = .ok (n, pos')) : pos < pos' := by
  unfold paramLength at h
  obtain ⟨b, -, h⟩ := bind_eq_ok.mp h
  split at h
  · obtain ⟨s, -, h⟩ := bind_eq_ok.mp h
    obtain ⟨⟨v, s'⟩, -, h⟩ := bind_eq_ok.mp h
    simp only [Except.ok.injEq, Prod.mk.injEq] at h
    omega
  · simp only [Except.ok.injEq, Prod.mk.injEq] at h
    omega

/-- `parse` uses up at least one byte. -/
theorem parse_length_lt {data rest : Bytes} {p : NameValuePair}
    (h : parse data = .ok (p, rest)) : rest.length < data.length := by
  unfold parse at h
  obtain ⟨⟨k, pos⟩, h1, h⟩ := bind_eq_ok.mp h
  obtain ⟨⟨v, pos'⟩, h2, h⟩ := bind_eq_ok.mp h
  obtain ⟨key, -, h⟩ := bind_eq_ok.mp h
  obtain ⟨value, -, h⟩ := bind_eq_ok.mp h
  obtain ⟨left, hadv, h⟩ := bind_eq_ok.mp h
  simp only [Except.ok.injEq, Prod.mk.injEq] at h
  have hp := paramLength_pos h1
  have hp' := paramLength_pos h2
  unfold advance at hadv
  split at hadv
  · simp only [Except.ok.injEq] at hadv
    rw [← h.2, ← hadv, List.length_drop]
    simp only at *
    omega
  · cases hadv

end NameValuePair

/-! ## `NVDrain` -/

/-- `NVDrain::next` (lines 609–614). -/
def NVDrain.next (self : Bytes) : Except Fault (Option NameValuePair × Bytes) :=
  if self.length = 0 then .ok (none, self)
  else (NameValuePair.parse self).map fun x => (some x.1, x.2)

/-- `NVDrain` as an incremental reader. -/
def NVDrain.reader : Incremental Fault Unit UInt8 NameValuePair where
  read _ d := (NVDrain.next d).map fun x => (x.1, (), x.2)
  size _ d := d.length
  size_lt := by
    intro s d r s' d' h
    unfold NVDrain.next at h
    split at h
    · cases h
    · cases hp : NameValuePair.parse d with
      | error e => rw [hp] at h; cases h
      | ok x =>
        rw [hp] at h
        simp only [Except.map, Except.ok.injEq, Prod.mk.injEq] at h
        rw [← h.2.2]
        exact NameValuePair.parse_length_lt hp

/-- Collecting an `NVDrain`. -/
def NVDrain.collect (self : Bytes) : Except Fault (List NameValuePair) :=
  (NVDrain.reader.drain () self).map Prod.fst

namespace NVDrain

theorem collect_nil : collect [] = .ok [] := by
  have h : NVDrain.reader.read () [] = .ok (none, (), []) := rfl
  rw [collect, Incremental.drain_none h]
  rfl

theorem encode_ne_nil (p : NameValuePair) (rest : Bytes) : ¬ (p.encode ++ rest).length = 0 := by
  have hlen := p.length_encode
  have hsum := p.sum_le_len
  rw [List.length_append]
  omega

theorem read_short {p : NameValuePair} (h : p.Short) (rest : Bytes) :
    NVDrain.reader.read () (p.encode ++ rest) = .ok (some p, (), rest) := by
  simp only [NVDrain.reader, NVDrain.next]
  rw [if_neg (encode_ne_nil p rest), NameValuePair.parse_short h]
  rfl

theorem read_long {p : NameValuePair} (h : ¬ p.Short) (hlen : p.len ≤ maxLength) (rest : Bytes) :
    NVDrain.reader.read () (p.encode ++ rest) = .error .outOfBounds := by
  have hsum := p.sum_le_len
  have hmax : maxLength = 0xffff := rfl
  simp only [NVDrain.reader, NVDrain.next]
  rw [if_neg (encode_ne_nil p rest), NameValuePair.parse_long h (by omega) (by omega)]
  rfl

theorem collect_short_cons {p : NameValuePair} (h : p.Short) (rest : Bytes) :
    collect (p.encode ++ rest) = (collect rest).map (p :: ·) := by
  rw [collect, Incremental.drain_some (read_short h rest), collect]
  cases NVDrain.reader.drain () rest <;> rfl

theorem collect_long_cons {p : NameValuePair} (h : ¬ p.Short) (hlen : p.len ≤ maxLength)
    (rest : Bytes) : collect (p.encode ++ rest) = .error .outOfBounds := by
  rw [collect, Incremental.drain_error (read_long h hlen rest)]
  rfl

/-- Short pairs are all given back, in order. -/
theorem collect_short {ps : List NameValuePair} (h : ∀ p ∈ ps, p.Short) :
    collect (ps.map NameValuePair.encode).flatten = .ok ps := by
  induction ps with
  | nil => exact collect_nil
  | cons p ps ih =>
    rw [List.map_cons, List.flatten_cons, collect_short_cons (h p (by simp)),
      ih fun q hq => h q (by simp [hq])]
    rfl

/-- One long name or value makes the whole drain panic. -/
theorem collect_long {ps : List NameValuePair} (hlen : ∀ p ∈ ps, p.len ≤ maxLength)
    (h : ¬ ∀ p ∈ ps, p.Short) :
    collect (ps.map NameValuePair.encode).flatten = .error .outOfBounds := by
  induction ps with
  | nil => exact absurd (by simp) h
  | cons p ps ih =>
    rw [List.map_cons, List.flatten_cons]
    by_cases hp : p.Short
    · have htail : ¬ ∀ q ∈ ps, q.Short := fun hall => h (by simpa using ⟨hp, hall⟩)
      rw [collect_short_cons hp, ih (fun q hq => hlen q (by simp [hq])) htail]
      rfl
    · exact collect_long_cons hp (hlen p (by simp)) _

end NVDrain

/-! ## The round trip -/

/-- Writes a body as one record, reads the record back, and drains its body. The result
is the pairs, and what `Record::read` left of the written bytes. -/
def nvRoundTrip (A : Allocator) (body : NVBody) (rtype : RecordType) (requestId : UInt16)
    (buf : BytesMut) : Except Fault (Option (List NameValuePair) × Bytes) := do
  let record ← body.toRecord rtype requestId
  let out ← record.append A buf
  let (back, rest) ← Record.read (out.bytes.drop buf.bytes.length)
  match back.bind fun r => r.body.nv? with
  | none => .ok (none, rest)
  | some nvs =>
    let data ← nvs.drain
    let pairs ← NVDrain.collect data
    .ok (some pairs, rest)

/-- The record `to_record` and `append` put on the wire. -/
def nvWire (body : NVBody) (rtype : RecordType) (requestId : UInt16) (padding : Bytes)
    (hbody : body.Inv) (hpad : padding.length ≤ 0xff) : WireRecord where
  version := Header.version1
  rtype := rtype
  requestId := requestId
  reserved := 0
  content := body.pairs.flatten
  padding := padding
  content_le := by
    rw [← hbody.len_eq]
    have := body.len.toNat_lt
    omega
  padding_le := hpad

theorem toRecord_nv {rtype : RecordType} (h : rtype.IsNV) (body : NVBody) (id : UInt16) :
    ∃ r, body.toRecord rtype id = .ok r ∧ r.body.nv? = some body ∧
      r.header = Header.new rtype id body.len := by
  rcases h with rfl | rfl | rfl
  · exact ⟨_, rfl, rfl, rfl⟩
  · exact ⟨_, rfl, rfl, rfl⟩
  · exact ⟨_, rfl, rfl, rfl⟩

/-- What `append` adds: the header, the pairs and padding of any value. -/
theorem append_bytes (A : Allocator) {rtype : RecordType} {body : NVBody} (hbody : body.Inv)
    {id : UInt16} {r : Record} (hrnv : r.body.nv? = some body)
    (hrh : r.header = Header.new rtype id body.len) (buf : BytesMut) :
    r.append A buf = .error .outOfCapacity ∨
      ∃ out padding, r.append A buf = .ok out ∧
        padding.length = (Header.padFor body.len).toNat ∧
        out.bytes = buf.bytes ++ ((Header.new rtype id body.len).toBytes ++ body.pairs.flatten ++
          padding) := by
  rw [Record.append_nv A r hrnv (NVBody.drain_eq hbody), hrh, Header.new_paddingLength]
  generalize hfull : ((Header.new rtype id body.len).writeInto A buf).put A body.pairs.flatten = full
  have hbytes : full.bytes =
      buf.bytes ++ (Header.new rtype id body.len).toBytes ++ body.pairs.flatten := by
    rw [← hfull, BytesMut.put_bytes, Header.writeInto_bytes]
  unfold BytesMut.advanceMut
  split
  · rename_i hle
    refine Or.inr ⟨_, full.spare.take (Header.padFor body.len).toNat, rfl, ?_, ?_⟩
    · rw [List.length_take, Nat.min_eq_left hle]
    · simp [hbytes]
  · exact Or.inl rfl

/-- With enough spare capacity `append` returns: both `put`s fit into the spare memory. -/
theorem append_returns (A : Allocator) {rtype : RecordType} {body : NVBody} (hbody : body.Inv)
    {id : UInt16} {r : Record} (hrnv : r.body.nv? = some body)
    (hrh : r.header = Header.new rtype id body.len) (buf : BytesMut)
    (hcap : 8 + body.len.toNat + (Header.padFor body.len).toNat ≤ buf.spare.length) :
    r.append A buf ≠ .error .outOfCapacity := by
  have hfl := hbody.len_eq
  have hput : (r.header.writeInto A buf).put A body.pairs.flatten =
      ⟨buf.bytes ++ r.header.toBytes ++ body.pairs.flatten,
        buf.spare.drop (8 + body.len.toNat)⟩ := by
    rw [Header.writeInto_of_le A _ (show Header.headerLen ≤ _ by unfold Header.headerLen; omega),
      BytesMut.put_of_le (by simp [Header.headerLen]; omega)]
    simp [Header.headerLen, hfl]
  rw [Record.append_nv A r hrnv (NVBody.drain_eq hbody), hput, BytesMut.advanceMut, if_pos]
  · intro hfault
    cases hfault
  · rw [List.length_drop, hrh, Header.new_paddingLength]
    omega

/-- With enough spare capacity `append` writes one whole record. -/
theorem append_toRecord (A : Allocator) {rtype : RecordType} (hnv : rtype.IsNV) {body : NVBody}
    (hbody : body.Inv) (id : UInt16) (buf : BytesMut)
    (hcap : 8 + body.len.toNat + (Header.padFor body.len).toNat ≤ buf.spare.length) :
    ∃ r out padding, ∃ hpad : padding.length ≤ 0xff,
      body.toRecord rtype id = .ok r ∧ r.append A buf = .ok out ∧
        out.bytes = buf.bytes ++ (nvWire body rtype id padding hbody hpad).encode := by
  obtain ⟨r, hr, hrnv, hrh⟩ := toRecord_nv hnv body id
  rcases append_bytes A hbody hrnv hrh buf with hfull | ⟨out, padding, happ, hplen, hout⟩
  · exact absurd hfull (append_returns A hbody hrnv hrh buf hcap)
  · have hpad : padding.length ≤ 0xff := by
      have := (Header.padFor body.len).toNat_lt
      omega
    have hhead : (Header.new rtype id body.len).toBytes =
        (nvWire body rtype id padding hbody hpad).headerBytes := by
      simp only [Header.toBytes, WireRecord.headerBytes, nvWire, Header.new, hplen,
        ← hbody.len_eq, UInt16.ofNat_toNat, UInt8.ofNat_toNat]
    refine ⟨r, out, padding, hpad, hr, happ, ?_⟩
    rw [hout, hhead, WireRecord.encode]
    simp [nvWire]

theorem nvRoundTrip_eq (A : Allocator) {rtype : RecordType} (hnv : rtype.IsNV) {body : NVBody}
    (hbody : body.Inv) (id : UInt16) (buf : BytesMut)
    (hcap : 8 + body.len.toNat + (Header.padFor body.len).toNat ≤ buf.spare.length) :
    nvRoundTrip A body rtype id buf =
      (NVDrain.collect body.pairs.flatten).map fun ps => (some ps, []) := by
  obtain ⟨r, out, padding, hpad, hr, happ, hout⟩ := append_toRecord A hnv hbody id buf hcap
  obtain ⟨b, hb, hbnv⟩ := Record.parseBody_nv hnv body.pairs.flatten
  have hread := WireRecord.read_encode (nvWire body rtype id padding hbody hpad) []
  rw [List.append_nil] at hread
  have hparse : Record.parseBody (nvWire body rtype id padding hbody hpad).content
      (nvWire body rtype id padding hbody hpad).rtype = .ok b := hb
  rw [hparse] at hread
  have hdrain : (NVBody.fromBytes body.pairs.flatten).drain = .ok body.pairs.flatten :=
    NVBody.drain_fromBytes (nvWire body rtype id padding hbody hpad).content_le
  simp only [nvRoundTrip, hr, ok_bind, happ, hout, List.drop_left, hread, Except.map,
    Option.bind_some, hbnv, hdrain]
  cases NVDrain.collect body.pairs.flatten <;> rfl

/-- Every pair accepted by `add` one after another is at most one record long. -/
theorem len_le_of_addAll : ∀ (ps : List NameValuePair) (self body : NVBody),
    (∀ p ∈ ps, p.nameData ≠ []) → self.Inv → self.addAll ps = some body →
      ∀ p ∈ ps, p.len ≤ maxLength
  | [], _, _, _, _, _ => by simp
  | p :: ps, self, body, hnames, hinv, h => by
    cases hfits : self.fits p with
    | false => simp [NVBody.addAll, NVBody.add_full hfits] at h
    | true =>
      obtain ⟨self', hadd, hinv', -⟩ := NVBody.add_fits (hnames p (by simp)) hinv hfits
      simp only [NVBody.addAll, hadd] at h
      have htail := len_le_of_addAll ps self' body (fun q hq => hnames q (by simp [hq])) hinv' h
      simp only [NVBody.fits, decide_eq_true_eq] at hfits
      intro q hq
      rcases List.mem_cons.mp hq with rfl | hq
      · omega
      · exact htail q hq

/-- **Round trip.** Pairs with non-empty names, accepted by `add` one after another,
written as one record with enough spare capacity and read back: the same pairs come back
and the whole record is consumed exactly if every name and every value is shorter than
`0x80` bytes. -/
theorem nvBody_roundTrip_iff (A : Allocator) (rtype : RecordType) (hnv : rtype.IsNV)
    (requestId : UInt16) (ps : List NameValuePair) (hnames : ∀ p ∈ ps, p.nameData ≠ [])
    (body : NVBody) (hadd : NVBody.new.addAll ps = some body) (buf : BytesMut)
    (hcap : 8 + body.len.toNat + (Header.padFor body.len).toNat ≤ buf.spare.length) :
    nvRoundTrip A body rtype requestId buf = .ok (some ps, []) ↔
      ∀ p ∈ ps, p.nameData.length ≤ 0x7f ∧ p.valueData.length ≤ 0x7f := by
  obtain ⟨hbody, hflat⟩ := NVBody.addAll_eq ps .new body hnames NVBody.inv_new hadd
  have hlen := len_le_of_addAll ps .new body hnames NVBody.inv_new hadd
  rw [nvRoundTrip_eq A hnv hbody requestId buf hcap, hflat]
  simp only [NVBody.new, BufList.flatten_new, List.nil_append]
  constructor
  · intro h
    by_contra hlong
    rw [NVDrain.collect_long hlen hlong] at h
    cases h
  · intro hshort
    rw [NVDrain.collect_short hshort]
    rfl

theorem nvBody_roundTrip_iff_ab :
    nvRoundTrip zeroed (NVBody.new.add ⟨[97], [98]⟩).1 .params 1 (.withCapacity zeroed 16) =
        .ok (some [⟨[97], [98]⟩], []) ↔
      ∀ p ∈ [(⟨[97], [98]⟩ : NameValuePair)],
        p.nameData.length ≤ 0x7f ∧ p.valueData.length ≤ 0x7f :=
  nvBody_roundTrip_iff zeroed .params (Or.inl rfl) 1 [⟨[97], [98]⟩] (by decide) _ rfl _ (by decide)

/-- A value of 128 bytes is accepted and written, but reading it back panics. -/
theorem nvBody_roundTrip_long_value :
    NVBody.new.addAll [⟨[97], List.replicate 128 98⟩] =
        some (NVBody.new.add ⟨[97], List.replicate 128 98⟩).1 ∧
      nvRoundTrip zeroed (NVBody.new.add ⟨[97], List.replicate 128 98⟩).1 .params 1
        (.withCapacity zeroed 144) = .error .outOfBounds := by
  decide +kernel

end AsyncFcgi
