import AsyncFcgi.Codec.KvStream
import AsyncFcgi.Fastcgi.RoundTrip

/-!
# Two encoders of name-value pairs (`src/fastcgi.rs`, `src/codec.rs`)

`NVBody` collects pairs in memory, and `Record::append` puts them behind a header; `kv_stream`,
`add` and `flush` write them to the transport. What fits into one record is the same stream, but
for the padding: `append` leaves in it what was in the memory, `end_stream` takes it from the header.

* `encodeKvp_framed`, `appendStream_framed`: what each of them emits.
* `encoders_agree`: the streams, and the size that `NameValuePair::len` says.
-/

namespace AsyncFcgi

open Lib

/-- A stream with a single record in front of its end. -/
def framed (rtype : RecordType) (requestId : UInt16) (content padding : Bytes) : Bytes :=
  (Header.new rtype requestId (UInt16.ofNat content.length)).toBytes ++ content ++ padding ++
    (Header.new rtype requestId 0).toBytes

/-- The same bytes, but for the `pad` bytes behind the first `n`. -/
def EqualButPadding (n pad : ℕ) (x y : Bytes) : Prop :=
  x.length = y.length ∧ ∀ i, i < n ∨ n + pad ≤ i → x[i]? = y[i]?

theorem equalButPadding_append (front back : Bytes) {x y : Bytes} (h : x.length = y.length) :
    EqualButPadding front.length x.length (front ++ x ++ back) (front ++ y ++ back) := by
  refine ⟨by simp [h], fun i hi => ?_⟩
  rcases hi with hlt | hge
  · simp only [List.append_assoc, List.getElem?_append_left hlt]
  · have hx : (front ++ x).length ≤ i := by simpa using hge
    have hy : (front ++ y).length ≤ i := by simpa [← h] using hge
    rw [List.getElem?_append_right hx, List.getElem?_append_right hy]
    simp [h]

/-- How many bytes of padding a content of `n` bytes has. -/
def padLen (n : ℕ) : ℕ := (Header.padFor (UInt16.ofNat n)).toNat

theorem framed_equal (rtype : RecordType) (requestId : UInt16) (content : Bytes) {x y : Bytes}
    (hx : x.length = padLen content.length) (hy : y.length = padLen content.length) :
    EqualButPadding (Header.headerLen + content.length) (padLen content.length)
      (framed rtype requestId content x) (framed rtype requestId content y) := by
  have h := equalButPadding_append
    ((Header.new rtype requestId (UInt16.ofNat content.length)).toBytes ++ content)
    (Header.new rtype requestId 0).toBytes (hx.trans hy.symm)
  rwa [List.length_append, Header.length_toBytes, hx] at h

/-! ## The sizes -/

namespace NameValuePair

/-- A pair that fits into a record has code words. -/
theorem encodable_of_len {p : NameValuePair} (h : p.len ≤ maxLength) : p.Encodable := by
  have hsum := p.sum_le_len
  have hmax : maxLength = 0xffff := rfl
  exact ⟨by omega, by omega⟩

theorem len_le_encodeAll {ps : List NameValuePair} {p : NameValuePair} (hp : p ∈ ps) :
    p.len ≤ (code.encodeAll ps).length := by
  induction ps with
  | nil => cases hp
  | cons q ps ih =>
    have hcons : code.encodeAll (q :: ps) = q.encode ++ code.encodeAll ps := rfl
    rw [hcons, List.length_append, length_encode]
    rcases List.mem_cons.mp hp with rfl | hmem
    · omega
    · have := ih hmem
      omega

end NameValuePair

/-! ## `NVBody` -/

/-- `to_record` and `append` of a body, and the empty record that ends its stream. -/
def appendStream (A : Allocator) (body : NVBody) (rtype : RecordType) (requestId : UInt16)
    (buf : BytesMut) : Except Fault BytesMut := do
  let record ← body.toRecord rtype requestId
  let buf ← record.append A buf
  let last ← NVBody.new.toRecord rtype requestId
  last.append A buf

namespace NVBody

/-- Pairs that all fit are all added. -/
theorem addAll_fits (ps : List NameValuePair) : ∀ (self : NVBody), self.Inv →
    (∀ p ∈ ps, p.nameData ≠ []) →
    self.pairs.flatten.length + (NameValuePair.code.encodeAll ps).length ≤ maxLength →
    ∃ body, self.addAll ps = some body ∧ body.Inv ∧
      body.pairs.flatten = self.pairs.flatten ++ NameValuePair.code.encodeAll ps := by
  induction ps with
  | nil =>
    intro self hinv _ _
    exact ⟨self, rfl, hinv, (List.append_nil _).symm⟩
  | cons p ps ih =>
    intro self hinv hnames h
    have hcons : NameValuePair.code.encodeAll (p :: ps) =
        p.encode ++ NameValuePair.code.encodeAll ps := rfl
    rw [hcons, List.length_append, p.length_encode] at h
    have hfits : self.fits p = true := by
      rw [fits, hinv.len_eq]
      exact decide_eq_true (by omega)
    obtain ⟨self', hadd, hinv', hflat⟩ := add_fits (hnames p List.mem_cons_self) hinv hfits
    have hlen := congrArg List.length hflat
    rw [List.length_append, p.length_encode] at hlen
    obtain ⟨body, hall, hbody, hbytes⟩ := ih self' hinv'
      (fun q hq => hnames q (List.mem_cons_of_mem _ hq)) (by omega)
    refine ⟨body, ?_, hbody, ?_⟩
    · simp only [addAll, hadd]
      exact hall
    · rw [hbytes, hflat, hcons, List.append_assoc]

end NVBody

/-- The empty record always finds room: it has no padding. -/
theorem append_new_returns (A : Allocator) {rtype : RecordType} {requestId : UInt16} {r : Record}
    (hrnv : r.body.nv? = some .new) (hrh : r.header = Header.new rtype requestId 0)
    (buf : BytesMut) : r.append A buf ≠ .error .outOfCapacity := by
  have hpad : r.header.paddingLength.toNat = 0 := by
    rw [hrh]
    rfl
  rw [Record.append_nv A r hrnv (NVBody.drain_eq NVBody.inv_new), hpad, BytesMut.advanceMut,
    if_pos (Nat.zero_le _)]
  intro hfault
  cases hfault

/-- What the records of a body look like; only the padding of the first may find no room. -/
theorem appendStream_framed (A : Allocator) {rtype : RecordType} (hnv : rtype.IsNV)
    {body : NVBody} (hbody : body.Inv) (requestId : UInt16) (buf : BytesMut) :
    (appendStream A body rtype requestId buf = .error .outOfCapacity ∧
        buf.spare.length < Header.headerLen + body.pairs.flatten.length +
          padLen body.pairs.flatten.length) ∨
      ∃ out padding, appendStream A body rtype requestId buf = .ok out ∧
        padding.length = padLen body.pairs.flatten.length ∧
        out.bytes = buf.bytes ++ framed rtype requestId body.pairs.flatten padding := by
  have hlen : body.len = UInt16.ofNat body.pairs.flatten.length := by
    rw [← hbody.len_eq, UInt16.ofNat_toNat]
  obtain ⟨r, hr, hrnv, hrh⟩ := toRecord_nv hnv body requestId
  obtain ⟨last, hlast, hlnv, hlh⟩ := toRecord_nv hnv .new requestId
  rw [appendStream, hr, ok_bind]
  rcases append_bytes A hbody hrnv hrh buf with hfull | ⟨out₁, padding, happ, hpad, hout₁⟩
  · rw [hfull]
    refine Or.inl ⟨rfl, ?_⟩
    by_contra hroom
    refine append_returns A hbody hrnv hrh buf ?_ hfull
    rw [padLen, ← hlen, ← hbody.len_eq, Header.headerLen] at hroom
    omega
  · rw [happ, ok_bind, hlast, ok_bind]
    rcases append_bytes A NVBody.inv_new hlnv hlh out₁ with hfull | ⟨out, padding', happ', hpad', hout⟩
    · exact absurd hfull (append_new_returns A hlnv hlh out₁)
    · have hnil : padding' = [] := List.length_eq_zero_iff.mp hpad'
      refine Or.inr ⟨out, padding, happ', ?_, ?_⟩
      · rw [hpad, padLen, hlen]
      · rw [hout, hout₁, hnil, framed, hlen]
        simp [NVBody.new]

/-! ## The writer -/

namespace FCGIWriter

/-- What `encode_kvp` sends of pairs that fit into one record. -/
theorem encodeKvp_framed (A : Allocator) {w : FCGIWriter} (hacc : w.io.Accepting)
    (requestId : UInt16) (rtype : RecordType) {ps : List NameValuePair} (hne : ps ≠ [])
    (hps : ∀ p ∈ ps, p.Encodable)
    (hlen : (NameValuePair.code.encodeAll ps).length ≤ bufLen - Header.headerLen) :
    ∃ w' padding, w.encodeKvp A requestId rtype ps = .ok (.ok (), w') ∧
      padding.length = padLen (NameValuePair.code.encodeAll ps).length ∧
      w'.io.sent = w.io.sent ++
        framed rtype requestId (NameValuePair.code.encodeAll ps) padding := by
  obtain ⟨buf, hbuf⟩ := exists_buf A
  have hroom : Header.headerLen ≤ bufLen := by decide
  have hstart := BytesMut.length_of_setLen hbuf
  obtain ⟨buf', hr, hbytes⟩ := extend_fits (A := A) ps ⟨requestId, rtype, buf⟩ hps
    (by simp only [hstart]; omega) w
  have hpos : 0 < (NameValuePair.code.encodeAll ps).length := by
    obtain ⟨p, hp⟩ := List.exists_mem_of_ne_nil ps hne
    have := NameValuePair.len_le_encodeAll hp
    have := p.sum_le_len
    omega
  have hdrop : buf'.bytes.drop Header.headerLen = NameValuePair.code.encodeAll ps := by
    rw [hbytes]
    exact List.drop_left' hstart
  have hsub : buf'.bytes.length - Header.headerLen = (NameValuePair.code.encodeAll ps).length := by
    rw [← hdrop, List.length_drop]
  have hwrote : Header.headerLen < buf'.bytes.length := by omega
  obtain ⟨padding, hpad, hwrites⟩ := writeLast_bytes hwrote rtype requestId
  rw [hsub, hdrop] at hwrites
  obtain ⟨w', hend, hsent, -⟩ := (endStream_stops A hwrites).of_accepting hacc
  refine ⟨w', padding, ?_, by rw [hpad, hsub]; rfl, hsent⟩
  rw [encodeKvp, kvStream_eq hbuf, ok_bind, hr, ok_bind]
  exact hend

end FCGIWriter

/-! ## Both encoders -/

/-- In either encoder, behind the pairs `front`, the pair takes the bytes that `len` says. -/
def TakesLen (A : Allocator) (w : FCGIWriter) (requestId : UInt16) (rtype : RecordType)
    (front : List NameValuePair) (p : NameValuePair) : Prop :=
  (∃ body body', NVBody.new.addAll front = some body ∧ body.add p = (body', .ok ()) ∧
    body'.pairs.flatten.length = body.pairs.flatten.length + p.len) ∧
  ∃ start kvw kvw', FCGIWriter.kvStream A requestId rtype = .ok start ∧
    w.extend A start front = .ok (.ok kvw, w) ∧
    w.addKv A kvw p.nameData p.valueData = .ok (.ok kvw', w) ∧
    kvw'.buf.bytes.length = kvw.buf.bytes.length + p.len

theorem takesLen (A : Allocator) (w : FCGIWriter) (requestId : UInt16) (rtype : RecordType)
    {front back : List NameValuePair} {p : NameValuePair}
    (hnames : ∀ q ∈ front ++ p :: back, q.nameData ≠ [])
    (hps : ∀ q ∈ front ++ p :: back, q.Encodable)
    (htotal : (NameValuePair.code.encodeAll (front ++ p :: back)).length ≤
      bufLen - Header.headerLen) : TakesLen A w requestId rtype front p := by
  have hall : NameValuePair.code.encodeAll (front ++ p :: back) =
      NameValuePair.code.encodeAll front ++ (p.encode ++ NameValuePair.code.encodeAll back) := by
    simp [Code.encodeAll, NameValuePair.code]
  have hpmem : p ∈ front ++ p :: back := List.mem_append_right _ List.mem_cons_self
  have hmax : bufLen - Header.headerLen ≤ maxLength := by decide
  have hbuflen : Header.headerLen ≤ bufLen := by decide
  rw [hall, List.length_append, List.length_append, p.length_encode] at htotal
  constructor
  · obtain ⟨body, hadd, hbody, hbytes⟩ := NVBody.addAll_fits front .new NVBody.inv_new
      (fun q hq => hnames q (List.mem_append_left _ hq)) (by simp [NVBody.new]; omega)
    have hlen := congrArg List.length hbytes
    simp only [NVBody.new, BufList.flatten_new, List.nil_append] at hlen
    have hfits : body.fits p = true := by
      rw [NVBody.fits, hbody.len_eq]
      exact decide_eq_true (by omega)
    obtain ⟨body', hp, -, hflat⟩ := NVBody.add_fits (hnames p hpmem) hbody hfits
    exact ⟨body, body', hadd, hp, by rw [hflat, List.length_append, p.length_encode]⟩
  · obtain ⟨buf, hbuf⟩ := FCGIWriter.exists_buf A
    have hstart := BytesMut.length_of_setLen hbuf
    obtain ⟨buf₁, hr₁, hbytes₁⟩ := FCGIWriter.extend_fits (A := A) front ⟨requestId, rtype, buf⟩
      (fun q hq => hps q (List.mem_append_left _ hq)) (by simp only [hstart]; omega) w
    have hlen₁ := congrArg List.length hbytes₁
    simp only [List.length_append, hstart] at hlen₁
    have hfits₁ : buf₁.bytes.length + p.encode.length ≤ bufLen := by
      rw [p.length_encode]
      omega
    obtain ⟨buf₂, hr₂, hbytes₂⟩ := FCGIWriter.addKv_fits (A := A) (hps p hpmem)
      (show (NameValuePairWriter.mk requestId rtype buf₁).buf.bytes.length + p.encode.length ≤
        bufLen from hfits₁) w
    refine ⟨⟨requestId, rtype, buf⟩, ⟨requestId, rtype, buf₁⟩, ⟨requestId, rtype, buf₂⟩,
      FCGIWriter.kvStream_eq hbuf requestId rtype, hr₁, hr₂, ?_⟩
    rw [hbytes₂, List.length_append, p.length_encode]

/-- **The two encoders agree.** Pairs with names, of at most 65528 bytes altogether: both take
all of them; what `kv_stream`, `add` for each pair and `flush` write is, but for the padding,
what the appended records of the `NVBody` hold, and `len` is the size of a pair in both. `append`
needs the memory behind `buf` for the first record, or it may panic. -/
theorem encoders_agree (A A' : Allocator) (w : FCGIWriter) (hacc : w.io.Accepting)
    {rtype : RecordType} (hnv : rtype.IsNV) (requestId : UInt16) {ps : List NameValuePair}
    (hne : ps ≠ []) (hnames : ∀ p ∈ ps, p.nameData ≠ [])
    (htotal : (ps.map NameValuePair.encode).flatten.length ≤ 65528) (buf : BytesMut) :
    ∃ body w' sent, NVBody.new.addAll ps = some body ∧
      w.encodeKvp A' requestId rtype ps = .ok (.ok (), w') ∧
      w'.io.sent = w.io.sent ++ sent ∧
      ((appendStream A body rtype requestId buf = .error .outOfCapacity ∧
          buf.spare.length < Header.headerLen + (ps.map NameValuePair.encode).flatten.length +
            padLen (ps.map NameValuePair.encode).flatten.length) ∨
        ∃ out appended, appendStream A body rtype requestId buf = .ok out ∧
          out.bytes = buf.bytes ++ appended ∧
          EqualButPadding (Header.headerLen + (ps.map NameValuePair.encode).flatten.length)
            (padLen (ps.map NameValuePair.encode).flatten.length) appended sent) ∧
      ∀ front p back, ps = front ++ p :: back → TakesLen A' w requestId rtype front p := by
  have hlen : (NameValuePair.code.encodeAll ps).length ≤ bufLen - Header.headerLen := htotal
  have hmax : bufLen - Header.headerLen ≤ maxLength := by decide
  have hps : ∀ p ∈ ps, p.Encodable := fun p hp =>
    NameValuePair.encodable_of_len (by have := NameValuePair.len_le_encodeAll hp; omega)
  obtain ⟨body, hadd, hbody, hbytes⟩ := NVBody.addAll_fits ps .new NVBody.inv_new hnames
    (by simp [NVBody.new]; omega)
  have hcontent : body.pairs.flatten = (ps.map NameValuePair.encode).flatten := by
    rw [hbytes]
    rfl
  obtain ⟨w', padding, hr, hpad, hsent⟩ :=
    FCGIWriter.encodeKvp_framed A' hacc requestId rtype hne hps hlen
  refine ⟨body, w', _, hadd, hr, hsent, ?_, ?_⟩
  · have happended := appendStream_framed A hnv hbody requestId buf
    rw [hcontent] at happended
    refine happended.imp_right ?_
    rintro ⟨out, padding', hout, hpad', hbytes'⟩
    exact ⟨out, _, hout, hbytes', framed_equal rtype requestId _ hpad' hpad⟩
  · rintro front p back rfl
    exact takesLen A' w requestId rtype hnames hps hlen

/-- A pair of one byte each. -/
def onePair : List NameValuePair := [⟨[97], [98]⟩]

theorem encoders_agree_onePair :
    ∃ body w' sent, NVBody.new.addAll onePair = some body ∧
      oneByOne.encodeKvp zeroed 1 .params onePair = .ok (.ok (), w') ∧
      w'.io.sent = oneByOne.io.sent ++ sent ∧
      ((appendStream zeroed body .params 1 (.withCapacity zeroed 24) = .error .outOfCapacity ∧
          (BytesMut.withCapacity zeroed 24).spare.length <
            Header.headerLen + (onePair.map NameValuePair.encode).flatten.length +
              padLen (onePair.map NameValuePair.encode).flatten.length) ∨
        ∃ out appended, appendStream zeroed body .params 1 (.withCapacity zeroed 24) = .ok out ∧
          out.bytes = (BytesMut.withCapacity zeroed 24).bytes ++ appended ∧
          EqualButPadding
            (Header.headerLen + (onePair.map NameValuePair.encode).flatten.length)
            (padLen (onePair.map NameValuePair.encode).flatten.length) appended sent) ∧
      ∀ front p back, onePair = front ++ p :: back → TakesLen zeroed oneByOne 1 .params front p :=
  encoders_agree zeroed zeroed oneByOne oneByOne_accepting (Or.inl rfl) 1 (by decide) (by decide)
    (by decide) (.withCapacity zeroed 24)

end AsyncFcgi
