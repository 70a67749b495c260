import AsyncFcgi.Codec.Writer
import AsyncFcgi.Lib.Code

/-!
# Name-value streams (`src/codec.rs`)

`NameValuePairWriter`: `kv_stream`, `add_kv` and `flush`; and the FastCGI name-value format as
a self-delimiting code.

* `NameValuePair.code`: the format, for names and values of at most `0x7fffffff` bytes.
* `encodeKvp_wellFormed`: what `kv_stream`, `add_kv` for each pair and `flush` send is read
  back as a stream of records with the code words of the pairs.
-/

namespace AsyncFcgi

open Lib

/-! ## The format -/

namespace NameValuePair

/-- The rest of a four byte length; `top` is its first byte without the top bit. -/
def decodeLong (top : ℕ) : Bytes → Option (ℕ × Bytes)
  | b₂ :: b₁ :: b₀ :: d =>
    some (top * 2 ^ 24 + b₂.toNat * 2 ^ 16 + b₁.toNat * 2 ^ 8 + b₀.toNat, d)
  | _ => none

/-- The length at the start of a list: the top bit of the first byte tells the four byte
form. -/
def decodeLength : Bytes → Option (ℕ × Bytes)
  | [] => none
  | a :: d => if a.toNat < 0x80 then some (a.toNat, d) else decodeLong (a.toNat - 0x80) d

/-- The pair at the start of `d`. -/
def decode (d : Bytes) : Option (NameValuePair × Bytes) := do
  let (ln, d) ← decodeLength d
  let (lv, d) ← decodeLength d
  if ln + lv ≤ d.length then some (⟨d.take ln, (d.drop ln).take lv⟩, d.drop (ln + lv)) else none

/-- The format has code words for the pair. -/
def Encodable (p : NameValuePair) : Prop :=
  p.nameData.length ≤ 0x7fffffff ∧ p.valueData.length ≤ 0x7fffffff

theorem decodeLength_lengthPrefix {n : ℕ} (h : n ≤ 0x7fffffff) (rest : Bytes) :
    decodeLength (lengthPrefix n ++ rest) = some (n, rest) := by
  unfold lengthPrefix
  by_cases hn : n ≤ 0x7f
  · have hto : (UInt8.ofNat n).toNat = n := by
      rw [UInt8.toNat_ofNat']
      omega
    rw [if_pos hn, List.singleton_append, decodeLength, hto, if_pos (by omega)]
  · rw [if_neg hn]
    have hto : (UInt32.ofNat (n + 2 ^ 31)).toNat = n + 2 ^ 31 := by
      rw [UInt32.toNat_ofNat']
      omega
    have htop : ((n + 2 ^ 31) / 2 ^ 24 % 2 ^ 8) = n / 2 ^ 24 + 0x80 := by omega
    have hsum : n / 2 ^ 24 * 2 ^ 24 + (n + 2 ^ 31) / 2 ^ 16 % 2 ^ 8 * 2 ^ 16 +
        (n + 2 ^ 31) / 2 ^ 8 % 2 ^ 8 * 2 ^ 8 + (n + 2 ^ 31) % 2 ^ 8 = n := by omega
    have hbytes : beU32 (UInt32.ofNat (n + 2 ^ 31)) ++ rest =
        UInt8.ofNat ((n + 2 ^ 31) / 2 ^ 24) :: UInt8.ofNat ((n + 2 ^ 31) / 2 ^ 16) ::
          UInt8.ofNat ((n + 2 ^ 31) / 2 ^ 8) :: UInt8.ofNat (n + 2 ^ 31) :: rest := by
      rw [beU32, hto]
      rfl
    rw [hbytes, decodeLength, UInt8.toNat_ofNat', htop, if_neg (by omega), Nat.add_sub_cancel]
    simp only [decodeLong, UInt8.toNat_ofNat', hsum]

theorem decodeLength_lt {d rest : Bytes} {n : ℕ} (h : decodeLength d = some (n, rest)) :
    rest.length < d.length := by
  unfold decodeLength decodeLong at h
  split at h
  · cases h
  · split at h
    · cases h
      simp
    · split at h
      · cases h
        simp only [List.length_cons]
        omega
      · cases h

theorem decode_encode {p : NameValuePair} (hp : p.Encodable) (rest : Bytes) :
    decode (p.encode ++ rest) = some (p, rest) := by
  obtain ⟨hn, hv⟩ := hp
  have hle : p.nameData.length + p.valueData.length ≤
      (p.nameData ++ (p.valueData ++ rest)).length := by
    simp only [List.length_append]
    omega
  rw [decode, encode]
  simp only [List.append_assoc, decodeLength_lengthPrefix hn, decodeLength_lengthPrefix hv,
    Option.bind_eq_bind, Option.bind_some]
  rw [if_pos hle, List.take_left, List.drop_left, List.take_left, ← List.drop_drop, List.drop_left,
    List.drop_left]

theorem decode_lt {d rest : Bytes} {p : NameValuePair} (h : decode d = some (p, rest)) :
    rest.length < d.length := by
  unfold decode at h
  obtain ⟨⟨ln, d₁⟩, h₁, h⟩ := Option.bind_eq_some_iff.mp h
  obtain ⟨⟨lv, d₂⟩, h₂, h⟩ := Option.bind_eq_some_iff.mp h
  have hlt₁ := decodeLength_lt h₁
  have hlt₂ := decodeLength_lt h₂
  simp only at h
  split at h
  · simp only [Option.some.injEq, Prod.mk.injEq] at h
    rw [← h.2, List.length_drop]
    omega
  · cases h

/-- The FastCGI name-value format. -/
def code : Code NameValuePair UInt8 where
  Valid := Encodable
  encode := encode
  decode := decode
  decode_encode := decode_encode
  decode_lt := decode_lt

end NameValuePair

/-! ## The writer -/

/-- `NameValuePairWriter` (lines 371–376); the `FCGIWriter` it borrows is passed along. -/
structure NameValuePairWriter where
  requestId : UInt16
  rtype : RecordType
  buf : BytesMut

/-- The length bytes `add_kv` writes for one length (lines 414–422, and again 423–431). -/
def kvLength (l : ℕ) : Except Fault Bytes :=
  if l > 0x7f then
    if l > 0x7fffffff then .error .nameOrValueTooBig
    else .ok (beU32 (UInt32.ofNat (l ||| 0x80000000)))
  else .ok [UInt8.ofNat l]

namespace FCGIWriter

variable (A : Allocator)

/-- `append_to_stream` for one value after the other. -/
def appendAll (self : FCGIWriter) (kvw : NameValuePairWriter) :
    List Bytes → Except Fault (Except IoError NameValuePairWriter × FCGIWriter)
  | [] => .ok (.ok kvw, self)
  | val :: vals => do
    match ← self.appendToStream A val kvw.buf kvw.requestId kvw.rtype with
    | (.error e, self) => .ok (.error e, self)
    | (.ok buf, self) => appendAll self { kvw with buf } vals

/-- `kv_stream` (lines 335–346). -/
def kvStream (requestId : UInt16) (rtype : RecordType) : Except Fault NameValuePairWriter := do
  let buf ← (BytesMut.withCapacity A bufLen).setLen Header.headerLen
  .ok { requestId, rtype, buf }

/-- `NameValuePairWriter::add_kv` (lines 406–444). -/
def addKv (self : FCGIWriter) (kvw : NameValuePairWriter) (name val : Bytes) :
    Except Fault (Except IoError NameValuePairWriter × FCGIWriter) := do
  let ln ← kvLength name.length
  let lv ← kvLength val.length
  self.appendAll A kvw [ln ++ lv, name, val]

/-- `add_kv` for each pair, as in `extend` (lines 388–396) and `encode_kvp`. -/
def extend (self : FCGIWriter) (kvw : NameValuePairWriter) :
    List NameValuePair → Except Fault (Except IoError NameValuePairWriter × FCGIWriter)
  | [] => .ok (.ok kvw, self)
  | p :: ps => do
    match ← self.addKv A kvw p.nameData p.valueData with
    | (.error e, self) => .ok (.error e, self)
    | (.ok kvw, self) => extend self kvw ps

/-- `NameValuePairWriter::flush` (lines 379–385). -/
def flush (self : FCGIWriter) (kvw : NameValuePairWriter) :
    Except Fault (Except IoError Unit × FCGIWriter) :=
  self.endStream A kvw.buf kvw.requestId kvw.rtype

/-- `encode_kvp` (lines 158–172): `kv_stream`, the pairs, `flush`. -/
def encodeKvp (self : FCGIWriter) (requestId : UInt16) (rtype : RecordType)
    (p : List NameValuePair) : Except Fault (Except IoError Unit × FCGIWriter) := do
  let kvps ← kvStream A requestId rtype
  match ← self.extend A kvps p with
  | (.error e, self) => .ok (.error e, self)
  | (.ok kvps, self) => self.flush A kvps

end FCGIWriter

/-! ## What is sent -/

/-- The bytes `add_kv` writes for a length are its prefix in the format. -/
theorem kvLength_eq {n : ℕ} (h : n ≤ 0x7fffffff) : kvLength n = .ok (lengthPrefix n) := by
  unfold kvLength lengthPrefix
  by_cases hn : n ≤ 0x7f
  · rw [if_neg (by omega), if_pos hn]
  · rw [if_pos (by omega), if_neg (by omega), if_neg hn, or_top_bit (by omega)]

namespace FCGIWriter

variable {A : Allocator} {rtype : RecordType} {requestId : UInt16} {base stream : Bytes}
  {w : FCGIWriter}

/-- The stream a `NameValuePairWriter` is in the middle of. -/
def KvStreaming (base : Bytes) (w : FCGIWriter) (kvw : NameValuePairWriter) (stream : Bytes) :
    Prop :=
  Streaming kvw.rtype kvw.requestId base w kvw.buf stream

/-- What a call does with the stream of `kvw`, behind the records `rs`: it writes full records
and adds `more`, or ends with a fault that may be. -/
def Extends (kvw : NameValuePairWriter) (rs : List WireRecord) (stream more : Bytes)
    (may : Fault → Prop)
    (op : FCGIWriter → Except Fault (Except IoError NameValuePairWriter × FCGIWriter)) : Prop :=
  ∃ rs', (∀ r ∈ rs', OfStream kvw.rtype kvw.requestId r ∧
      r.content.length = bufLen - Header.headerLen) ∧
    ((∃ f, may f ∧ Writes op (WireRecord.encodeAll rs') (.error f)) ∨
      ∃ kvw', Writes op (WireRecord.encodeAll rs') (.ok (.ok kvw')) ∧ kvw'.rtype = kvw.rtype ∧
        kvw'.requestId = kvw.requestId ∧
        Buffered kvw.rtype kvw.requestId (rs ++ rs') kvw'.buf (stream ++ more))

/-- One call after the other. -/
theorem Extends.seq {kvw : NameValuePairWriter} {rs : List WireRecord} {more more' : Bytes}
    {may : Fault → Prop}
    {op op₁ : FCGIWriter → Except Fault (Except IoError NameValuePairWriter × FCGIWriter)}
    {k : NameValuePairWriter → FCGIWriter →
      Except Fault (Except IoError NameValuePairWriter × FCGIWriter)}
    (h : Extends kvw rs stream more may op₁)
    (h' : ∀ {kvw₁ : NameValuePairWriter} {rs₁ : List WireRecord} {stream₁ : Bytes},
      kvw₁.rtype = kvw.rtype → kvw₁.requestId = kvw.requestId →
      Buffered kvw₁.rtype kvw₁.requestId rs₁ kvw₁.buf stream₁ →
      Extends kvw₁ rs₁ stream₁ more' may (k kvw₁))
    (hop : ∀ w, op w = (op₁ w).bind fun x =>
      match x with
      | (.error e, w) => .ok (.error e, w)
      | (.ok kvw, w) => k kvw w) : Extends kvw rs stream (more ++ more') may op := by
  have herr : ∀ w e w', op₁ w = .ok (.error e, w') → op w = .ok (.error e, w') := by
    intro w e w' hw
    rw [hop, hw]
    rfl
  obtain ⟨rs₁, hrs₁, ⟨f, hf, hwrites⟩ | ⟨kvw₁, hwrites, hty, hid, hbuf⟩⟩ := h
  · refine ⟨rs₁, hrs₁, Or.inl ⟨f, hf, hwrites.last (fun w w' hw => ?_) herr⟩⟩
    rw [hop, hw]
    rfl
  · have hk : ∀ w w', op₁ w = (Except.ok (Except.ok kvw₁)).map (·, w') → op w = k kvw₁ w' := by
      intro w w' hw
      rw [hop, hw]
      rfl
    rw [← hty, ← hid] at hbuf
    obtain ⟨rs₂, hrs₂, hrest⟩ := h' hty hid hbuf
    rw [hty, hid] at hrs₂
    refine ⟨rs₁ ++ rs₂, fun r hr => (List.mem_append.mp hr).elim (hrs₁ r) (hrs₂ r), ?_⟩
    rw [WireRecord.encodeAll_append]
    rcases hrest with ⟨f, hf, hwrites'⟩ | ⟨kvw₂, hwrites', hty', hid', hbuf'⟩
    · exact Or.inl ⟨f, hf, hwrites.seq hwrites' hk herr⟩
    · refine Or.inr ⟨kvw₂, hwrites.seq hwrites' hk herr, hty'.trans hty, hid'.trans hid, ?_⟩
      rwa [hty, hid, List.append_assoc, List.append_assoc] at hbuf'

theorem Extends.nothing {kvw : NameValuePairWriter} {rs : List WireRecord} {may : Fault → Prop}
    (hbuf : Buffered kvw.rtype kvw.requestId rs kvw.buf stream) :
    Extends kvw rs stream [] may fun w => .ok (.ok kvw, w) := by
  refine ⟨[], nofun, Or.inr ⟨kvw, .nothing fun _ => rfl, rfl, rfl, ?_⟩⟩
  rwa [List.append_nil, List.append_nil]

/-- The same on a transport that accepts every write. -/
theorem Extends.streaming {kvw : NameValuePairWriter} {more : Bytes} {may : Fault → Prop}
    {op : FCGIWriter → Except Fault (Except IoError NameValuePairWriter × FCGIWriter)}
    (h : KvStreaming base w kvw stream)
    (hext : ∀ rs, Buffered kvw.rtype kvw.requestId rs kvw.buf stream →
      Extends kvw rs stream more may op) :
    (∃ f, may f ∧ op w = .error f) ∨
      ∃ kvw' w', op w = .ok (.ok kvw', w') ∧ kvw'.rtype = kvw.rtype ∧
        kvw'.requestId = kvw.requestId ∧ KvStreaming base w' kvw' (stream ++ more) := by
  obtain ⟨rs, hbuf, hsent⟩ := Streaming.buffered h
  obtain ⟨rs', -, ⟨f, hf, hwrites⟩ | ⟨kvw', hwrites, hty, hid, hbuf'⟩⟩ := hext rs hbuf
  · obtain ⟨w', hr, -⟩ := hwrites.of_accepting h.accepting
    exact Or.inl ⟨f, hf, hr⟩
  · obtain ⟨w', hr, hsent', hacc⟩ := hwrites.of_accepting h.accepting
    refine Or.inr ⟨kvw', w', hr, hty, hid, ?_⟩
    rw [← hty, ← hid] at hbuf'
    refine hbuf'.streaming hacc ?_
    rw [hsent', hsent, WireRecord.encodeAll_append, List.append_assoc]

theorem appendAll_extends (may : Fault → Prop) (hcap : may .outOfCapacity) (vals : List Bytes) :
    ∀ {kvw : NameValuePairWriter} {rs : List WireRecord} {stream : Bytes},
    Buffered kvw.rtype kvw.requestId rs kvw.buf stream →
    Extends kvw rs stream vals.flatten may fun w => w.appendAll A kvw vals := by
  induction vals with
  | nil =>
    intro kvw rs stream hbuf
    exact .nothing hbuf
  | cons val vals ih =>
    intro kvw rs stream hbuf
    have hone : Extends kvw rs stream val may fun w =>
        (w.appendToStream A val kvw.buf kvw.requestId kvw.rtype).map fun x =>
          (x.1.map fun buf => { kvw with buf }, x.2) := by
      obtain ⟨rs', hrs', hwrites | ⟨buf', hwrites, hbuf'⟩⟩ :=
        appendToStream_writes (A := A) val hbuf
      · refine ⟨rs', hrs', Or.inl ⟨_, hcap, hwrites.last (fun w w' hw => ?_) (fun w e w' hw => ?_)⟩⟩
        all_goals
          simp only [hw]
          rfl
      · refine ⟨rs', hrs', Or.inr ⟨{ kvw with buf := buf' },
          hwrites.last (fun w w' hw => ?_) (fun w e w' hw => ?_), rfl, rfl, hbuf'⟩⟩
        all_goals
          simp only [hw]
          rfl
    refine hone.seq (k := fun kvw w => w.appendAll A kvw vals) (fun _ _ h => ih h) fun w => ?_
    rw [appendAll]
    cases w.appendToStream A val kvw.buf kvw.requestId kvw.rtype with
    | error f => rfl
    | ok x =>
      obtain ⟨_ | _, w'⟩ := x
      · rfl
      · rfl

theorem addKv_eq {p : NameValuePair} (hp : p.Encodable) (w : FCGIWriter)
    (kvw : NameValuePairWriter) :
    w.addKv A kvw p.nameData p.valueData =
      w.appendAll A kvw
        [lengthPrefix p.nameData.length ++ lengthPrefix p.valueData.length, p.nameData,
          p.valueData] := by
  rw [addKv, kvLength_eq hp.1, ok_bind, kvLength_eq hp.2, ok_bind]

/-- A pair without code words panics. -/
theorem addKv_tooBig {p : NameValuePair} (hp : ¬ p.Encodable) (w : FCGIWriter)
    (kvw : NameValuePairWriter) :
    w.addKv A kvw p.nameData p.valueData = .error .nameOrValueTooBig := by
  have hbig : ∀ {n : ℕ}, ¬ n ≤ 0x7fffffff → kvLength n = .error .nameOrValueTooBig := by
    intro n hn
    rw [kvLength, if_pos (by omega), if_pos (by omega)]
  rw [addKv]
  by_cases hn : p.nameData.length ≤ 0x7fffffff
  · rw [kvLength_eq hn, ok_bind, hbig fun hv => hp ⟨hn, hv⟩]
    rfl
  · rw [hbig hn]
    rfl

/-- What stops `add_kv` for some pairs: the buffer is too small for the next header, or there is
a pair without code words. -/
def MayStop (ps : List NameValuePair) (f : Fault) : Prop :=
  f = .outOfCapacity ∨ ∃ p ∈ ps, ¬ p.Encodable

/-- `add_kv` adds the code words of the pairs. -/
theorem extend_extends (all ps : List NameValuePair) : ps ⊆ all →
    ∀ (kvw : NameValuePairWriter) {rs : List WireRecord} {stream : Bytes},
    Buffered kvw.rtype kvw.requestId rs kvw.buf stream →
    Extends kvw rs stream (NameValuePair.code.encodeAll ps) (MayStop all) fun w =>
      w.extend A kvw ps := by
  induction ps with
  | nil =>
    intro _ kvw rs stream hbuf
    exact .nothing hbuf
  | cons p ps ih =>
    intro hsub kvw rs stream hbuf
    by_cases hp : p.Encodable
    · have hword : NameValuePair.code.encodeAll (p :: ps) =
          [lengthPrefix p.nameData.length ++ lengthPrefix p.valueData.length, p.nameData,
            p.valueData].flatten ++ NameValuePair.code.encodeAll ps := by
        simp [Code.encodeAll, NameValuePair.code, NameValuePair.encode]
      rw [hword]
      refine (appendAll_extends (A := A) (MayStop all) (Or.inl rfl) _ hbuf).seq
        (k := fun kvw w => w.extend A kvw ps)
        (fun _ _ h => ih (fun q hq => hsub (List.mem_cons_of_mem _ hq)) _ h) fun w => ?_
      rw [extend, addKv_eq hp]
      cases w.appendAll A kvw _ with
      | error f => rfl
      | ok x =>
        obtain ⟨_ | _, w'⟩ := x
        · rfl
        · rfl
    · refine ⟨[], fun r hr => absurd hr List.not_mem_nil, Or.inl ⟨.nameOrValueTooBig,
        Or.inr ⟨p, hsub List.mem_cons_self, hp⟩, .nothing fun w => ?_⟩⟩
      rw [extend, addKv_tooBig hp]
      rfl

theorem extend_streaming (ps : List NameValuePair) {w : FCGIWriter}
    {kvw : NameValuePairWriter} {stream : Bytes} (hps : ∀ p ∈ ps, p.Encodable)
    (h : KvStreaming base w kvw stream) :
    w.extend A kvw ps = .error .outOfCapacity ∨
      ∃ kvw' w', w.extend A kvw ps = .ok (.ok kvw', w') ∧ kvw'.rtype = kvw.rtype ∧
        kvw'.requestId = kvw.requestId ∧
        KvStreaming base w' kvw' (stream ++ NameValuePair.code.encodeAll ps) := by
  rcases Extends.streaming h fun rs hbuf => extend_extends (A := A) ps ps (List.Subset.refl ps) _ hbuf with
    ⟨f, rfl | ⟨p, hp, hno⟩, hr⟩ | hext
  · exact Or.inl hr
  · exact absurd (hps p hp) hno
  · exact Or.inr hext

theorem kvStream_eq {buf : BytesMut}
    (hbuf : (BytesMut.withCapacity A bufLen).setLen Header.headerLen = .ok buf)
    (requestId : UInt16) (rtype : RecordType) :
    kvStream A requestId rtype = .ok ⟨requestId, rtype, buf⟩ := by
  rw [kvStream, hbuf]
  rfl

theorem exists_kvStream (A : Allocator) (requestId : UInt16) (rtype : RecordType) :
    ∃ buf, kvStream A requestId rtype = .ok ⟨requestId, rtype, buf⟩ ∧
      Buffered rtype requestId [] buf [] := by
  obtain ⟨buf, hbuf⟩ := exists_buf A
  exact ⟨buf, kvStream_eq hbuf requestId rtype, buffered_start hbuf rtype requestId⟩

/-- A new stream: room for the header, and nothing behind it. -/
theorem kvStream_streaming (A : Allocator) (hacc : w.io.Accepting) (requestId : UInt16)
    (rtype : RecordType) :
    ∃ kvw, kvStream A requestId rtype = .ok kvw ∧ kvw.rtype = rtype ∧
      kvw.requestId = requestId ∧ KvStreaming w.io.sent w kvw [] := by
  obtain ⟨buf, hbuf⟩ := exists_buf A
  exact ⟨⟨requestId, rtype, buf⟩, kvStream_eq hbuf requestId rtype, rfl, rfl,
    streaming_start hbuf hacc rtype requestId⟩

/-! ### Streams that fit into the buffer -/

theorem appendToStream_fits {buf : BytesMut} {val : Bytes}
    (h : buf.bytes.length + val.length ≤ bufLen) (w : FCGIWriter) (requestId : UInt16)
    (rtype : RecordType) :
    w.appendToStream A val buf requestId rtype = .ok (.ok (buf.put A val), w) := by
  rw [appendToStream, dif_neg (by omega)]

theorem appendAll_fits (vals : List Bytes) : ∀ (kvw : NameValuePairWriter),
    kvw.buf.bytes.length + vals.flatten.length ≤ bufLen → ∀ w : FCGIWriter,
    ∃ buf, w.appendAll A kvw vals = .ok (.ok { kvw with buf := buf }, w) ∧
      buf.bytes = kvw.buf.bytes ++ vals.flatten := by
  induction vals with
  | nil => intro kvw _ w; exact ⟨kvw.buf, rfl, (List.append_nil _).symm⟩
  | cons val vals ih =>
    intro kvw h w
    rw [List.flatten_cons, List.length_append] at h
    have hput : (kvw.buf.put A val).bytes = kvw.buf.bytes ++ val := BytesMut.put_bytes _ _
    have hlen := congrArg List.length hput
    rw [List.length_append] at hlen
    obtain ⟨buf, hr, hbytes⟩ := ih { kvw with buf := kvw.buf.put A val }
      (by simp only [hlen]; omega) w
    refine ⟨buf, ?_, ?_⟩
    · rw [appendAll, appendToStream_fits (by omega), ok_bind]
      exact hr
    · rw [hbytes, List.flatten_cons, ← List.append_assoc]
      exact congrArg (· ++ vals.flatten) hput

/-- A pair that fits is added to the buffer. -/
theorem addKv_fits {p : NameValuePair} (hp : p.Encodable) {kvw : NameValuePairWriter}
    (h : kvw.buf.bytes.length + p.encode.length ≤ bufLen) (w : FCGIWriter) :
    ∃ buf, w.addKv A kvw p.nameData p.valueData = .ok (.ok { kvw with buf := buf }, w) ∧
      buf.bytes = kvw.buf.bytes ++ p.encode := by
  have hvals : [lengthPrefix p.nameData.length ++ lengthPrefix p.valueData.length, p.nameData,
      p.valueData].flatten = p.encode := by
    simp [NameValuePair.encode]
  rw [addKv_eq hp]
  obtain ⟨buf, hr, hbytes⟩ := appendAll_fits (A := A) _ kvw (hvals ▸ h) w
  exact ⟨buf, hr, hvals ▸ hbytes⟩

theorem extend_fits (ps : List NameValuePair) : ∀ (kvw : NameValuePairWriter),
    (∀ p ∈ ps, p.Encodable) →
    kvw.buf.bytes.length + (NameValuePair.code.encodeAll ps).length ≤ bufLen → ∀ w : FCGIWriter,
    ∃ buf, w.extend A kvw ps = .ok (.ok { kvw with buf := buf }, w) ∧
      buf.bytes = kvw.buf.bytes ++ NameValuePair.code.encodeAll ps := by
  induction ps with
  | nil => intro kvw _ _ w; exact ⟨kvw.buf, rfl, (List.append_nil _).symm⟩
  | cons p ps ih =>
    intro kvw hps h w
    have hcons : NameValuePair.code.encodeAll (p :: ps) =
        p.encode ++ NameValuePair.code.encodeAll ps := rfl
    rw [hcons, List.length_append] at h
    obtain ⟨buf₁, hr, hbytes⟩ := addKv_fits (A := A) (hps p List.mem_cons_self)
      (show kvw.buf.bytes.length + p.encode.length ≤ bufLen by omega) w
    have hlen := congrArg List.length hbytes
    rw [List.length_append] at hlen
    obtain ⟨buf, hr', hbytes'⟩ := ih { kvw with buf := buf₁ }
      (fun q hq => hps q (List.mem_cons_of_mem _ hq)) (by simp only [hlen]; omega) w
    refine ⟨buf, ?_, ?_⟩
    · rw [extend, hr, ok_bind]
      exact hr'
    · rw [hbytes', hcons, ← List.append_assoc]
      exact congrArg (· ++ NameValuePair.code.encodeAll ps) hbytes

/-- The buffer is large enough for every stream that fits into it as a whole. -/
theorem encodeKvp_fits (A : Allocator) (hacc : w.io.Accepting) (requestId : UInt16)
    (rtype : RecordType) {ps : List NameValuePair} (hps : ∀ p ∈ ps, p.Encodable)
    (h : Header.headerLen + (NameValuePair.code.encodeAll ps).length ≤ bufLen) :
    w.encodeKvp A requestId rtype ps ≠ .error .outOfCapacity := by
  obtain ⟨kvw, hkvw, -, -, hstart⟩ := kvStream_streaming A hacc requestId rtype
  obtain ⟨buf, hbuf, hkvw'⟩ := bind_eq_ok.mp hkvw
  have hlen : kvw.buf.bytes.length = Header.headerLen := by
    rw [← Except.ok.inj hkvw']
    exact BytesMut.length_of_setLen hbuf
  obtain ⟨_, hr, -⟩ := extend_fits (A := A) ps kvw hps (by omega) w
  rcases extend_streaming (A := A) ps hps hstart with hcap | ⟨kvw'', w', hr', -, -, hs⟩
  · rw [hr] at hcap
    cases hcap
  · obtain ⟨w'', rs, hend, -⟩ := endStream_streaming A hs
    rw [encodeKvp, hkvw, ok_bind, hr', ok_bind]
    simp only [flush, hend]
    exact nofun

/-- What is sent, as records. -/
theorem encodeKvp_finished (hacc : w.io.Accepting) (requestId : UInt16) (rtype : RecordType)
    {ps : List NameValuePair} (hps : ∀ p ∈ ps, p.Encodable) :
    w.encodeKvp A requestId rtype ps = .error .outOfCapacity ∨
      ∃ w' rs, w.encodeKvp A requestId rtype ps = .ok (.ok (), w') ∧
        w'.io.sent = w.io.sent ++ WireRecord.encodeAll rs ∧
        Finished rtype requestId (NameValuePair.code.encodeAll ps) rs := by
  obtain ⟨kvw, hkvw, rfl, rfl, hstart⟩ := kvStream_streaming A hacc requestId rtype
  rw [encodeKvp, hkvw, ok_bind]
  rcases extend_streaming (A := A) ps hps hstart with hcap | ⟨kvw', w', hr, hty, hid, h⟩
  · left
    rw [hcap]
    rfl
  · simp only [hr, ok_bind]
    obtain ⟨w'', rs, hend, hsent, hfin⟩ := endStream_streaming A h
    rw [List.nil_append, hty, hid] at hfin
    exact Or.inr ⟨w'', rs, hend, hsent, hfin⟩

end FCGIWriter

/-! ## Read back -/

/-- The bytes in the body of a name-value record. -/
def Record.nvContent (r : Record) : Bytes :=
  match r.body.nv? with
  | none => []
  | some nvs => nvs.pairs.flatten

/-- A well-formed stream of a type for a request: every record is padded to a multiple of 8 and
has 1 to 65528 content bytes, but for the last, which has none. -/
def WellFormedStream (rtype : RecordType) (requestId : UInt16) (recs : List Record) : Prop :=
  (∀ r ∈ recs, r.header.rtype = rtype ∧ r.header.requestId = requestId ∧
    8 ∣ r.header.contentLength.toNat + r.header.paddingLength.toNat ∧
    r.nvContent.length = r.header.contentLength.toNat) ∧
  ∃ init last, recs = init ++ [last] ∧ last.header.contentLength = 0 ∧
    ∀ r ∈ init, 1 ≤ r.header.contentLength.toNat ∧ r.header.contentLength.toNat ≤ 65528

theorem fromBytes_flatten {buf : Bytes} (h : buf.length ≤ 0xffff) :
    (NVBody.fromBytes buf).pairs.flatten = buf := by
  have hlen : (UInt16.ofNat buf.length).toNat = buf.length := by
    rw [UInt16.toNat_ofNat']
    omega
  unfold NVBody.fromBytes
  simp only [gt_iff_lt, UInt16.lt_iff_toNat_lt, hlen, UInt16.toNat_zero]
  split
  · simp
  · have : buf = [] := List.length_eq_zero_iff.mp (by omega)
    simp [this]

/-- The record `Record::read` makes of a name-value record on the wire. -/
def WireRecord.nvRecord (r : WireRecord) : Record where
  header := r.header
  body :=
    match r.rtype with
    | .getValues => .getValues (.fromBytes r.content)
    | .getValuesResult => .getValuesResult (.fromBytes r.content)
    | _ => .params (.fromBytes r.content)

theorem WireRecord.nvContent_nvRecord (r : WireRecord) : r.nvRecord.nvContent = r.content := by
  have h := fromBytes_flatten r.content_le
  unfold Record.nvContent nvRecord
  cases r.rtype <;> exact h

/-- The records of a finished name-value stream, read back. -/
theorem FCGIWriter.Finished.wellFormed {rtype : RecordType} (hnv : rtype.IsNV)
    {requestId : UInt16} {stream : Bytes} {rs : List WireRecord}
    (h : Finished rtype requestId stream rs) :
    ∃ recs, Record.incremental.drain () (WireRecord.encodeAll rs) = .ok (recs, (), []) ∧
      WellFormedStream rtype requestId recs ∧ (recs.map Record.nvContent).flatten = stream := by
  refine ⟨rs.map WireRecord.nvRecord, ?_, ⟨fun rec hrec => ?_, ?_⟩, ?_⟩
  · have hread := Record.drain_encodeAll rs (fun r => r.nvRecord.body) (fun r hr => by
      have hty := (h.ofStream r hr).rtype
      unfold WireRecord.nvRecord
      rcases hnv with rfl | rfl | rfl <;> rw [hty] <;> rfl) (show ([] : Bytes).length < 8 by decide)
    rw [List.append_nil] at hread
    exact hread
  · obtain ⟨r, hr, rfl⟩ := List.mem_map.mp hrec
    have hof := h.ofStream r hr
    refine ⟨hof.rtype, hof.requestId, ?_, ?_⟩
    · simpa [WireRecord.nvRecord] using hof.aligned
    · rw [WireRecord.nvContent_nvRecord]
      exact (WireRecord.toNat_contentLength r).symm
  · obtain ⟨init, last, rfl, hlast, hinit⟩ := h.shape
    refine ⟨init.map WireRecord.nvRecord, last.nvRecord, by simp, ?_, fun rec hrec => ?_⟩
    · show UInt16.ofNat last.content.length = 0
      rw [hlast]
      rfl
    · obtain ⟨r, hr, rfl⟩ := List.mem_map.mp hrec
      obtain ⟨hpos, hle⟩ := hinit r hr
      have hlen : r.nvRecord.header.contentLength.toNat = r.content.length :=
        WireRecord.toNat_contentLength r
      rw [hlen]
      exact ⟨hpos, hle⟩
  · rw [List.map_map, ← h.contents]
    congr 2
    funext r
    exact WireRecord.nvContent_nvRecord r

/-- **A name-value stream is well formed.** Any pairs the format has code words for, any
request id, any of the three types, and a transport that accepts every write: unless the
buffer is too small, what `kv_stream`, `add_kv` for each pair and `flush` send is read to its
last byte as a well-formed stream, whose contents are the code words of the pairs. -/
theorem FCGIWriter.encodeKvp_wellFormed (A : Allocator) (w : FCGIWriter)
    (hacc : w.io.Accepting) (requestId : UInt16) {rtype : RecordType} (hnv : rtype.IsNV)
    {ps : List NameValuePair} (hps : ∀ p ∈ ps, p.Encodable)
    (hcap : w.encodeKvp A requestId rtype ps ≠ .error .outOfCapacity) :
    ∃ w' bytes recs, w.encodeKvp A requestId rtype ps = .ok (.ok (), w') ∧
      w'.io.sent = w.io.sent ++ bytes ∧
      Record.incremental.drain () bytes = .ok (recs, (), []) ∧
      WellFormedStream rtype requestId recs ∧
      (recs.map Record.nvContent).flatten = (ps.map NameValuePair.encode).flatten ∧
      NameValuePair.code.decodeAll (recs.map Record.nvContent).flatten = some ps := by
  obtain ⟨w', rs, hr, hsent, hfin⟩ := (encodeKvp_finished hacc requestId rtype hps).resolve_left hcap
  obtain ⟨recs, hread, hwf, hcontents⟩ := hfin.wellFormed hnv
  refine ⟨w', _, recs, hr, hsent, hread, hwf, hcontents, ?_⟩
  rw [hcontents]
  exact Code.decodeAll_encodeAll hps

/-- A transport that takes one byte at a time. -/
def oneByOne : FCGIWriter := ⟨.new fun _ => .accepts 0⟩

theorem oneByOne_accepting : oneByOne.io.Accepting := fun _ => ⟨0, rfl⟩

/-- A pair, one without a value, and one without anything. -/
def threePairs : List NameValuePair := [⟨[65], [98, 99]⟩, ⟨[66], []⟩, ⟨[], []⟩]

theorem FCGIWriter.encodeKvp_wellFormed_threePairs :
    ∃ w' bytes recs, oneByOne.encodeKvp zeroed 1 .params threePairs = .ok (.ok (), w') ∧
      w'.io.sent = oneByOne.io.sent ++ bytes ∧
      Record.incremental.drain () bytes = .ok (recs, (), []) ∧
      WellFormedStream .params 1 recs ∧
      (recs.map Record.nvContent).flatten = (threePairs.map NameValuePair.encode).flatten ∧
      NameValuePair.code.decodeAll (recs.map Record.nvContent).flatten = some threePairs := by
  have hps : ∀ p ∈ threePairs, p.Encodable := by
    intro p hp
    simp only [threePairs, List.mem_cons, List.not_mem_nil, or_false] at hp
    rcases hp with rfl | rfl | rfl <;> exact ⟨by decide, by decide⟩
  exact encodeKvp_wellFormed zeroed oneByOne oneByOne_accepting 1 (Or.inl rfl) hps
    (encodeKvp_fits zeroed oneByOne_accepting 1 .params hps (by decide))

end AsyncFcgi
