import AsyncFcgi.Fastcgi.NvBodyList

/-!
# Records appended to a buffer (`src/fastcgi.rs`)

`Record::append` of the records that the crate makes. The header and the content go through `put`,
which reserves what it writes. The padding is taken by `advance_mut` from the memory that is left
behind them.

* `Built.sized`: `append` is a row of `put`s, and one `advance_mut`.
* `append_iff`: it returns whatever `put` reserves if and only if there is no padding, or room for
  the whole record from the start.
-/

namespace AsyncFcgi

open Lib

/-- The arguments of the `put`s of `Header::write_into`. -/
def Header.pieces (self : Header) : List Bytes :=
  [[self.version], [self.rtype.toU8], beU16 self.requestId, beU16 self.contentLength,
    [self.paddingLength], [0]]

/-- The arguments of the `put`s for a body. -/
def Body.pieces : Body → List Bytes
  | .beginRequest brb => [beU16 brb.role.toU16, [brb.flags], List.replicate 5 0]
  | .params nvs | .getValues nvs | .getValuesResult nvs => [nvs.pairs.flatten]
  | .stdIn b => [b]
  | _ => []

/-- The content of a body. -/
def Body.content (body : Body) : Bytes := body.pieces.flatten

namespace Record

/-- The records that `BeginRequestBody::new`, `NVBody::to_record` and `STDINBody::new` make; the
pairs of a name-value body have names, and may have been refused by `add`. -/
inductive Built : Record → Prop
  | beginRequest (role : FastCGIRole) (flags : UInt8) (requestId : UInt16) :
      Built (BeginRequestBody.new role flags requestId)
  | nv {ps : List NameValuePair} {rtype : RecordType} {requestId : UInt16} {r : Record}
      (hnames : ∀ p ∈ ps, p.nameData ≠ [])
      (hr : (NVBody.new.addEach ps).toRecord rtype requestId = .ok r) : Built r
  | stdIn (requestId : UInt16) (b : Bytes) : Built (STDINBody.new requestId b).1

/-- `append` returns, and behind what the buffer held it writes the header, the content of the
body and padding, of the lengths in the header and a multiple of 8 bytes. -/
def Appends (A : Allocator) (self : Record) (buf : BytesMut) : Prop :=
  ∃ out padding, self.append A buf = .ok out ∧
    out.bytes = buf.bytes ++ (self.header.toBytes ++ self.body.content ++ padding) ∧
    self.body.content.length = self.header.contentLength.toNat ∧
    padding.length = self.header.paddingLength.toNat ∧
    out.bytes.length = buf.bytes.length +
      (8 + self.header.contentLength.toNat + self.header.paddingLength.toNat) ∧
    8 ∣ 8 + self.header.contentLength.toNat + self.header.paddingLength.toNat

/-- What the constructors make sure of. -/
structure Sized (r : Record) : Prop where
  append_eq : ∀ A buf, r.append A buf =
    (buf.putAll A (r.header.pieces ++ r.body.pieces)).advanceMut r.header.paddingLength.toNat
  content : r.body.content.length = r.header.contentLength.toNat
  aligned : 8 ∣ r.header.contentLength.toNat + r.header.paddingLength.toNat

theorem toRecord_ok {body : NVBody} {rtype : RecordType} {requestId : UInt16} {r : Record}
    (h : body.toRecord rtype requestId = .ok r) :
    r.body.nv? = some body ∧ r.header = Header.new rtype requestId body.len := by
  cases rtype <;> cases h <;> exact ⟨rfl, rfl⟩

theorem pieces_of_nv {body : Body} {nvs : NVBody} (h : body.nv? = some nvs) :
    body.pieces = [nvs.pairs.flatten] := by
  cases body <;> cases h <;> rfl

theorem Built.sized {r : Record} (h : r.Built) : r.Sized := by
  cases h with
  | beginRequest role flags requestId =>
    refine ⟨fun A buf => ?_, rfl, ⟨1, rfl⟩⟩
    have hpad : (BeginRequestBody.new role flags requestId).header.paddingLength.toNat = 0 := rfl
    rw [hpad, BytesMut.advanceMut_zero, BytesMut.putAll, List.foldl_append]
    rfl
  | @nv ps rtype requestId r hnames hr =>
    have hbody := NVBody.addEach_inv ps NVBody.inv_new hnames
    obtain ⟨hnv, hheader⟩ := toRecord_ok hr
    refine ⟨fun A buf => ?_, ?_, ?_⟩
    · rw [append_nv A r hnv (NVBody.drain_eq hbody), pieces_of_nv hnv, BytesMut.putAll,
        List.foldl_append]
      rfl
    · rw [Body.content, pieces_of_nv hnv, List.flatten_singleton, hheader, ← hbody.len_eq]
      rfl
    · rw [hheader]
      exact Header.new_aligned _ _ _
  | stdIn requestId b =>
    have hle : (b.take maxLength).length ≤ maxLength := List.length_take_le _ _
    have hmax : maxLength = 0xffff := rfl
    have hlen : (UInt16.ofNat (b.take maxLength).length).toNat = (b.take maxLength).length := by
      rw [UInt16.toNat_ofNat']
      omega
    refine ⟨fun A buf => ?_, ?_, Header.new_aligned _ _ _⟩
    · show (if (b.take maxLength).length = 0 then _ else _) = _
      split
      · -- the end of the stream has no padding either
        rename_i h0
        have hnil := List.length_eq_zero_iff.mp h0
        have hpad : (STDINBody.new requestId b).1.header.paddingLength.toNat = 0 := by
          show (Header.padFor (UInt16.ofNat (b.take maxLength).length)).toNat = 0
          rw [h0]
          rfl
        have hpieces : (STDINBody.new requestId b).1.body.pieces = [[]] := by
          rw [← hnil]
          rfl
        rw [hpad, hpieces, BytesMut.advanceMut_zero, BytesMut.putAll, List.foldl_append,
          List.foldl_cons, BytesMut.put_nil]
        rfl
      · rw [BytesMut.putAll, List.foldl_append]
        rfl
    · show (b.take maxLength ++ []).length = (UInt16.ofNat (b.take maxLength).length).toNat
      rw [hlen, List.append_nil]

/-- `append` returns exactly if the memory behind header and content has room for the padding. -/
theorem Sized.appends_iff {r : Record} (h : r.Sized) (A : Allocator) (buf : BytesMut) :
    r.Appends A buf ↔ r.header.paddingLength.toNat ≤
      (buf.putAll A (r.header.pieces ++ r.body.pieces)).spare.length := by
  have happend := h.append_eq A buf
  have hbytes : (buf.putAll A (r.header.pieces ++ r.body.pieces)).bytes =
      buf.bytes ++ (r.header.toBytes ++ r.body.content) := by
    rw [BytesMut.putAll_bytes, List.flatten_append]
    rfl
  generalize buf.putAll A (r.header.pieces ++ r.body.pieces) = full at happend hbytes ⊢
  constructor
  · rintro ⟨out, padding, hout, -⟩
    rw [happend, BytesMut.advanceMut] at hout
    split at hout
    · assumption
    · cases hout
  · intro hle
    have hpadding : (full.spare.take r.header.paddingLength.toNat).length =
        r.header.paddingLength.toNat := by
      rw [List.length_take, Nat.min_eq_left hle]
    have hall : full.bytes ++ full.spare.take r.header.paddingLength.toNat =
        buf.bytes ++ (r.header.toBytes ++ r.body.content ++
          full.spare.take r.header.paddingLength.toNat) := by
      rw [hbytes]
      simp only [List.append_assoc]
    have hout : r.append A buf = .ok ⟨full.bytes ++ full.spare.take r.header.paddingLength.toNat,
        full.spare.drop r.header.paddingLength.toNat⟩ := by
      rw [happend, BytesMut.advanceMut, if_pos hle]
    refine ⟨_, _, hout, hall, h.content, hpadding, ?_, ?_⟩
    · show (full.bytes ++ full.spare.take r.header.paddingLength.toNat).length = _
      rw [hall]
      simp only [List.length_append, hpadding, h.content, Header.length_toBytes, Header.headerLen]
    · have := h.aligned
      omega

/-- **Which buffers take a record.** `append` writes header, content and padding whatever `put`
reserves if and only if there is no padding, or the buffer has room for the whole record. -/
theorem append_iff {r : Record} (h : r.Built) (buf : BytesMut) :
    (∀ A, r.Appends A buf) ↔ r.header.paddingLength = 0 ∨
      8 + r.header.contentLength.toNat + r.header.paddingLength.toNat ≤ buf.spare.length := by
  have hs := h.sized
  have hlen : (r.header.pieces ++ r.body.pieces).flatten.length =
      8 + r.header.contentLength.toNat := by
    rw [List.flatten_append, List.length_append, ← hs.content]
    rfl
  have hzero : r.header.paddingLength = 0 ↔ r.header.paddingLength.toNat = 0 :=
    ⟨fun h0 => by rw [h0]; rfl, fun h0 => UInt8.toNat_inj.mp h0⟩
  rw [hzero]
  constructor
  · intro hall
    have hexact := (hs.appends_iff zeroed buf).mp (hall zeroed)
    rw [BytesMut.putAll_zeroed_spare, hlen] at hexact
    omega
  · intro hroom A
    have hleft := BytesMut.le_putAll_spare (A := A) (r.header.pieces ++ r.body.pieces) buf
    rw [hlen] at hleft
    rw [hs.appends_iff]
    omega

/-- Three bytes of STDIN, into a buffer with room for the record. -/
theorem append_iff_stdIn :
    (∀ A, (STDINBody.new 1 [97, 61, 98]).1.Appends A (.withCapacity zeroed 16)) ↔
      (STDINBody.new 1 [97, 61, 98]).1.header.paddingLength = 0 ∨
        8 + (STDINBody.new 1 [97, 61, 98]).1.header.contentLength.toNat +
          (STDINBody.new 1 [97, 61, 98]).1.header.paddingLength.toNat ≤
            (BytesMut.withCapacity zeroed 16).spare.length :=
  append_iff (.stdIn 1 [97, 61, 98]) (.withCapacity zeroed 16)

/-- The same record, into a buffer made for header and content. -/
theorem append_outOfCapacity :
    ¬ ∀ r : Record, r.Built → ∀ A buf, r.append A buf ≠ .error .outOfCapacity ∧ r.Appends A buf := by
  intro h
  refine (h (STDINBody.new 1 [97, 61, 98]).1 (.stdIn 1 [97, 61, 98]) zeroed
    (.withCapacity zeroed 11)).1 ?_
  decide +kernel

end Record

end AsyncFcgi
