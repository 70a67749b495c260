import AsyncFcgi.Lib.Incremental

/-!
# `bytes::Buf` and `bytes::BufMut` on byte lists

Byte strings are lists of `UInt8`. A `get_*`, `advance`, `slice` or index past the
end panics. A panic is an `Except` error, so no caller can go on after it; a loop that
repeats one state for ever is an error of the same kind.

`BytesMut` keeps the memory behind its last byte, because the crate exposes it:
`set_len` and `advance_mut` make bytes of it readable without writing them.
-/

namespace AsyncFcgi

open Lib

abbrev Bytes := List UInt8

/-- Why a call does not return. -/
inductive Fault
  /-- a read, slice or index past the end -/
  | outOfBounds
  /-- `advance_mut` or `set_len` past the capacity -/
  | outOfCapacity
  /-- a loop that makes no progress -/
  | loops
  /-- `expect("not a fcgi type")` -/
  | notAFcgiType (o : UInt8)
  /-- `expect("not a fcgi status")` -/
  | notAFcgiStatus (o : UInt8)
  /-- `panic!("not impl")` -/
  | notImpl
  /-- `panic!("No valid type")` -/
  | noValidType
  /-- `panic!()` of `add_kv`: a name or value above `0x7fffffff` bytes -/
  | nameOrValueTooBig
  /-- `expect("KVPair bigger that 0xFFFF")` -/
  | kvPairTooBig
  /-- an index into the slab, or a `remove`, at a vacant key -/
  | invalidKey
  /-- a subtraction below zero -/
  | overflow
  /-- `unwrap()` on `None` -/
  | unwrapNone
  /-- `expect("header name validated by httparse")` -/
  | invalidHeaderName
  deriving DecidableEq, Repr

/-! ## Reading -/

/-- `Buf::get_u8`. -/
def getU8 : Bytes → Except Fault (UInt8 × Bytes)
  | a :: rest => .ok (a, rest)
  | [] => .error .outOfBounds

/-- `Buf::get_u16`, big-endian. -/
def getU16 : Bytes → Except Fault (UInt16 × Bytes)
  | a :: b :: rest => .ok (UInt16.ofNat (a.toNat * 2 ^ 8 + b.toNat), rest)
  | _ => .error .outOfBounds

/-- `Buf::get_u32`, big-endian. -/
def getU32 : Bytes → Except Fault (UInt32 × Bytes)
  | a :: b :: c :: d :: rest =>
    .ok (UInt32.ofNat (a.toNat * 2 ^ 24 + b.toNat * 2 ^ 16 + c.toNat * 2 ^ 8 + d.toNat), rest)
  | _ => .error .outOfBounds

/-- `Buf::advance`. -/
def advance (data : Bytes) (cnt : ℕ) : Except Fault Bytes :=
  if cnt ≤ data.length then .ok (data.drop cnt) else .error .outOfBounds

/-- `Bytes::slice(lo..hi)`. -/
def slice (data : Bytes) (lo hi : ℕ) : Except Fault Bytes :=
  if lo ≤ hi ∧ hi ≤ data.length then .ok ((data.drop lo).take (hi - lo)) else .error .outOfBounds

/-- `data[i]`. -/
def index (data : Bytes) (i : ℕ) : Except Fault UInt8 :=
  match data[i]? with
  | some b => .ok b
  | none => .error .outOfBounds

/-! ## Writing -/

/-- The bytes of `BufMut::put_u16`. -/
def beU16 (x : UInt16) : Bytes := [UInt8.ofNat (x.toNat / 2 ^ 8), UInt8.ofNat x.toNat]

/-- The bytes of `BufMut::put_u32`. -/
def beU32 (x : UInt32) : Bytes :=
  [UInt8.ofNat (x.toNat / 2 ^ 24), UInt8.ofNat (x.toNat / 2 ^ 16), UInt8.ofNat (x.toNat / 2 ^ 8),
    UInt8.ofNat x.toNat]

@[simp] theorem length_beU16 (x : UInt16) : (beU16 x).length = 2 := rfl

@[simp] theorem length_beU32 (x : UInt32) : (beU32 x).length = 4 := rfl

@[simp] theorem getU8_cons (a : UInt8) (rest : Bytes) : getU8 (a :: rest) = .ok (a, rest) := rfl

@[simp] theorem getU16_beU16 (x : UInt16) (rest : Bytes) :
    getU16 (beU16 x ++ rest) = .ok (x, rest) := by
  have hx := x.toNat_lt
  simp only [beU16, List.cons_append, List.nil_append, getU16, UInt8.toNat_ofNat']
  congr 2
  apply UInt16.toNat_inj.mp
  rw [UInt16.toNat_ofNat']
  omega

@[simp] theorem getU32_beU32 (x : UInt32) (rest : Bytes) :
    getU32 (beU32 x ++ rest) = .ok (x, rest) := by
  have hx := x.toNat_lt
  simp only [beU32, List.cons_append, List.nil_append, getU32, UInt8.toNat_ofNat']
  congr 2
  apply UInt32.toNat_inj.mp
  rw [UInt32.toNat_ofNat']
  omega

@[simp] theorem advance_append (a rest : Bytes) : advance (a ++ rest) a.length = .ok rest := by
  simp [advance]

theorem advance_of_le {data : Bytes} {cnt : ℕ} (h : cnt ≤ data.length) :
    advance data cnt = .ok (data.drop cnt) := by
  rw [advance, if_pos h]

/-- `rest` is `data` without its first `n` bytes. -/
def Consumes (n : ℕ) (data rest : Bytes) : Prop := rest <:+ data ∧ rest.length + n = data.length

theorem Consumes.trans {m n : ℕ} {a b c : Bytes} (h : Consumes m a b) (h' : Consumes n b c) :
    Consumes (m + n) a c :=
  ⟨h'.1.trans h.1, by have := h.2; have := h'.2; omega⟩

theorem getU8_consumes {data rest : Bytes} {x : UInt8} (h : getU8 data = .ok (x, rest)) :
    Consumes 1 data rest := by
  match data, h with
  | _ :: _, h => cases h; exact ⟨List.suffix_cons _ _, rfl⟩

theorem getU16_consumes {data rest : Bytes} {x : UInt16} (h : getU16 data = .ok (x, rest)) :
    Consumes 2 data rest := by
  match data, h with
  | _ :: _ :: _, h =>
    cases h
    exact ⟨(List.suffix_cons _ _).trans (List.suffix_cons _ _), rfl⟩

theorem advance_consumes {data rest : Bytes} {n : ℕ} (h : advance data n = .ok rest) :
    Consumes n data rest := by
  unfold advance at h
  split at h
  · simp only [Except.ok.injEq] at h
    rw [← h]
    exact ⟨List.drop_suffix n data, by rw [List.length_drop]; omega⟩
  · cases h

/-- Two ways of cutting one byte string: the shorter front is a prefix of the longer. -/
theorem split_of_append_eq {x y d fut : Bytes} (h : x ++ y = d ++ fut)
    (hle : x.length ≤ d.length) : ∃ tail, d = x ++ tail ∧ y = tail ++ fut := by
  obtain ⟨tail, rfl⟩ := List.prefix_of_prefix_length_le ⟨y, h⟩ (List.prefix_append d fut) hle
  rw [List.append_assoc, List.append_cancel_left_eq] at h
  exact ⟨tail, rfl, h⟩

theorem slice_of_le {data : Bytes} {hi : ℕ} (h : hi ≤ data.length) :
    slice data 0 hi = .ok (data.take hi) := by
  rw [slice, if_pos ⟨Nat.zero_le _, h⟩]; rfl

/-! ## `BytesMut` -/

/-- A growable buffer: its bytes, and the memory between its length and its capacity. -/
structure BytesMut where
  bytes : Bytes
  spare : Bytes
  deriving DecidableEq, Repr

/-- What `reserve` finds or allocates: the memory behind the last byte afterwards. -/
structure Allocator where
  reserve : BytesMut → ℕ → Bytes
  le_length : ∀ buf n, n ≤ (reserve buf n).length

/-- An allocator that hands out as much as asked for, zeroed. -/
def zeroed : Allocator where
  reserve _ n := List.replicate n 0
  le_length _ n := by simp

namespace BytesMut

variable (A : Allocator)

def capacity (buf : BytesMut) : ℕ := buf.bytes.length + buf.spare.length

/-- `BytesMut::with_capacity`. -/
def withCapacity (n : ℕ) : BytesMut := ⟨[], A.reserve ⟨[], []⟩ n⟩

/-- `BytesMut::reserve`. -/
def reserve (buf : BytesMut) (n : ℕ) : BytesMut :=
  if n ≤ buf.spare.length then buf else { buf with spare := A.reserve buf n }

/-- `BufMut::put` and `put_slice`: reserves as needed. -/
def put (buf : BytesMut) (src : Bytes) : BytesMut :=
  let buf := buf.reserve A src.length
  { bytes := buf.bytes ++ src, spare := buf.spare.drop src.length }

/-- `BufMut::advance_mut`: the next `cnt` bytes of the spare memory, as they are. -/
def advanceMut (buf : BytesMut) (cnt : ℕ) : Except Fault BytesMut :=
  if cnt ≤ buf.spare.length then
    .ok { bytes := buf.bytes ++ buf.spare.take cnt, spare := buf.spare.drop cnt }
  else .error .outOfCapacity

/-- `BytesMut::set_len`. -/
def setLen (buf : BytesMut) (len : ℕ) : Except Fault BytesMut :=
  if len ≤ buf.capacity then
    .ok { bytes := (buf.bytes ++ buf.spare).take len, spare := (buf.bytes ++ buf.spare).drop len }
  else .error .outOfCapacity

variable {A}

@[simp] theorem put_bytes (buf : BytesMut) (src : Bytes) :
    (buf.put A src).bytes = buf.bytes ++ src := by
  unfold put reserve
  split <;> rfl

/-- A `put` that fits takes its bytes from the spare memory. -/
theorem put_of_le {buf : BytesMut} {src : Bytes} (h : src.length ≤ buf.spare.length) :
    buf.put A src = ⟨buf.bytes ++ src, buf.spare.drop src.length⟩ := by
  simp [put, reserve, h]

@[simp] theorem put_nil (buf : BytesMut) : buf.put A [] = buf := by
  simp [put, reserve]

/-- Several `put`s, one after the other. -/
def putAll (A : Allocator) (buf : BytesMut) (pieces : List Bytes) : BytesMut :=
  pieces.foldl (put A) buf

@[simp] theorem putAll_bytes (pieces : List Bytes) : ∀ buf : BytesMut,
    (buf.putAll A pieces).bytes = buf.bytes ++ pieces.flatten := by
  induction pieces with
  | nil => simp [putAll]
  | cons src pieces ih =>
    intro buf
    show ((buf.put A src).putAll A pieces).bytes = _
    rw [ih, put_bytes, List.flatten_cons, List.append_assoc]

/-- `put` takes its bytes from the spare memory, or from memory it reserves. -/
theorem le_put_spare (buf : BytesMut) (src : Bytes) :
    buf.spare.length - src.length ≤ (buf.put A src).spare.length := by
  unfold put reserve
  split
  · rw [List.length_drop]
  · omega

theorem le_putAll_spare (pieces : List Bytes) : ∀ buf : BytesMut,
    buf.spare.length - pieces.flatten.length ≤ (buf.putAll A pieces).spare.length := by
  induction pieces with
  | nil => simp [putAll]
  | cons src pieces ih =>
    intro buf
    have hput := le_put_spare (A := A) buf src
    have hall := ih (buf.put A src)
    show _ ≤ ((buf.put A src).putAll A pieces).spare.length
    rw [List.flatten_cons, List.length_append]
    omega

/-- Without memory beyond what is asked for, nothing is left behind a `put` that reserves. -/
theorem put_zeroed_spare (buf : BytesMut) (src : Bytes) :
    (buf.put zeroed src).spare.length = buf.spare.length - src.length := by
  unfold put reserve
  split
  · rw [List.length_drop]
  · simp only [zeroed, List.length_drop, List.length_replicate]
    omega

theorem putAll_zeroed_spare (pieces : List Bytes) : ∀ buf : BytesMut,
    (buf.putAll zeroed pieces).spare.length = buf.spare.length - pieces.flatten.length := by
  induction pieces with
  | nil => simp [putAll]
  | cons src pieces ih =>
    intro buf
    show ((buf.put zeroed src).putAll zeroed pieces).spare.length = _
    rw [ih, put_zeroed_spare, List.flatten_cons, List.length_append]
    omega

theorem advanceMut_zero (buf : BytesMut) : buf.advanceMut 0 = .ok buf := by
  rw [advanceMut, if_pos (Nat.zero_le _), List.take_zero, List.append_nil, List.drop_zero]

theorem length_of_setLen {buf buf' : BytesMut} {len : ℕ} (h : buf.setLen len = .ok buf') :
    buf'.bytes.length = len := by
  unfold setLen capacity at h
  split at h
  · cases h
    rw [List.length_take, List.length_append]
    omega
  · cases h

@[simp] theorem withCapacity_bytes (n : ℕ) : (withCapacity A n).bytes = [] := rfl

theorem le_withCapacity_spare (n : ℕ) : n ≤ (withCapacity A n).spare.length :=
  A.le_length _ n

end BytesMut

end AsyncFcgi
