import AsyncFcgi.Fastcgi.Basic

/-!
# Name-value pairs (`src/fastcgi.rs`)

`NameValuePair::parse`, the record body `NVBody` with `fits`, `add`, `from_bytes` and
`drain`, and the iterator `NVDrain`.

The lengths of a pair are written in one byte below `0x80` and in four bytes, with the
top bit set, from `0x80` on. `lengthPrefix` and `NameValuePair.encode` say so once, for
all encoders.

* `lengthPrefix_eq_add`: the prefix bytes computed by `NVBody::add`.
* `paramLength_short`, `paramLength_long`: `param_length` reads the one byte form, and
  panics on every four byte form, because it takes `get_u32` from a slice of three bytes.
-/

namespace AsyncFcgi

open Lib

/-- `NameValuePair` (lines 44–47). -/
structure NameValuePair where
  nameData : Bytes
  valueData : Bytes
  deriving DecidableEq, Repr

/-- The length prefix of the FastCGI name-value format: the top bit of the first byte
tells the four byte form. -/
def lengthPrefix (n : ℕ) : Bytes :=
  if n ≤ 0x7f then [UInt8.ofNat n] else beU32 (UInt32.ofNat (n + 2 ^ 31))

/-- A pair on the wire. -/
def NameValuePair.encode (p : NameValuePair) : Bytes :=
  lengthPrefix p.nameData.length ++ lengthPrefix p.valueData.length ++ p.nameData ++ p.valueData

namespace NameValuePair

/-- `NameValuePair::param_length` (lines 262–274): the length, and the new `pos`. -/
def paramLength (data : Bytes) (pos : ℕ) : Except Fault (ℕ × ℕ) := do
  let length ← index data pos
  if length.toNat >>> 7 = 1 then
    let s ← slice data (pos + 1) (pos + 4)
    let (v, _) ← getU32 s
    .ok ((v &&& 0x7FFFFFFF).toNat, pos + 4)
  else .ok (length.toNat, pos + 1)

/-- `NameValuePair::parse` (lines 240–254): the pair, and what is left of `data`. -/
def parse (data : Bytes) : Except Fault (NameValuePair × Bytes) := do
  let (keyLength, pos) ← paramLength data 0
  let (valueLength, pos) ← paramLength data pos
  let key ← slice data pos (pos + keyLength)
  let pos := pos + keyLength
  let value ← slice data pos (pos + valueLength)
  let pos := pos + valueLength
  let data ← advance data pos
  .ok (⟨key, value⟩, data)

/-- `NameValuePair::len` (lines 275–286). -/
def len (self : NameValuePair) : ℕ :=
  let ln := self.nameData.length
  let lv := self.valueData.length
  let lf := ln + lv + 2
  let lf := if ln > 0x7f then lf + 3 else lf
  if lv > 0x7f then lf + 3 else lf

theorem length_lengthPrefix (n : ℕ) :
    (lengthPrefix n).length = if n > 0x7f then 4 else 1 := by
  unfold lengthPrefix
  split_ifs <;> first | rfl | omega

theorem sum_le_len (p : NameValuePair) :
    p.nameData.length + p.valueData.length + 2 ≤ p.len := by
  simp only [len]
  split_ifs <;> omega

/-- `len` is the length of the encoding. -/
theorem length_encode (p : NameValuePair) : p.encode.length = p.len := by
  simp only [encode, len, List.length_append, length_lengthPrefix]
  split_ifs <;> omega

end NameValuePair

/-! ## `NVBody` -/

/-- `NVBody` (lines 50–53). -/
structure NVBody where
  pairs : BufList
  len : UInt16
  deriving DecidableEq, Repr

namespace NVBody

/-- `NVBody::new` (lines 513–518). -/
def new : NVBody := ⟨.new, 0⟩

/-- `NVBody::fits` (lines 540–543). -/
def fits (self : NVBody) (pair : NameValuePair) : Bool :=
  pair.len + self.len.toNat ≤ maxLength

/-- The buffer with both length prefixes built by `NVBody::add` (lines 551–581), from
`ln` and `lv` as they are after `|= 0x80000000`. -/
def addLengths (ln lv : ℕ) : Bytes :=
  (if ln > 0x7f then beU32 (UInt32.ofNat ln) else [UInt8.ofNat ln]) ++
    if lv > 0x7f then beU32 (UInt32.ofNat lv) else [UInt8.ofNat lv]

/-- `NVBody::add` (lines 544–589): the body afterwards, and what is returned. -/
def add (self : NVBody) (pair : NameValuePair) : NVBody × Except Unit Unit :=
  let l := pair.len + self.len.toNat
  if l > maxLength then (self, .error ())
  else
    let self := { self with len := UInt16.ofNat l }
    let ln := pair.nameData.length
    let lv := pair.valueData.length
    if ln + lv > maxLength then (self, .error ())
    else if ln > 0x7f ∧ ln > 0x7fffffff then (self, .error ())
    else
      let ln := if ln > 0x7f then ln ||| 0x80000000 else ln
      if lv > 0x7f ∧ lv > 0x7fffffff then (self, .error ())
      else
        let lv := if lv > 0x7f then lv ||| 0x80000000 else lv
        let pairs := (self.pairs.push (addLengths ln lv)).push pair.nameData
        let pairs := if lv > 0 then pairs.push pair.valueData else pairs
        ({ self with pairs }, .ok ())

/-- Several `add` calls one after another, as long as they are accepted. -/
def addAll (self : NVBody) : List NameValuePair → Option NVBody
  | [] => some self
  | p :: ps =>
    match self.add p with
    | (self, .ok ()) => addAll self ps
    | (_, .error ()) => none

/-- `NVBody::from_bytes` (lines 591–598). -/
def fromBytes (buf : Bytes) : NVBody :=
  let len := UInt16.ofNat buf.length
  if len > 0 then ⟨BufList.new.push buf, len⟩ else ⟨.new, len⟩

/-- `NVBody::drain` (lines 599–601): the bytes behind the returned `NVDrain`. -/
def drain (self : NVBody) : Except Fault Bytes :=
  (self.pairs.copyToBytes self.len.toNat).map Prod.fst

end NVBody

/-! ## Length prefixes -/

theorem or_top_bit {n : ℕ} (h : n < 2 ^ 31) : n ||| 0x80000000 = n + 2 ^ 31 := by
  rw [Nat.lor_comm, show 0x80000000 = 2 ^ 31 * 1 by norm_num,
    ← Nat.two_pow_add_eq_or_of_lt (by simpa using h)]
  omega

/-- The prefix bytes of `NVBody::add` are those of the format. -/
theorem lengthPrefix_eq_add {n : ℕ} (h : n < 2 ^ 31) :
    (if (if n > 0x7f then n ||| 0x80000000 else n) > 0x7f
      then beU32 (UInt32.ofNat (if n > 0x7f then n ||| 0x80000000 else n))
      else [UInt8.ofNat (if n > 0x7f then n ||| 0x80000000 else n)]) = lengthPrefix n := by
  unfold lengthPrefix
  by_cases hn : n ≤ 0x7f
  · rw [if_neg (by omega : ¬ n > 0x7f), if_neg (by omega), if_pos hn]
  · rw [if_pos (by omega : n > 0x7f), or_top_bit h, if_pos (by omega), if_neg hn]

/-- The first byte of a four byte prefix has its top bit set. -/
theorem lengthPrefix_long {n : ℕ} (h : 0x7f < n) (hlt : n < 2 ^ 31) :
    ∃ a b c d, lengthPrefix n = [a, b, c, d] ∧ a.toNat >>> 7 = 1 := by
  refine ⟨_, _, _, _, by unfold lengthPrefix; rw [if_neg (by omega)]; rfl, ?_⟩
  rw [UInt8.toNat_ofNat', UInt32.toNat_ofNat', Nat.shiftRight_eq_div_pow]
  omega

namespace NameValuePair

/-- `param_length` at a one byte prefix. -/
theorem paramLength_short (pre rest : Bytes) {n : ℕ} (h : n ≤ 0x7f) :
    paramLength (pre ++ lengthPrefix n ++ rest) pre.length = .ok (n, pre.length + 1) := by
  have hidx : index (pre ++ lengthPrefix n ++ rest) pre.length = .ok (UInt8.ofNat n) := by
    unfold lengthPrefix index
    rw [if_pos h, List.append_assoc, List.getElem?_append_right le_rfl]
    simp
  have hn : (UInt8.ofNat n).toNat = n := by rw [UInt8.toNat_ofNat']; omega
  have hs : ¬ n >>> 7 = 1 := by rw [Nat.shiftRight_eq_div_pow]; omega
  simp only [paramLength, hidx, ok_bind, hn, if_neg hs]

/-- `param_length` panics at every four byte prefix. -/
theorem paramLength_long (pre rest : Bytes) {n : ℕ} (h : 0x7f < n) (hlt : n < 2 ^ 31) :
    paramLength (pre ++ lengthPrefix n ++ rest) pre.length = .error .outOfBounds := by
  obtain ⟨a, b, c, d, hp, ha⟩ := lengthPrefix_long h hlt
  rw [hp]
  have hidx : index (pre ++ [a, b, c, d] ++ rest) pre.length = .ok a := by
    unfold index
    rw [List.append_assoc, List.getElem?_append_right le_rfl]
    simp
  have hsl : slice (pre ++ [a, b, c, d] ++ rest) (pre.length + 1) (pre.length + 4) =
      .ok [b, c, d] := by
    unfold slice
    rw [if_pos (by simp)]
    have hdrop : (pre ++ [a, b, c, d] ++ rest).drop (pre.length + 1) = [b, c, d] ++ rest := by
      rw [List.append_assoc, ← List.drop_drop, List.drop_left]
      rfl
    rw [hdrop, show pre.length + 4 - (pre.length + 1) = 3 by omega]
    rfl
  -- the slice has three bytes, `get_u32` wants four
  simp only [paramLength, hidx, ok_bind, if_pos ha, hsl]
  rfl

end NameValuePair

end AsyncFcgi
