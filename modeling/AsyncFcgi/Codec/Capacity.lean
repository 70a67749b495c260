import AsyncFcgi.Codec.KvStream

/-!
# Capacity of the write buffer (`src/codec.rs`)

`append_to_stream` writes out a full buffer and then takes 8 bytes for the next header by
`set_len`, which reserves nothing: a buffer of the capacity `BUF_LEN` has lost what was written
out. How much that was depends on the lengths of the values. Of each full record it is the
header and the values that end within the record; the value that goes beyond the record is
written without the buffer.

* `runCalls_withinCapacity_iff`: `set_len` finds 8 bytes each time, whatever `put` reserves, if
  and only if what was written out from the buffer adds up to at most 65528 bytes.
-/

namespace AsyncFcgi

open Lib

/-- `with_capacity` allocates what it was asked for. -/
def Allocator.Exact (A : Allocator) : Prop := ∀ n, (A.reserve ⟨[], []⟩ n).length = n

/-! ## What is written out from the buffer -/

/-- The content of a full record. -/
def recordLen : ℕ := bufLen - Header.headerLen

/-- Of values with the lengths `lens`, one behind the other: where the last one ends that is
within the first `m` bytes. -/
def lastEnd : List ℕ → ℕ → ℕ
  | [], _ => 0
  | v :: vs, m => if v ≤ m then v + lastEnd vs (m - v) else 0

/-- What full record `i` takes from the buffer: the header, and the values that end within the
record. -/
def fromBuffer (lens : List ℕ) (i : ℕ) : ℕ :=
  Header.headerLen + (lastEnd lens (recordLen * (i + 1)) - recordLen * i)

/-- The records that are full before the last byte. -/
def fullRecords (lens : List ℕ) : ℕ := (lens.sum - 1) / recordLen

/-- What the first `n` full records take from the buffer. -/
def writtenOut (lens : List ℕ) (n : ℕ) : ℕ := ((List.range n).map (fromBuffer lens)).sum

theorem writtenOut_succ (lens : List ℕ) (n : ℕ) :
    writtenOut lens (n + 1) = writtenOut lens n + fromBuffer lens n := by
  rw [writtenOut, List.range_succ, List.map_append, List.sum_append]
  simp [writtenOut]

theorem writtenOut_mono (lens : List ℕ) {m n : ℕ} (h : m ≤ n) :
    writtenOut lens m ≤ writtenOut lens n := by
  induction n, h using Nat.le_induction with
  | base => exact le_rfl
  | succ n _ ih =>
    rw [writtenOut_succ]
    omega

/-- The value that goes beyond `m` is not counted, and nothing behind it. -/
theorem lastEnd_append (done : List ℕ) (v : ℕ) (rest : List ℕ) : ∀ {m : ℕ}, done.sum ≤ m →
    m < done.sum + v → lastEnd (done ++ v :: rest) m = done.sum := by
  induction done with
  | nil =>
    intro m _ hlt
    rw [List.nil_append, lastEnd, if_neg (by simpa using hlt), List.sum_nil]
  | cons d done ih =>
    intro m hle hlt
    rw [List.sum_cons] at hle hlt ⊢
    rw [List.cons_append, lastEnd, if_pos (by omega), ih (by omega) (by omega)]

/-- The number of full records is what the loop counts. -/
theorem fullRecords_eq {lens : List ℕ} {i : ℕ} (hlt : i = 0 ∨ recordLen * i < lens.sum)
    (hle : lens.sum ≤ recordLen * (i + 1)) : fullRecords lens = i := by
  have hpos : 0 < recordLen := by decide
  rw [Nat.mul_succ] at hle
  refine Nat.div_eq_of_lt_le ?_ ?_
  · rw [Nat.mul_comm]
    rcases hlt with rfl | hlt <;> omega
  · rw [Nat.succ_mul, Nat.mul_comm]
    omega

/-! ## The calls on one buffer -/

/-- A call that adds to the buffer of a stream: `append_to_stream`, as `encode_data` and
`data_stream` call it, or `add_kv`. -/
inductive StreamCall
  | append (val : Bytes)
  | addKv (name val : Bytes)
  deriving DecidableEq, Repr

namespace FCGIWriter

variable (A : Allocator)

/-- One call. The buffer of a stream without names is kept in a `NameValuePairWriter` too. -/
def runCall (self : FCGIWriter) (kvw : NameValuePairWriter) :
    StreamCall → Except Fault (Except IoError NameValuePairWriter × FCGIWriter)
  | .append val => self.appendAll A kvw [val]
  | .addKv name val => self.addKv A kvw name val

/-- One call after the other, to the first error. -/
def runCalls (self : FCGIWriter) (kvw : NameValuePairWriter) :
    List StreamCall → Except Fault (Except IoError NameValuePairWriter × FCGIWriter)
  | [] => .ok (.ok kvw, self)
  | call :: calls => do
    match ← self.runCall A kvw call with
    | (.error e, self) => .ok (.error e, self)
    | (.ok kvw, self) => runCalls self kvw calls

end FCGIWriter

namespace StreamCall

/-- The values a call appends; a name or value that is too long has none. -/
def values : StreamCall → Except Fault (List Bytes)
  | .append val => .ok [val]
  | .addKv name val => do
    let ln ← kvLength name.length
    let lv ← kvLength val.length
    .ok [ln ++ lv, name, val]

/-- The values that calls append, to the first that panics. -/
def appended : List StreamCall → List Bytes
  | [] => []
  | call :: calls =>
    match call.values with
    | .error _ => []
    | .ok vals => vals ++ appended calls

/-- The lengths of these values. -/
def lengths (calls : List StreamCall) : List ℕ := (appended calls).map List.length

theorem appended_cons {call : StreamCall} {vals : List Bytes} (h : call.values = .ok vals)
    (calls : List StreamCall) : appended (call :: calls) = vals ++ appended calls := by
  rw [appended, h]

end StreamCall

namespace FCGIWriter

variable {A : Allocator} {w : FCGIWriter}

theorem runCall_eq (w : FCGIWriter) (kvw : NameValuePairWriter) (call : StreamCall) :
    w.runCall A kvw call = call.values.bind fun vals => w.appendAll A kvw vals := by
  cases call with
  | append val => rfl
  | addKv name val =>
    simp only [runCall, addKv, StreamCall.values]
    cases kvLength name.length with
    | error e => rfl
    | ok ln => cases kvLength val.length <;> rfl

theorem appendAll_append (xs ys : List Bytes) : ∀ (w : FCGIWriter) (kvw : NameValuePairWriter),
    w.appendAll A kvw (xs ++ ys) = (w.appendAll A kvw xs).bind fun
      | (.error e, w) => .ok (.error e, w)
      | (.ok kvw, w) => w.appendAll A kvw ys := by
  induction xs with
  | nil => intro w kvw; rfl
  | cons x xs ih =>
    intro w kvw
    rw [List.cons_append, appendAll, appendAll]
    cases w.appendToStream A x kvw.buf kvw.requestId kvw.rtype with
    | error e => rfl
    | ok r =>
      rcases r with ⟨_ | buf, w'⟩
      · rfl
      · exact ih w' { kvw with buf }

/-- A length that is too big is the only fault of `values`. -/
theorem values_error {call : StreamCall} {e : Fault} (h : call.values = .error e) :
    e = .nameOrValueTooBig := by
  cases call with
  | append val => cases h
  | addKv name val =>
    have hkv : ∀ {l e}, kvLength l = .error e → e = .nameOrValueTooBig := by
      intro l e h
      unfold kvLength at h
      split at h
      · split at h <;> cases h
        rfl
      · cases h
    simp only [StreamCall.values] at h
    cases hn : kvLength name.length with
    | error e' =>
      rw [hn] at h
      cases h
      exact hkv hn
    | ok ln =>
      cases hv : kvLength val.length with
      | error e' =>
        rw [hn, hv] at h
        cases h
        exact hkv hv
      | ok lv =>
        rw [hn, hv] at h
        cases h

/-- The capacity is all about the values that are appended. -/
theorem runCalls_outOfCapacity (calls : List StreamCall) :
    ∀ (w : FCGIWriter) (kvw : NameValuePairWriter),
    w.runCalls A kvw calls = .error .outOfCapacity ↔
      w.appendAll A kvw (StreamCall.appended calls) = .error .outOfCapacity := by
  induction calls with
  | nil => intro w kvw; exact Iff.rfl
  | cons call calls ih =>
    intro w kvw
    rw [runCalls, runCall_eq, StreamCall.appended]
    cases hv : call.values with
    | error e =>
      rw [values_error hv]
      simp [Except.bind, bind, appendAll]
    | ok vals =>
      simp only [appendAll_append]
      cases hr : w.appendAll A kvw vals with
      | error e => simp only [Except.bind, hr, bind]
      | ok r =>
        rcases r with ⟨_ | kvw', w'⟩
        · simp only [Except.bind, hr, bind]
        · simp only [Except.bind, hr, bind]
          exact ih w' kvw'

/-! ## What is left -/

/-- What relates the bytes written out so far to the buffer, whenever `put` adds to it and when
it is written out and takes 8 bytes again. -/
structure Keeps (A : Allocator) (R : ℕ → BytesMut → Prop) : Prop where
  put : ∀ {n buf src}, R n buf → R n (buf.put A src)
  setLen : ∀ {n buf buf'}, R n buf →
    BytesMut.setLen { buf with bytes := [] } Header.headerLen = .ok buf' →
    R (n + buf.bytes.length) buf'

/-- Behind the first `d` bytes of values with the lengths `lens`, `i` records of which are
full. -/
structure Filled (R : ℕ → BytesMut → Prop) (lens : List ℕ) (d i : ℕ) (buf : BytesMut) :
    Prop where
  length : buf.bytes.length = Header.headerLen + (d - recordLen * i)
  le : d ≤ recordLen * (i + 1)
  rel : R (writtenOut lens i) buf

/-- The buffer was written out for a full record, and less than 8 bytes are left. -/
def Exhausted (R : ℕ → BytesMut → Prop) (lens : List ℕ) : Prop :=
  ∃ i buf, recordLen * (i + 1) < lens.sum ∧ buf.bytes.length = fromBuffer lens i ∧
    R (writtenOut lens i) buf ∧ buf.spare.length < Header.headerLen

variable {R : ℕ → BytesMut → Prop} {buf : BytesMut} {requestId : UInt16} {rtype : RecordType}

/-- A turn of the loop in `append_to_stream`: the write fails, 8 bytes are not left, or the rest
of the value is next. -/
theorem appendToStream_full {val : Bytes} (hfull : bufLen < buf.bytes.length + val.length)
    (hmin : Header.headerLen ≤ buf.bytes.length) (hmax : buf.bytes.length ≤ bufLen)
    (w : FCGIWriter) :
    (¬ w.io.Accepting ∧
        ∃ e w', w.appendToStream A val buf requestId rtype = .ok (.error e, w')) ∨
      (buf.spare.length < Header.headerLen ∧
        w.appendToStream A val buf requestId rtype = .error .outOfCapacity) ∨
      ∃ (w' : FCGIWriter) (buf' : BytesMut), w'.io.answer = w.io.answer ∧
        BytesMut.setLen { buf with bytes := [] } Header.headerLen = .ok buf' ∧
        w.appendToStream A val buf requestId rtype =
          w'.appendToStream A (val.drop (bufLen - buf.bytes.length)) buf' requestId rtype := by
  rw [appendToStream, dif_pos hfull, dif_neg (by omega)]
  simp only [writeHeader_of_le _ hmin]
  generalize hbytes : (Header.new rtype requestId (UInt16.ofNat (bufLen - Header.headerLen))).toBytes
    ++ buf.bytes.drop Header.headerLen = bytes
  cases hw : w.writeBoth bytes (val.take (bufLen - buf.bytes.length)) with
  | mk r w' =>
    have hboth := writeBoth_wrote w bytes (val.take (bufLen - buf.bytes.length))
    rw [hw] at hboth
    have hanswer := hboth.answer
    cases hboth with
    | @cut e _ _ _ hno _ _ => exact Or.inl ⟨hno, e, w', rfl⟩
    | all _ _ =>
      refine Or.inr ?_
      simp only
      split
      · rename_i e hset
        left
        unfold BytesMut.setLen at hset
        split at hset
        · cases hset
        · rename_i hcap
          cases hset
          simp only [BytesMut.capacity, List.length_nil] at hcap
          exact ⟨by omega, rfl⟩
      · rename_i buf' hset
        exact Or.inr ⟨w', buf', hanswer, hset, rfl⟩

/-- `append_to_stream` keeps the relation, or a write fails, or the buffer is exhausted. -/
theorem appendToStream_filled (K : Keeps A R) {lens : List ℕ} (done rest : List ℕ) {v : ℕ}
    (hlens : lens = done ++ v :: rest) : ∀ (n : ℕ) (val : Bytes) {i : ℕ} {w : FCGIWriter}
    {buf : BytesMut}, 2 * val.length + (if buf.bytes.length = bufLen then 1 else 0) = n →
    Filled R lens done.sum i buf → max done.sum (recordLen * i) + val.length = done.sum + v →
    (i = 0 ∨ recordLen * i < done.sum + v) →
    (¬ w.io.Accepting ∧ ∃ e w', w.appendToStream A val buf requestId rtype = .ok (.error e, w')) ∨
      (Exhausted R lens ∧ w.appendToStream A val buf requestId rtype = .error .outOfCapacity) ∨
      ∃ (w' : FCGIWriter) (buf' : BytesMut) (i' : ℕ), w'.io.answer = w.io.answer ∧
        w.appendToStream A val buf requestId rtype = .ok (.ok buf', w') ∧
        Filled R lens (done.sum + v) i' buf' ∧ (i' = 0 ∨ recordLen * i' < done.sum + v) := by
  have hrecord : recordLen + Header.headerLen = bufLen := by decide
  intro n
  induction n using Nat.strong_induction_on with
  | _ n ih =>
    intro val i w buf hn h hrest hi
    have hlen := h.length
    have hle := h.le
    rw [Nat.mul_succ] at hle
    by_cases hfull : bufLen < buf.bytes.length + val.length
    · -- record `i` is full
      have hlt : recordLen * (i + 1) < done.sum + v := by
        rw [Nat.mul_succ]
        omega
      have hsum : recordLen * (i + 1) < lens.sum := by
        rw [hlens, List.sum_append, List.sum_cons]
        omega
      have hfrom : buf.bytes.length = fromBuffer lens i := by
        rw [fromBuffer, hlens, lastEnd_append done v rest h.le hlt, ← hlen]
      rcases @appendToStream_full A buf requestId rtype val hfull
        (by omega) (by omega) w with hfail | ⟨hspare, hcap⟩ | ⟨w', buf', hanswer, hset, hr⟩
      · exact Or.inl hfail
      · exact Or.inr (Or.inl ⟨⟨i, buf, hsum, hfrom, h.rel, hspare⟩, hcap⟩)
      · have hlen' := BytesMut.length_of_setLen hset
        have hrel := K.setLen h.rel hset
        rw [hfrom, ← writtenOut_succ] at hrel
        have h' : Filled R lens done.sum (i + 1) buf' := by
          refine ⟨?_, ?_, hrel⟩
          · rw [hlen', Nat.mul_succ]
            omega
          · rw [Nat.mul_succ, Nat.mul_succ]
            omega
        have hacc : w'.io.Accepting ↔ w.io.Accepting := by
          rw [Transport.Accepting, hanswer, Transport.Accepting]
        rw [hr, ← hacc, ← hanswer]
        refine ih _ ?_ _ rfl h' ?_ (Or.inr hlt)
        · rw [hlen', List.length_drop, if_neg (by decide), ← hn]
          split <;> omega
        · rw [List.length_drop, Nat.mul_succ]
          omega
    · refine Or.inr (Or.inr ⟨w, buf.put A val, i, rfl, appendToStream_fits (by omega) w _ _, ?_, hi⟩)
      refine ⟨?_, ?_, K.put h.rel⟩
      · rw [BytesMut.put_bytes, List.length_append]
        omega
      · rw [Nat.mul_succ]
        omega

/-- All values of a stream, behind those that are `done`. -/
theorem appendAll_filled (K : Keeps A R) {lens : List ℕ} (vals : List Bytes) : ∀ {done : List ℕ}
    {i : ℕ} {w : FCGIWriter} {kvw : NameValuePairWriter}, lens = done ++ vals.map List.length →
    Filled R lens done.sum i kvw.buf → (i = 0 ∨ recordLen * i < done.sum) →
    (¬ w.io.Accepting ∧ ∃ e w', w.appendAll A kvw vals = .ok (.error e, w')) ∨
      (Exhausted R lens ∧ w.appendAll A kvw vals = .error .outOfCapacity) ∨
      ∃ kvw' w', w.appendAll A kvw vals = .ok (.ok kvw', w') ∧
        R (writtenOut lens (fullRecords lens)) kvw'.buf := by
  induction vals with
  | nil =>
    intro done i w kvw hlens h hi
    rw [List.map_nil, List.append_nil] at hlens
    rw [← hlens] at h hi
    refine Or.inr (Or.inr ⟨kvw, w, rfl, ?_⟩)
    rw [fullRecords_eq hi h.le]
    exact h.rel
  | cons val vals ih =>
    intro done i w kvw hlens h hi
    rw [List.map_cons] at hlens
    have hrest : max done.sum (recordLen * i) + val.length = done.sum + val.length := by
      rcases hi with rfl | hlt <;> omega
    have hi' : i = 0 ∨ recordLen * i < done.sum + val.length := by omega
    rw [appendAll]
    rcases @appendToStream_filled A R kvw.requestId kvw.rtype K _ done
      (vals.map List.length) _ hlens _ val i w kvw.buf rfl h hrest hi' with
      ⟨hacc, e, w', hr⟩ | ⟨hex, hr⟩ | ⟨w', buf', i', hanswer, hr, h', hi'⟩
    · rw [hr]
      exact Or.inl ⟨hacc, e, w', rfl⟩
    · rw [hr]
      exact Or.inr (Or.inl ⟨hex, rfl⟩)
    · have hacc : w'.io.Accepting ↔ w.io.Accepting := by
        rw [Transport.Accepting, hanswer, Transport.Accepting]
      rw [hr, ← hacc]
      have hsum : (done ++ [val.length]).sum = done.sum + val.length := by
        rw [List.sum_append, List.sum_singleton]
      rw [← hsum] at h' hi'
      exact @ih (done ++ [val.length]) i' w' { kvw with buf := buf' } (by simp [hlens]) h' hi'

/-- The buffer a stream starts with. -/
theorem filled_start {lens : List ℕ} (hlen : buf.bytes.length = Header.headerLen) (h : R 0 buf) :
    Filled R lens ([] : List ℕ).sum 0 buf :=
  ⟨by rw [hlen, List.sum_nil, Nat.zero_sub, Nat.add_zero], Nat.zero_le _, h⟩

/-! ## Enough room, and too little -/

/-- Of a capacity of `c`, all that was not written out is there. -/
def AtLeast (c n : ℕ) (buf : BytesMut) : Prop := c ≤ n + buf.capacity

/-- The capacity is what was not written out, or what the bytes in the buffer need. -/
def Tight (n : ℕ) (buf : BytesMut) : Prop :=
  n ≤ recordLen ∧ buf.spare.length = bufLen - (n + buf.bytes.length)

/-- Whatever `put` reserves, the capacity does not become less. -/
theorem atLeast_keeps (A : Allocator) (c : ℕ) : Keeps A (AtLeast c) where
  put {n buf src} h := by
    have hle : buf.capacity ≤ (buf.put A src).capacity := by
      have hres := A.le_length buf src.length
      unfold BytesMut.put BytesMut.reserve BytesMut.capacity
      split <;> simp only [List.length_append, List.length_drop] <;> omega
    unfold AtLeast at h ⊢
    omega
  setLen {n buf buf'} h hset := by
    unfold BytesMut.setLen at hset
    split at hset
    · cases hset
      unfold AtLeast BytesMut.capacity at h ⊢
      simp only [List.length_take, List.length_drop, List.length_append, List.length_nil]
      omega
    · cases hset

/-- An allocator that reserves no more than it must. -/
theorem tight_keeps : Keeps zeroed Tight where
  put {n buf src} h := by
    refine ⟨h.1, ?_⟩
    have hspare := h.2
    unfold BytesMut.put BytesMut.reserve
    split <;>
      simp only [zeroed, List.length_append, List.length_drop, List.length_replicate] <;> omega
  setLen {n buf buf'} h hset := by
    have hspare := h.2
    have hrecord : recordLen + Header.headerLen = bufLen := by decide
    have hpos : 0 < Header.headerLen := by decide
    unfold BytesMut.setLen at hset
    split at hset
    · rename_i hcap
      cases hset
      simp only [BytesMut.capacity, List.length_nil] at hcap
      refine ⟨by omega, ?_⟩
      simp only [List.length_take, List.length_drop, List.length_append, List.length_nil]
      omega
    · cases hset

/-- The memory behind the header of a new stream. -/
theorem kvStream_spare (hA : A.Exact) {kvw : NameValuePairWriter}
    (h : kvStream A requestId rtype = .ok kvw) :
    kvw.buf.bytes.length = Header.headerLen ∧ kvw.buf.spare.length = recordLen := by
  unfold kvStream BytesMut.setLen BytesMut.withCapacity BytesMut.capacity at h
  obtain ⟨buf, hbuf, h⟩ := bind_eq_ok.mp h
  cases h
  split at hbuf
  · cases hbuf
    simp only [List.nil_append, List.length_take, List.length_drop, hA bufLen]
    exact ⟨by decide, rfl⟩
  · cases hbuf

theorem zeroed_exact : zeroed.Exact := fun _ => List.length_replicate

/-- A new buffer whose capacity is what is written out from it and 8 bytes more has room for each
header. -/
theorem appendAll_within {vals : List Bytes} {kvw : NameValuePairWriter}
    (hlen : kvw.buf.bytes.length = Header.headerLen)
    (hcap : writtenOut (vals.map List.length) (fullRecords (vals.map List.length)) +
      Header.headerLen ≤ kvw.buf.capacity) (w : FCGIWriter) :
    w.appendAll A kvw vals ≠ .error .outOfCapacity := by
  intro hr
  have hlens : vals.map List.length = [] ++ vals.map List.length := rfl
  have hstart : AtLeast kvw.buf.capacity 0 kvw.buf := Nat.le_add_left _ _
  rcases appendAll_filled (w := w) (atLeast_keeps A kvw.buf.capacity) vals hlens
    (filled_start hlen hstart) (Or.inl rfl) with
    ⟨-, e, w', hr'⟩ | ⟨⟨i, buf, hlt, hfrom, hrel, hspare⟩, -⟩ | ⟨kvw', w', hr', -⟩
  · rw [hr] at hr'
    cases hr'
  · -- what record `i` wrote out is counted in the bound
    have hi : i + 1 ≤ fullRecords (vals.map List.length) := by
      refine (Nat.le_div_iff_mul_le (by decide)).mpr ?_
      rw [Nat.mul_comm]
      exact Nat.le_sub_one_of_lt hlt
    have hmono := writtenOut_mono (vals.map List.length) hi
    rw [writtenOut_succ, ← hfrom] at hmono
    unfold AtLeast BytesMut.capacity at hrel
    unfold BytesMut.capacity at hcap
    omega
  · rw [hr] at hr'
    cases hr'

/-- Too much was written out for an allocator that reserves no more than it must. -/
theorem runCalls_exhausted {calls : List StreamCall}
    (h : recordLen < writtenOut (StreamCall.lengths calls) (fullRecords (StreamCall.lengths calls)))
    {kvw : NameValuePairWriter} (hkvw : kvStream zeroed requestId rtype = .ok kvw)
    (hacc : w.io.Accepting) : w.runCalls zeroed kvw calls = .error .outOfCapacity := by
  obtain ⟨hlen, hspare⟩ := kvStream_spare zeroed_exact hkvw
  have htight : Tight 0 kvw.buf := by
    refine ⟨Nat.zero_le _, ?_⟩
    rw [hspare, hlen]
    rfl
  rw [runCalls_outOfCapacity]
  rcases appendAll_filled (w := w) tight_keeps (StreamCall.appended calls) rfl
    (filled_start hlen htight) (Or.inl rfl) with ⟨hno, -⟩ | ⟨-, hr⟩ | ⟨kvw', w', -, hrel⟩
  · exact absurd hacc hno
  · exact hr
  · exact absurd hrel.1 (Nat.not_le.mpr h)

/-- What is written out leaves room for each header. -/
theorem runCalls_within (hA : A.Exact) {calls : List StreamCall}
    (hle : writtenOut (StreamCall.lengths calls) (fullRecords (StreamCall.lengths calls)) ≤ recordLen)
    {kvw : NameValuePairWriter} (hkvw : kvStream A requestId rtype = .ok kvw) (w : FCGIWriter) :
    w.runCalls A kvw calls ≠ .error .outOfCapacity := by
  intro hr
  obtain ⟨hlen, hspare⟩ := kvStream_spare hA hkvw
  rw [runCalls_outOfCapacity] at hr
  refine appendAll_within (A := A) hlen ?_ w hr
  unfold BytesMut.capacity
  rw [hspare, hlen, Nat.add_comm]
  exact Nat.add_le_add_left hle _

/-- **The buffer has room for each header, whatever `put` reserves, if and only if at most 65528
bytes are written out from it.** The buffers of `encode_data` and `data_stream` are made as
`kv_stream` makes this one. -/
theorem runCalls_withinCapacity_iff (calls : List StreamCall) :
    (∀ A : Allocator, A.Exact → ∀ requestId rtype kvw, kvStream A requestId rtype = .ok kvw →
        ∀ w : FCGIWriter, w.runCalls A kvw calls ≠ .error .outOfCapacity) ↔
      writtenOut (StreamCall.lengths calls) (fullRecords (StreamCall.lengths calls)) ≤
        bufLen - Header.headerLen := by
  constructor
  · intro h
    by_contra hlt
    obtain ⟨kvw, hkvw, -⟩ := kvStream_streaming (w := oneByOne) zeroed
      oneByOne_accepting 1 .params
    exact h zeroed zeroed_exact 1 .params kvw hkvw _
      (runCalls_exhausted (Nat.not_le.mp hlt) hkvw oneByOne_accepting)
  · intro hle A hA requestId rtype kvw hkvw w
    exact runCalls_within hA hle hkvw w

/-- One pair fills the buffer but for 6 bytes. Behind it the two length bytes of the second pair
fit and its name does not: 65532 bytes are written out, and of the capacity 4 bytes are left. -/
theorem addKv_outOfCapacity :
    ¬ ∀ A : Allocator, A.Exact → ∀ requestId rtype kvw, kvStream A requestId rtype = .ok kvw →
        ∀ w : FCGIWriter, w.runCalls A kvw
          [.addKv (List.replicate 11 0) (List.replicate 65506 0),
            .addKv (List.replicate 12 0) []] ≠ .error .outOfCapacity := by
  intro h
  obtain ⟨kvw, hkvw, -⟩ := kvStream_streaming (w := oneByOne) zeroed
    oneByOne_accepting 1 .params
  have hlens : StreamCall.lengths [.addKv (List.replicate 11 0) (List.replicate 65506 0),
      .addKv (List.replicate 12 0) []] = [5, 11, 65506, 2, 12, 0] := by
    have hvals : (StreamCall.addKv (List.replicate 11 0) (List.replicate 65506 0)).values =
        .ok [[UInt8.ofNat 11] ++ beU32 (UInt32.ofNat (65506 ||| 0x80000000)), List.replicate 11 0,
          List.replicate 65506 0] := by
      have hname : kvLength 11 = .ok [UInt8.ofNat 11] := rfl
      have hvalue : kvLength 65506 = .ok (beU32 (UInt32.ofNat (65506 ||| 0x80000000))) := rfl
      simp only [StreamCall.values, List.length_replicate, hname, hvalue, ok_bind]
    have hsecond : StreamCall.lengths [.addKv (List.replicate 12 0) []] = [2, 12, 0] := rfl
    rw [StreamCall.lengths, StreamCall.appended_cons hvals, List.map_append]
    simp only [List.map_cons, List.map_nil, List.length_replicate]
    exact congrArg ([5, 11, 65506] ++ ·) hsecond
  refine h zeroed zeroed_exact 1 .params kvw hkvw _ (runCalls_exhausted ?_ hkvw oneByOne_accepting)
  rw [hlens]
  decide

end FCGIWriter

/-! ## Pairs that `add_kv` takes -/

/-- `add_kv` of a pair. -/
def StreamCall.ofPair (p : NameValuePair) : StreamCall := .addKv p.nameData p.valueData

/-- `add_kv` takes the pairs, whatever `put` reserves: no name or value is too long, and what is
written out from the buffer leaves room for each header. -/
structure CanAdd (pairs : List NameValuePair) : Prop where
  encodable : ∀ p ∈ pairs, p.Encodable
  capacity : writtenOut (StreamCall.lengths (pairs.map .ofPair))
    (fullRecords (StreamCall.lengths (pairs.map .ofPair))) ≤ recordLen

namespace FCGIWriter

variable {A : Allocator} {w : FCGIWriter} {requestId : UInt16} {rtype : RecordType}

theorem extend_eq_runCalls (ps : List NameValuePair) : ∀ (w : FCGIWriter)
    (kvw : NameValuePairWriter), w.extend A kvw ps = w.runCalls A kvw (ps.map .ofPair) := by
  induction ps with
  | nil => intro w kvw; rfl
  | cons p ps ih =>
    intro w kvw
    rw [extend, List.map_cons, runCalls]
    show (w.addKv A kvw p.nameData p.valueData).bind _ =
      (w.addKv A kvw p.nameData p.valueData).bind _
    refine congrArg _ (funext fun x => ?_)
    obtain ⟨_ | kvw, w⟩ := x
    · rfl
    · exact ih w kvw

/-- If `add_kv` took all pairs, none of them is too long. -/
theorem extend_encodable {ps : List NameValuePair} : ∀ {w w' : FCGIWriter}
    {kvw kvw' : NameValuePairWriter}, w.extend A kvw ps = .ok (.ok kvw', w') →
      ∀ p ∈ ps, p.Encodable := by
  induction ps with
  | nil => intro w w' kvw kvw' _ p hp; cases hp
  | cons p ps ih =>
    intro w w' kvw kvw' h q hq
    rw [extend] at h
    obtain ⟨⟨_ | kvw₁, w₁⟩, hadd, h⟩ := bind_eq_ok.mp h
    · cases h
    · rcases List.mem_cons.mp hq with rfl | hq
      · by_contra hbig
        rw [addKv_tooBig hbig] at hadd
        cases hadd
      · exact ih h q hq

/-- No fault for pairs that can be added: full records, and the rest is in the buffer. -/
theorem extend_canAdd (hA : A.Exact) {ps : List NameValuePair} (h : CanAdd ps) {buf : BytesMut}
    (hkvw : kvStream A requestId rtype = .ok ⟨requestId, rtype, buf⟩)
    (hbuf : Buffered rtype requestId [] buf []) :
    ∃ rs kvw', (∀ r ∈ rs, OfStream rtype requestId r ∧
        r.content.length = bufLen - Header.headerLen) ∧
      (rs.map WireRecord.content).flatten <+: NameValuePair.code.encodeAll ps ∧
      Writes (fun w => w.extend A ⟨requestId, rtype, buf⟩ ps) (WireRecord.encodeAll rs)
        (.ok (.ok kvw')) := by
  obtain ⟨rs, hrs, ⟨f, hf, hwrites⟩ | ⟨kvw', hwrites, -, -, hbuf'⟩⟩ :=
    extend_extends (A := A) ps ps (List.Subset.refl ps) ⟨requestId, rtype, buf⟩ hbuf
  · -- a fault shows on a transport that accepts every write
    obtain ⟨w', hr, -⟩ := hwrites.of_accepting oneByOne_accepting
    rcases hf with rfl | ⟨p, hp, hbig⟩
    · rw [extend_eq_runCalls] at hr
      exact absurd hr (runCalls_within hA h.capacity hkvw _)
    · exact absurd (h.encodable p hp) hbig
  · refine ⟨rs, kvw', hrs, ?_, hwrites⟩
    have hstream := hbuf'.stream
    rw [List.nil_append, List.nil_append] at hstream
    rw [hstream]
    exact List.prefix_append _ _

/-- A fault for all others, if `put` reserves no more than it must. -/
theorem extend_fault {ps : List NameValuePair} (h : ¬ CanAdd ps) {buf : BytesMut}
    (hkvw : kvStream zeroed requestId rtype = .ok ⟨requestId, rtype, buf⟩)
    (hbuf : Buffered rtype requestId [] buf []) (hacc : w.io.Accepting) :
    ∃ f, w.extend zeroed ⟨requestId, rtype, buf⟩ ps = .error f := by
  obtain ⟨rs, -, ⟨f, -, hwrites⟩ | ⟨kvw', hwrites, -⟩⟩ := extend_extends (A := zeroed) ps ps
    (List.Subset.refl ps) ⟨requestId, rtype, buf⟩ hbuf
  · obtain ⟨w', hr, -⟩ := hwrites.of_accepting hacc
    exact ⟨f, hr⟩
  · obtain ⟨w', hr, -⟩ := hwrites.of_accepting hacc
    have hfull : recordLen < writtenOut (StreamCall.lengths (ps.map .ofPair))
        (fullRecords (StreamCall.lengths (ps.map .ofPair))) := by
      rw [← Nat.not_le]
      exact fun hle => h ⟨extend_encodable hr, hle⟩
    refine ⟨.outOfCapacity, ?_⟩
    rw [extend_eq_runCalls]
    exact runCalls_exhausted hfull hkvw hacc

end FCGIWriter

end AsyncFcgi
