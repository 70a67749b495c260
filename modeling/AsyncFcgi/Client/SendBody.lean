import AsyncFcgi.Codec.DataStream

/-!
# Uploads (`src/client/connection.rs`)

`send_body` writes each chunk of a body by `flush_data_chunk`, and counts the bytes that are
missing of the expected length: `len -= s`, where `data_stream` has a `saturating_sub`.

* `sendBody_ends`: what `send_body` writes and returns, unless the body is longer than expected.
* `sendBody_iff`: it keeps to the rule of `data_stream`, at least as many bytes as expected, if
  and only if the body is not longer.
-/

namespace AsyncFcgi

open Lib

namespace FCGIWriter

variable (A : Allocator) {ε : Type}

/-- A chunk in the loop of `send_body` (lines 419–432), which is not empty: what is missing of
`len` behind it. -/
def sendChunk (self : FCGIWriter) (requestId : UInt16) (len : ℕ) (data : Bytes) :
    Except Fault (Except IoError ℕ × FCGIWriter) :=
  if len < data.length then .error .overflow
  else do
    match ← self.flushDataChunk A data requestId .stdIn with
    | (.error e, self) => .ok (.error e, self)
    | (.ok (), self) => .ok (.ok (len - data.length), self)

/-- The end of `send_body` (lines 435–453). -/
def sendEnd (self : FCGIWriter) (requestId : UInt16) (len : ℕ) :
    Except Fault (Except IoError Unit × FCGIWriter) :=
  if 0 < len then do
    match ← self.encode A (.abortRequest requestId) with
    | (.error e, self) => .ok (.error e, self)
    | (.ok (), self) => .ok (.error bodyTooShort, self)
  else self.flushDataChunk A [] requestId .stdIn

/-- `send_body` (lines 409–455), with no other call between two chunks. -/
def sendBody (self : FCGIWriter) (requestId : UInt16) :
    List (Except ε Bytes) → ℕ → Except Fault (Except IoError Unit × FCGIWriter)
  | [], len => self.sendEnd A requestId len
  | .error _ :: chunks, len => sendBody self requestId chunks len
  | .ok data :: chunks, len =>
    if data = [] then sendBody self requestId chunks len
    else do
      match ← self.sendChunk A requestId len data with
      | (.error e, self) => .ok (.error e, self)
      | (.ok len, self) => sendBody self requestId chunks len

variable {A} {w : FCGIWriter} {requestId : UInt16}

theorem sendChunk_writes (A : Allocator) (requestId : UInt16) {len : ℕ} {data : Bytes}
    (hle : data.length ≤ len) :
    ∃ rs, Writes (fun w => w.sendChunk A requestId len data) (WireRecord.encodeAll rs)
        (.ok (.ok (len - data.length))) ∧ ChunkRecords .stdIn requestId data rs := by
  obtain ⟨rs, hwrites, hrecs⟩ := flushDataChunk_writes A requestId .stdIn data
  refine ⟨rs, hwrites.last (fun w w' hw => ?_) (fun w e w' hw => ?_), hrecs⟩
  all_goals
    rw [sendChunk, if_neg (Nat.not_lt.mpr hle), hw]
    rfl

/-- A body that was too short ends with ABORT_REQUEST and an error. -/
theorem sendEnd_short (A : Allocator) (requestId : UInt16) {len : ℕ} (hlen : 0 < len) :
    Writes (fun w => w.sendEnd A requestId len) (abortRecord requestId).encode
      (.ok (.error bodyTooShort)) := by
  refine (Writes.whole (abortRecord requestId).encode).last (fun w w' hw => ?_)
    (fun w e w' hw => ?_)
  all_goals
    rw [sendEnd, if_pos hlen, encode_abortRequest, hw]
    rfl

/-- Any other ends with a record without content. -/
theorem sendEnd_last (A : Allocator) (requestId : UInt16) :
    ∃ last, Writes (fun w => w.sendEnd A requestId 0) last.encode (.ok (.ok ())) ∧
      OfStream .stdIn requestId last ∧ last.content = [] := by
  obtain ⟨rs, hwrites, hrecs⟩ := flushDataChunk_writes A requestId .stdIn []
  obtain ⟨last, rfl, hlast⟩ := hrecs.empty rfl
  rw [WireRecord.encodeAll_cons, WireRecord.encodeAll_nil, List.append_nil] at hwrites
  refine ⟨last, hwrites.last (fun w w' hw => ?_) (fun w e w' hw => ?_),
    hrecs.ofStream last List.mem_cons_self, hlast⟩
  all_goals
    rw [sendEnd, if_neg (Nat.lt_irrefl 0)]
    exact hw

/-- What `send_body` does with a body that is not longer than expected, on a transport that
accepts every write. -/
theorem sendBody_ends (body : List (Except ε Bytes)) : ∀ {w : FCGIWriter} (len : ℕ),
    w.io.Accepting → (bodyData body).length ≤ len →
    ∃ res w' rs last, w.sendBody A requestId body len = .ok (res, w') ∧
      w'.io.sent = w.io.sent ++ WireRecord.encodeAll (rs ++ [last]) ∧
      Ends .stdIn requestId len (bodyData body) res rs last ∧
      (rs.map WireRecord.content).flatten = bodyData body := by
  induction body with
  | nil =>
    intro w len hacc _
    rcases Nat.eq_zero_or_pos len with rfl | hpos
    · obtain ⟨last, hwrites, hlast, hempty⟩ := sendEnd_last A requestId
      obtain ⟨w', hr, hsent, -⟩ := hwrites.of_accepting hacc
      refine ⟨_, w', [], last, hr, ?_, ⟨nofun, fun _ => ⟨rfl, hlast, hempty, rfl⟩, ?_⟩, rfl⟩
      · rw [hsent]
        simp
      · exact fun h => absurd h (Nat.lt_irrefl 0)
    · obtain ⟨w', hr, hsent, -⟩ := (sendEnd_short A requestId hpos).of_accepting hacc
      refine ⟨_, w', [], abortRecord requestId, hr, ?_,
        ⟨nofun, fun h => absurd h (Nat.not_le.mpr hpos), fun _ => ⟨rfl, rfl⟩⟩, rfl⟩
      rw [hsent]
      simp
  | cons chunk chunks ih =>
    intro w len hacc hle
    cases chunk with
    | error e => exact ih len hacc hle
    | ok data =>
      rw [bodyData, List.length_append] at hle
      rw [sendBody]
      by_cases hnil : data = []
      · rw [if_pos hnil, bodyData, hnil, List.nil_append]
        exact ih len hacc (by omega)
      · rw [if_neg hnil]
        have hfit : data.length ≤ len := by omega
        obtain ⟨rs₁, hwrites, hrecs⟩ := sendChunk_writes A requestId hfit
        obtain ⟨w₁, hr, hsent₁, hacc₁⟩ := hwrites.of_accepting hacc
        obtain ⟨res, w', rs, last, hr', hsent, hends, hcontents⟩ :=
          ih (len - data.length) hacc₁ (by omega)
        have hcontents' : ((rs₁ ++ rs).map WireRecord.content).flatten =
            data ++ bodyData chunks := by
          rw [List.map_append, List.flatten_append, hrecs.contents, hcontents]
        simp only [hr, Except.map, ok_bind]
        refine ⟨res, w', rs₁ ++ rs, last, hr', ?_, ⟨?_, fun h => ?_, fun h => ?_⟩, hcontents'⟩
        · rw [hsent, hsent₁, List.append_assoc, List.append_assoc,
            WireRecord.encodeAll_append rs₁]
        · intro x hx
          rcases List.mem_append.mp hx with hmem | hmem
          · exact ⟨hrecs.ofStream x hmem, hrecs.nonempty hnil x hmem⟩
          · exact hends.stream x hmem
        · rw [bodyData, List.length_append] at h
          obtain ⟨hres, hlast, hempty, -⟩ := hends.enough (by omega)
          exact ⟨hres, hlast, hempty, hcontents'⟩
        · rw [bodyData, List.length_append] at h
          exact hends.short (by omega)

/-- A body that is longer than expected is more than the counter can take. -/
theorem sendBody_overflow (body : List (Except ε Bytes)) : ∀ {w : FCGIWriter} {len : ℕ},
    w.io.Accepting → len < (bodyData body).length →
    w.sendBody A requestId body len = .error .overflow := by
  induction body with
  | nil => intro w len _ hlt; exact absurd hlt (Nat.not_lt_zero len)
  | cons chunk chunks ih =>
    intro w len hacc hlt
    cases chunk with
    | error e => exact ih hacc hlt
    | ok data =>
      rw [bodyData, List.length_append] at hlt
      rw [sendBody]
      by_cases hnil : data = []
      · rw [if_pos hnil]
        rw [hnil, List.length_nil, Nat.zero_add] at hlt
        exact ih hacc hlt
      · rw [if_neg hnil]
        by_cases hlong : len < data.length
        · rw [sendChunk, if_pos hlong]
          rfl
        · obtain ⟨rs₁, hwrites, -⟩ := sendChunk_writes A requestId (Nat.not_lt.mp hlong)
          obtain ⟨w₁, hr, -, hacc₁⟩ := hwrites.of_accepting hacc
          simp only [hr, Except.map, ok_bind]
          exact ih hacc₁ (by omega)

/-- What an upload has to do: every chunk that is not empty is sent in order as STDIN, then the
end of STDIN if there were at least `len` bytes, and if not ABORT_REQUEST, and `data_stream` ends
the same way, unless its buffer is too small for a header. -/
def Uploads (A : Allocator) (w : FCGIWriter) (requestId : UInt16) (body : List (Except ε Bytes))
    (len : ℕ) : Prop :=
  ∃ res w' rs last, w.sendBody A requestId body len = .ok (res, w') ∧
    w'.io.sent = w.io.sent ++ WireRecord.encodeAll (rs ++ [last]) ∧
    Ends .stdIn requestId len (bodyData body) res rs last ∧
    (rs.map WireRecord.content).flatten = bodyData body ∧
    (w.dataStream A body requestId .stdIn len = .error .outOfCapacity ∨
      ∃ w'' rs' last', w.dataStream A body requestId .stdIn len = .ok (res, w'') ∧
        w''.io.sent = w.io.sent ++ WireRecord.encodeAll (rs' ++ [last']) ∧
        Ends .stdIn requestId len (bodyData body) res rs' last')

/-- The result is determined by the length of the body. -/
theorem Ends.res_eq {rtype : RecordType} {len : ℕ} {data : Bytes} {res res' : Except IoError Unit}
    {rs rs' : List WireRecord} {last last' : WireRecord}
    (h : Ends rtype requestId len data res rs last)
    (h' : Ends rtype requestId len data res' rs' last') : res = res' := by
  rcases Nat.lt_or_ge data.length len with hlt | hle
  · rw [(h.short hlt).1, (h'.short hlt).1]
  · rw [(h.enough hle).1, (h'.enough hle).1]

/-- **`send_body` does what an upload has to if and only if the body is not longer than
expected**, for any chunks and any expected length. -/
theorem sendBody_iff (A : Allocator) (w : FCGIWriter) (hacc : w.io.Accepting)
    (requestId : UInt16) (body : List (Except ε Bytes)) (len : ℕ) :
    Uploads A w requestId body len ↔ (bodyData body).length ≤ len := by
  constructor
  · rintro ⟨res, w', rs, last, hr, -⟩
    by_contra hlt
    rw [sendBody_overflow body hacc (Nat.not_le.mp hlt)] at hr
    cases hr
  · intro hle
    obtain ⟨res, w', rs, last, hr, hsent, hends, hcontents⟩ :=
      @sendBody_ends A ε requestId body w len hacc hle
    refine ⟨res, w', rs, last, hr, hsent, hends, hcontents, ?_⟩
    rcases @dataStream_ends A ε w requestId .stdIn hacc body len with
      hcap | ⟨res', w'', rs', last', hr', hsent', hends'⟩
    · exact Or.inl hcap
    · obtain rfl := hends.res_eq hends'
      exact Or.inr ⟨w'', rs', last', hr', hsent', hends'⟩

/-- Three bytes in two chunks with an error and an empty chunk between them. -/
theorem sendBody_iff_exact :
    Uploads zeroed oneByOne 1 [.ok [7], .error (), .ok [], .ok [8, 9]] 3 :=
  (sendBody_iff zeroed oneByOne oneByOne_accepting 1 _ 3).mpr (by decide)

/-- A body of unknown size, whose lower bound is 0, with one byte. -/
theorem sendBody_unknown_size :
    ¬ Uploads zeroed oneByOne 1 [(.ok [7] : Except Unit Bytes)] 0 := by
  rintro ⟨res, w', rs, last, hr, -⟩
  cases hr

end FCGIWriter

end AsyncFcgi
