import AsyncFcgi.Fastcgi.Readers
import AsyncFcgi.Io

/-!
# The answer to a query (`src/client/con_pool.rs`)

`send_and_receive` reads until there is nothing left over behind the last record. It does not look
at the number of bytes a read returned, so it also goes on behind the end of the stream, where each
read returns none.

* `sendAndReceive_returns`, `sendAndReceive_aligned`: the loop is left at the first read up to
  which there are whole records only.
* `finishes_iff`: so it ends exactly if there is such a read.
-/

namespace AsyncFcgi

open Lib

/-- What the reads of a connection return, one after the other. Behind the last of them the
connection is closed. -/
abbrev Inbound := List (Except IoError Bytes)

/-- `read_buf`; at the end of the stream it is `Ok(0)`, from then on. -/
def readBuf : Inbound → Except IoError Bytes × Inbound
  | [] => (.ok [], [])
  | got :: sock => (got, sock)

/-- The loop of `send_and_receive` (lines 167–179), at most `fuel` times: the records, the bytes
kept in `rbuf`, and the connection. Before each read there is room for 4096 bytes in `rbuf`, so
only the end of the stream reads none. -/
def sendAndReceive : ℕ → List Record → Bytes → Inbound →
    Option (Except Fault (Except IoError (List Record) × Inbound))
  | 0, _, _, _ => none
  | fuel + 1, recs, rbuf, sock =>
    match readBuf sock with
    | (.error e, sock) => some (.ok (.error e, sock))
    | (.ok got, sock) =>
      match Record.incremental.drain () (rbuf ++ got) with
      | .error f => some (.error f)
      | .ok (more, (), pbuf) =>
        if pbuf = [] then some (.ok (.ok (recs ++ more), sock))
        else sendAndReceive fuel (recs ++ more) pbuf sock

/-- What is returned are the records received so far, all of them whole, or an error. -/
def CompleteOrError (cs : List Bytes) (res : Except IoError (List Record)) (sock : Inbound) : Prop :=
  ∀ recs, res = .ok recs → ∃ front left, cs = front ++ left ∧ sock = left.map .ok ∧
    ∃ rs, front.flatten = RawRecord.encodeAll rs ∧ rs.mapM RawRecord.parse = .ok recs

/-- The query finishes: after finitely many reads the loop returns. -/
def Finishes (cs : List Bytes) : Prop :=
  ∃ fuel res sock, sendAndReceive fuel [] [] (cs.map .ok) = some (.ok (res, sock)) ∧
    CompleteOrError cs res sock

/-- At the end of some read everything received so far are whole records, none of which is
rejected. With nothing at all to read, the first read is the end of the stream. -/
def Aligned (cs : List Bytes) : Prop :=
  ∃ front left, cs = front ++ left ∧ (front = [] → left = []) ∧
    ∃ rs recs, front.flatten = RawRecord.encodeAll rs ∧ rs.mapM RawRecord.parse = .ok recs

section Loop

variable {pre : Bytes} {recs : List Record} {rbuf : Bytes}

/-- One round, seen from all the bytes `pre` that were read before. -/
theorem sendAndReceive_succ (hpre : Record.incremental.drain () pre = .ok (recs, (), rbuf))
    {sock sock' : Inbound} {got : Bytes} (hread : readBuf sock = (.ok got, sock')) (fuel : ℕ) :
    sendAndReceive (fuel + 1) recs rbuf sock =
      match Record.incremental.drain () (pre ++ got) with
      | .error f => some (.error f)
      | .ok (recs', (), pbuf) =>
        if pbuf = [] then some (.ok (.ok recs', sock')) else sendAndReceive fuel recs' pbuf sock' := by
  simp only [sendAndReceive, hread]
  rw [Record.waits.drain_append got hpre]
  cases Record.incremental.drain () (rbuf ++ got) <;> rfl

/-- Where the loop returns, it did the reads `front`, and there are whole records only. -/
theorem sendAndReceive_returns (fuel : ℕ) : ∀ {pre : Bytes} {recs : List Record} {rbuf : Bytes}
    {cs : List Bytes} {res : Except IoError (List Record)} {sock : Inbound},
    Record.incremental.drain () pre = .ok (recs, (), rbuf) →
    sendAndReceive fuel recs rbuf (cs.map .ok) = some (.ok (res, sock)) →
    ∃ front left recs', cs = front ++ left ∧ (front = [] → left = []) ∧ sock = left.map .ok ∧
      res = .ok recs' ∧
      Record.incremental.drain () (pre ++ front.flatten) = .ok (recs', (), []) := by
  induction fuel with
  | zero => exact fun _ h => nomatch h
  | succ fuel ih =>
    intro pre recs rbuf cs res sock hpre h
    cases cs with
    | nil =>
      -- a read behind the end of the stream
      have hread : readBuf (([] : List Bytes).map .ok) = (.ok [], []) := rfl
      rw [sendAndReceive_succ hpre hread, List.append_nil, hpre] at h
      simp only at h
      split at h
      · rename_i hnil
        cases h
        exact ⟨[], [], recs, rfl, fun _ => rfl, rfl, rfl, by rw [List.flatten_nil, List.append_nil,
          hpre, hnil]⟩
      · exact ih hpre h
    | cons c cs =>
      have hread : readBuf ((c :: cs).map .ok) = (.ok c, cs.map .ok) := rfl
      rw [sendAndReceive_succ hpre hread] at h
      cases hd : Record.incremental.drain () (pre ++ c) with
      | error f =>
        rw [hd] at h
        cases h
      | ok x =>
        obtain ⟨recs₁, _, pbuf⟩ := x
        rw [hd] at h
        simp only at h
        split at h
        · rename_i hnil
          cases h
          refine ⟨[c], cs, recs₁, rfl, nofun, rfl, rfl, ?_⟩
          rw [List.flatten_singleton, hd, hnil]
        · obtain ⟨front, left, recs', rfl, -, hsock, hres, hdrain⟩ := ih hd h
          refine ⟨c :: front, left, recs', rfl, nofun, hsock, hres, ?_⟩
          rwa [List.flatten_cons, ← List.append_assoc]

/-- The loop is left at a read up to which there are whole records only, or before. -/
theorem sendAndReceive_aligned (front : List Bytes) : ∀ {pre : Bytes} {recs recs' : List Record}
    {rbuf : Bytes} {left : List Bytes}, Record.incremental.drain () pre = .ok (recs, (), rbuf) →
    (front = [] → left = []) →
    Record.incremental.drain () (pre ++ front.flatten) = .ok (recs', (), []) →
    ∃ fuel res sock,
      sendAndReceive fuel recs rbuf ((front ++ left).map .ok) = some (.ok (res, sock)) := by
  induction front with
  | nil =>
    intro pre recs recs' rbuf left hpre hleft hdrain
    have hread : readBuf [] = (.ok [], []) := rfl
    rw [List.flatten_nil] at hdrain
    refine ⟨1, .ok recs', [], ?_⟩
    rw [hleft rfl, List.append_nil, List.map_nil, sendAndReceive_succ hpre hread, hdrain]
    rfl
  | cons c front ih =>
    intro pre recs recs' rbuf left hpre _ hdrain
    rw [List.flatten_cons, ← List.append_assoc] at hdrain
    have hread : readBuf (((c :: front) ++ left).map .ok) = (.ok c, (front ++ left).map .ok) := rfl
    have hsucc := sendAndReceive_succ hpre hread
    cases hd : Record.incremental.drain () (pre ++ c) with
    | error f =>
      rw [Record.waits.drain_error _ hd] at hdrain
      cases hdrain
    | ok x =>
      obtain ⟨recs₁, _, pbuf⟩ := x
      simp only [hd] at hsucc
      by_cases hnil : pbuf = []
      · refine ⟨1, .ok recs₁, (front ++ left).map .ok, ?_⟩
        rw [hsucc, if_pos hnil]
      · have hleft : front = [] → left = [] := by
          rintro rfl
          rw [List.flatten_nil, List.append_nil, hd] at hdrain
          cases hdrain
          exact absurd rfl hnil
        obtain ⟨fuel, res, sock, hrun⟩ := ih hd hleft hdrain
        refine ⟨fuel + 1, res, sock, ?_⟩
        rw [hsucc, if_neg hnil, hrun]

end Loop

theorem completeOrError (fuel : ℕ) {cs : List Bytes} {res : Except IoError (List Record)}
    {sock : Inbound} (h : sendAndReceive fuel [] [] (cs.map .ok) = some (.ok (res, sock))) :
    CompleteOrError cs res sock := by
  intro recs hres
  obtain ⟨front, left, recs', hcs, -, hsock, hres', hdrain⟩ :=
    sendAndReceive_returns fuel Record.drain_nil h
  obtain rfl : recs' = recs := Except.ok.inj (hres'.symm.trans hres)
  rw [List.nil_append] at hdrain
  exact ⟨front, left, hcs, hsock, Record.drain_eq_ok.mp hdrain⟩

/-- **When the query finishes.** Any bytes, in any reads, and then the end of the stream: after
finitely many reads `send_and_receive` returns the records received so far, exactly if at the end of
some read these are whole records, none of them rejected. Behind a truncated answer each round
reads nothing, and the loop goes on for ever. -/
theorem finishes_iff (cs : List Bytes) : Finishes cs ↔ Aligned cs := by
  constructor
  · rintro ⟨fuel, res, sock, h, -⟩
    obtain ⟨front, left, recs, hcs, hleft, -, -, hdrain⟩ :=
      sendAndReceive_returns fuel Record.drain_nil h
    rw [List.nil_append] at hdrain
    obtain ⟨rs, hrs, hparse⟩ := Record.drain_eq_ok.mp hdrain
    exact ⟨front, left, hcs, hleft, rs, recs, hrs, hparse⟩
  · rintro ⟨front, left, rfl, hleft, rs, recs, hrs, hparse⟩
    have hdrain := Record.drain_eq_ok.mpr ⟨rs, hrs, hparse⟩
    obtain ⟨fuel, res, sock, h⟩ := sendAndReceive_aligned front Record.drain_nil hleft hdrain
    exact ⟨fuel, res, sock, h, completeOrError fuel h⟩

/-- Where the loop returns with the only read `d`, there are whole records in it. -/
theorem whole_of_singleton {fuel : ℕ} {d : Bytes} {res : Except IoError (List Record)}
    {sock : Inbound} (h : sendAndReceive fuel [] [] ([d].map .ok) = some (.ok (res, sock))) :
    ∃ recs, Record.incremental.drain () d = .ok (recs, (), []) := by
  obtain ⟨front, left, recs, hcs, hleft, -, -, hdrain⟩ :=
    sendAndReceive_returns fuel Record.drain_nil h
  cases front with
  | nil =>
    rw [hleft rfl] at hcs
    cases hcs
  | cons c front =>
    obtain ⟨rfl, hnil⟩ := List.cons.inj hcs
    obtain ⟨rfl, -⟩ := List.append_eq_nil_iff.mp hnil.symm
    rw [List.nil_append, List.flatten_singleton] at hdrain
    exact ⟨recs, hdrain⟩

/-- Over every division into reads: the query finishes behind whole records only. -/
theorem finishes_all_iff (d : Bytes) : (∀ cs : List Bytes, cs.flatten = d → Finishes cs) ↔
    ∃ rs recs, d = RawRecord.encodeAll rs ∧ rs.mapM RawRecord.parse = .ok recs := by
  constructor
  · intro h
    obtain ⟨fuel, res, sock, hrun, -⟩ := h [d] List.flatten_singleton
    obtain ⟨recs, hdrain⟩ := whole_of_singleton hrun
    obtain ⟨rs, hrs, hparse⟩ := Record.drain_eq_ok.mp hdrain
    exact ⟨rs, recs, hrs, hparse⟩
  · rintro ⟨rs, recs, rfl, hparse⟩ cs hcs
    have hdrain := Record.drain_eq_ok.mpr ⟨rs, hcs, hparse⟩
    have hrun : ∃ fuel res sock,
        sendAndReceive fuel [] [] ((cs ++ []).map .ok) = some (.ok (res, sock)) :=
      sendAndReceive_aligned cs Record.drain_nil (fun _ => rfl) hdrain
    rw [List.append_nil] at hrun
    obtain ⟨fuel, res, sock, hrun⟩ := hrun
    exact ⟨fuel, res, sock, hrun, completeOrError fuel hrun⟩

/-- Seven bytes of a header. -/
def truncated : List Bytes := [[1, 10, 0, 0, 0, 33, 7]]

/-- The application closes the connection behind them. -/
theorem not_finishes_truncated : ¬ Finishes truncated := by
  rintro ⟨fuel, res, sock, h, -⟩
  obtain ⟨recs, hdrain⟩ := whole_of_singleton h
  have hread : Record.incremental.read () [1, 10, 0, 0, 0, 33, 7] =
      .ok (none, (), [1, 10, 0, 0, 0, 33, 7]) := rfl
  rw [Incremental.drain_none hread] at hdrain
  cases hdrain

end AsyncFcgi
