import AsyncFcgi.Bytes

/-!
# `BufList` (`src/bufvec.rs`)

A queue of byte buffers that is itself a `Buf`. `push` only debug-asserts that its
argument is not empty, so the model stores what it is given.
-/

namespace AsyncFcgi

open Lib

/-- `BufList<Bytes>` (lines 4–6). -/
structure BufList where
  bufs : List Bytes
  deriving DecidableEq, Repr

namespace BufList

/-- `BufList::new` (lines 9–13). -/
def new : BufList := ⟨[]⟩

/-- `BufList::push` (lines 16–19). -/
def push (self : BufList) (buf : Bytes) : BufList := ⟨self.bufs ++ [buf]⟩

/-- `BufList::oldest` (lines 22–24): the front buffer, and the rest. -/
def oldest (self : BufList) : Option Bytes × BufList := (self.bufs.head?, ⟨self.bufs.tail⟩)

/-- `Buf::remaining` (lines 29–31). -/
def remaining (self : BufList) : ℕ := (self.bufs.map List.length).sum

/-- `Buf::chunk` (lines 34–36). -/
def chunk (self : BufList) : Bytes := self.bufs.headD []

/-- The loop of `Buf::advance` (lines 39–56). -/
def advanceBufs : List Bytes → ℕ → List Bytes
  | bufs, 0 => bufs
  | [], _ + 1 => []
  | front :: rest, cnt + 1 =>
    if front.length > cnt + 1 then front.drop (cnt + 1) :: rest
    else advanceBufs rest (cnt + 1 - front.length)

/-- `Buf::advance` (lines 39–56). -/
def advance (self : BufList) (cnt : ℕ) : BufList := ⟨advanceBufs self.bufs cnt⟩

/-- The bytes of the list, in order. -/
def flatten (self : BufList) : Bytes := self.bufs.flatten

/-- The loop of the default `Buf::copy_to_bytes`: copy `chunk` (at most `len` bytes of
it), `advance` by as much. An empty chunk leaves the state as it was. -/
def copyLoop (self : BufList) (len : ℕ) : Except Fault (Bytes × BufList) :=
  if min self.remaining len = 0 then .ok ([], self)
  else if _h : self.chunk.take len = [] then .error .loops
  else
    copyLoop (self.advance (self.chunk.take len).length) (len - (self.chunk.take len).length) >>=
      fun x => .ok (self.chunk.take len ++ x.1, x.2)
termination_by len
decreasing_by
  have : 0 < (self.chunk.take len).length := List.length_pos_iff.mpr ‹_›
  have : (self.chunk.take len).length ≤ len := by simp
  omega

/-- The default `Buf::copy_to_bytes`. -/
def copyToBytes (self : BufList) (len : ℕ) : Except Fault (Bytes × BufList) :=
  if self.remaining < len then .error .outOfBounds else self.copyLoop len

/-! ## Flattened views -/

@[simp] theorem flatten_new : new.flatten = [] := rfl

@[simp] theorem flatten_push (self : BufList) (buf : Bytes) :
    (self.push buf).flatten = self.flatten ++ buf := by
  simp [flatten, push]

@[simp] theorem remaining_eq (self : BufList) : self.remaining = self.flatten.length := by
  simp [remaining, flatten, List.length_flatten]

theorem advanceBufs_flatten (bufs : List Bytes) (cnt : ℕ) :
    (advanceBufs bufs cnt).flatten = bufs.flatten.drop cnt := by
  induction bufs, cnt using advanceBufs.induct with
  | case1 bufs => simp [advanceBufs]
  | case2 cnt => simp [advanceBufs]
  | case3 front rest cnt h =>
    rw [advanceBufs, if_pos h, List.flatten_cons, List.flatten_cons,
      List.drop_append_of_le_length (by omega)]
  | case4 front rest cnt h ih =>
    have hle : front.length ≤ cnt + 1 := by omega
    rw [advanceBufs, if_neg h, ih, List.flatten_cons, Nat.succ_eq_add_one, List.drop_append,
      List.drop_eq_nil_of_le hle, List.nil_append]

@[simp] theorem flatten_advance (self : BufList) (cnt : ℕ) :
    (self.advance cnt).flatten = self.flatten.drop cnt :=
  advanceBufs_flatten self.bufs cnt

/-- No buffer of the list is empty. -/
def NonEmpty (self : BufList) : Prop := ∀ b ∈ self.bufs, b ≠ []

theorem nonEmpty_new : new.NonEmpty := by simp [NonEmpty, new]

theorem NonEmpty.push {self : BufList} (h : self.NonEmpty) {buf : Bytes} (hb : buf ≠ []) :
    (self.push buf).NonEmpty := by
  intro b hmem
  rcases List.mem_append.mp hmem with hmem | hmem
  · exact h b hmem
  · rw [List.mem_singleton.mp hmem]; exact hb

theorem advanceBufs_nonEmpty (bufs : List Bytes) (cnt : ℕ) (h : ∀ b ∈ bufs, b ≠ []) :
    ∀ b ∈ advanceBufs bufs cnt, b ≠ [] := by
  induction bufs, cnt using advanceBufs.induct with
  | case1 bufs => simpa [advanceBufs] using h
  | case2 cnt => simp [advanceBufs]
  | case3 front rest cnt hlt =>
    rw [advanceBufs, if_pos hlt]
    intro b hb
    rcases List.mem_cons.mp hb with rfl | hb
    · intro hnil
      have := congrArg List.length hnil
      simp at this
      omega
    · exact h b (List.mem_cons_of_mem _ hb)
  | case4 front rest cnt hlt ih =>
    rw [advanceBufs, if_neg hlt]
    exact ih fun b hb => h b (List.mem_cons_of_mem _ hb)

theorem NonEmpty.advance {self : BufList} (h : self.NonEmpty) (cnt : ℕ) :
    (self.advance cnt).NonEmpty :=
  advanceBufs_nonEmpty self.bufs cnt h

/-- The front chunk is a prefix of the bytes, and not empty while bytes remain. -/
theorem NonEmpty.chunk {self : BufList} (h : self.NonEmpty) (hr : 0 < self.remaining) :
    self.chunk ≠ [] ∧ self.chunk <+: self.flatten := by
  obtain ⟨bufs⟩ := self
  cases bufs with
  | nil => simp [remaining] at hr
  | cons front rest =>
    exact ⟨h front List.mem_cons_self, ⟨rest.flatten, by simp [BufList.chunk, flatten]⟩⟩

/-- On a list without empty buffers the copy loop ends and returns the first bytes. -/
theorem copyLoop_eq (len : ℕ) : ∀ self : BufList, self.NonEmpty → len ≤ self.remaining →
    ∃ rest, self.copyLoop len = .ok (self.flatten.take len, rest) ∧ rest.NonEmpty ∧
      rest.flatten = self.flatten.drop len := by
  induction len using Nat.strong_induction_on with
  | _ len ih =>
    intro self hne hlen
    rw [copyLoop]
    by_cases h0 : len = 0
    · subst h0
      exact ⟨self, by simp, hne, by simp⟩
    · obtain ⟨hc, tail, htail⟩ := hne.chunk (by omega)
      have hpos : 0 < (self.chunk.take len).length := by
        have := List.length_pos_iff.mpr hc
        rw [List.length_take]; omega
      have hle : (self.chunk.take len).length ≤ len := by simp
      have hpre : self.chunk.take len = self.flatten.take (self.chunk.take len).length :=
        List.prefix_iff_eq_take.mp ((List.take_prefix _ _).trans ⟨tail, htail⟩)
      rw [remaining_eq] at hlen
      obtain ⟨rest, hrest, hrne, hrf⟩ := ih (len - (self.chunk.take len).length) (by omega)
        (self.advance (self.chunk.take len).length) (hne.advance _) (by simp; omega)
      rw [flatten_advance] at hrest hrf
      refine ⟨rest, ?_, hrne, ?_⟩
      · rw [if_neg (by rw [remaining_eq]; omega), dif_neg (List.length_pos_iff.mp hpos), hrest,
          ok_bind]
        congr 2
        generalize hn : (self.chunk.take len).length = n at *
        rw [hpre, ← List.take_add]
        congr 1; omega
      · rw [hrf, List.drop_drop]
        congr 1; omega

theorem copyToBytes_eq {self : BufList} (hne : self.NonEmpty) {len : ℕ}
    (hlen : len ≤ self.remaining) :
    ∃ rest, self.copyToBytes len = .ok (self.flatten.take len, rest) ∧ rest.NonEmpty ∧
      rest.flatten = self.flatten.drop len := by
  rw [copyToBytes, if_neg (by omega)]
  exact copyLoop_eq len self hne hlen

end BufList

end AsyncFcgi
