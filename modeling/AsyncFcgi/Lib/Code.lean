import Mathlib

/-!
# Self-delimiting codes

A code whose decoder finds the end of a code word by itself, so that words can stand one behind
the other without anything between them.

* `decodeAll_encodeAll`: a sequence of valid values is read back from its code words.
* `Format.decodeAll_flatten`: the same where a value has more than one code word.
* `prefix_of_flatten_prefix`: where a sequence of code words is cut between two of them, so is
  the sequence of values.
-/

namespace Lib

/-- A code for the `Valid` values of `α` in symbols of `β`. The decoder returns the value at
the start of a list and what is behind its code word. -/
structure Code (α β : Type*) where
  Valid : α → Prop
  encode : α → List β
  decode : List β → Option (α × List β)
  decode_encode : ∀ {a}, Valid a → ∀ rest, decode (encode a ++ rest) = some (a, rest)
  decode_lt : ∀ {d a rest}, decode d = some (a, rest) → rest.length < d.length

namespace Code

variable {α β : Type*} (C : Code α β)

/-- The code words one behind the other. -/
def encodeAll (as : List α) : List β := (as.map C.encode).flatten

/-- The values of a list of code words, if it is one. -/
def decodeAll (d : List β) : Option (List α) :=
  if d = [] then some []
  else
    match _h : C.decode d with
    | none => none
    | some (a, rest) => (decodeAll rest).map (a :: ·)
termination_by d.length
decreasing_by exact C.decode_lt ‹_›

variable {C}

theorem encode_ne_nil {a : α} (ha : C.Valid a) : C.encode a ≠ [] := by
  intro h
  have hlt := C.decode_lt (C.decode_encode ha [])
  simp [h] at hlt

theorem decodeAll_cons {a : α} (ha : C.Valid a) (d : List β) :
    C.decodeAll (C.encode a ++ d) = (C.decodeAll d).map (a :: ·) := by
  rw [decodeAll, if_neg (by simp [encode_ne_nil ha])]
  split
  · rename_i h
    rw [C.decode_encode ha] at h
    cases h
  · rename_i h
    rw [C.decode_encode ha] at h
    cases h
    rfl

/-- **A sequence of values is read back from its code words.** -/
theorem decodeAll_encodeAll {as : List α} (has : ∀ a ∈ as, C.Valid a) :
    C.decodeAll (C.encodeAll as) = some as := by
  induction as with
  | nil => rw [encodeAll, List.map_nil, List.flatten_nil, decodeAll, if_pos rfl]
  | cons a as ih =>
    show C.decodeAll (C.encode a ++ C.encodeAll as) = _
    rw [decodeAll_cons (has a List.mem_cons_self), ih fun b hb => has b (List.mem_cons_of_mem _ hb)]
    rfl

end Code

/-- A code in which a value may have any number of code words. -/
structure Format (α β : Type*) where
  Word : α → List β → Prop
  decode : List β → Option (α × List β)
  decode_word : ∀ {a w}, Word a w → ∀ rest, decode (w ++ rest) = some (a, rest)
  decode_lt : ∀ {d a rest}, decode d = some (a, rest) → rest.length < d.length

namespace Format

variable {α β : Type*} (F : Format α β)

/-- The values of a list of code words, if it is one. -/
def decodeAll (d : List β) : Option (List α) :=
  if d = [] then some []
  else
    match _h : F.decode d with
    | none => none
    | some (a, rest) => (decodeAll rest).map (a :: ·)
termination_by d.length
decreasing_by exact F.decode_lt ‹_›

variable {F}

theorem decodeAll_word {a : α} {w : List β} (hw : F.Word a w) (d : List β) :
    F.decodeAll (w ++ d) = (F.decodeAll d).map (a :: ·) := by
  have hdecode := F.decode_word hw d
  have hne : w ++ d ≠ [] := by
    intro h
    have hlt := F.decode_lt hdecode
    rw [h] at hlt
    exact Nat.not_lt_zero _ hlt
  rw [decodeAll, if_neg hne]
  split
  · rename_i h
    rw [hdecode] at h
    cases h
  · rename_i h
    rw [hdecode] at h
    cases h
    rfl

/-- **A sequence of values is read back from any code words of them.** -/
theorem decodeAll_flatten {as : List α} {ws : List (List β)} (h : List.Forall₂ F.Word as ws) :
    F.decodeAll ws.flatten = some as := by
  induction h with
  | nil => rw [List.flatten_nil, decodeAll, if_pos rfl]
  | cons hw _ ih =>
    rw [List.flatten_cons, decodeAll_word hw, ih]
    rfl

end Format

/-- Each code word shows where it ends. -/
structure SelfDelimiting {α β : Type*} (encode : α → List β) : Prop where
  ne_nil : ∀ a, encode a ≠ []
  inj : ∀ {a b s t}, encode a ++ s = encode b ++ t → a = b ∧ s = t

theorem prefix_of_flatten_prefix {α β : Type*} {encode : α → List β} (h : SelfDelimiting encode)
    {as : List α} : ∀ {bs : List α},
    (as.map encode).flatten <+: (bs.map encode).flatten → as <+: bs := by
  induction as with
  | nil => exact fun _ => List.nil_prefix
  | cons a as ih =>
    intro bs hpre
    obtain ⟨t, ht⟩ := hpre
    rw [List.map_cons, List.flatten_cons, List.append_assoc] at ht
    cases bs with
    | nil => exact absurd (List.append_eq_nil_iff.mp ht).1 (h.ne_nil a)
    | cons b bs =>
      rw [List.map_cons, List.flatten_cons] at ht
      obtain ⟨rfl, hrest⟩ := h.inj ht
      exact List.cons_prefix_cons.mpr ⟨rfl, ih ⟨t, hrest⟩⟩

end Lib
