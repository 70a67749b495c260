import Mathlib

/-!
# Slabs

A slab stores values under small keys. A key that was removed is used again before a new
one is made; which of the vacant keys that is, is left open (`CanInsert`).

* `get?_set`, `get?_remove`, `get?_insertAt`, `get?_map`: reading behind each operation.
* `get?_foldl`: reading behind a list of messages.
* `mem_values`, `values_map`: the stored values.
* `size_set`, `size_remove`, `size_insertAt`, `length_le_size`: how many there are.
-/

namespace Lib

/-- The entries in the order of their keys; `none` is a vacant key. -/
structure Slab (α : Type*) where
  entries : List (Option α)
  deriving DecidableEq, Repr

namespace Slab

variable {α β : Type*}

/-- The slab without entries. -/
def empty : Slab α := ⟨[]⟩

/-- The value at a key. -/
def get? (s : Slab α) (k : ℕ) : Option α := s.entries[k]?.join

/-- Another value at an occupied key. -/
def set (s : Slab α) (k : ℕ) (v : α) : Slab α := ⟨s.entries.set k (some v)⟩

/-- The slab with the key vacant. -/
def remove (s : Slab α) (k : ℕ) : Slab α := ⟨s.entries.set k none⟩

/-- The keys an insertion may use: a vacant one if there is one, else the next new one. -/
def CanInsert (s : Slab α) (k : ℕ) : Prop :=
  s.entries[k]?.map Option.isNone = some true ∨ (k = s.entries.length ∧ s.entries.all Option.isSome)

instance (s : Slab α) (k : ℕ) : Decidable (s.CanInsert k) :=
  inferInstanceAs (Decidable (_ ∨ _))

/-- Insertion at a key that may be used. -/
def insertAt (s : Slab α) (k : ℕ) (v : α) : Slab α :=
  if k < s.entries.length then s.set k v else ⟨s.entries ++ [some v]⟩

/-- `f` applied to every value. -/
def map (f : α → β) (s : Slab α) : Slab β := ⟨s.entries.map (Option.map f)⟩

/-- The values in the order of their keys. -/
def values (s : Slab α) : List α := s.entries.filterMap id

/-- The number of values. -/
def size (s : Slab α) : ℕ := s.values.length

@[simp] theorem get?_empty (k : ℕ) : (empty : Slab α).get? k = none := by
  simp [get?, empty]

theorem get?_eq_some {s : Slab α} {k : ℕ} {v : α} :
    s.get? k = some v ↔ s.entries[k]? = some (some v) := by
  simp [get?, Option.join_eq_some_iff]

theorem lt_of_get? {s : Slab α} {k : ℕ} {v : α} (h : s.get? k = some v) :
    k < s.entries.length := by
  rw [get?_eq_some] at h
  exact (List.getElem?_eq_some_iff.mp h).1

theorem get?_set {s : Slab α} {k : ℕ} {v : α} (h : s.get? k = some v) (v' : α) (j : ℕ) :
    (s.set k v').get? j = if j = k then some v' else s.get? j := by
  have hk := lt_of_get? h
  by_cases hj : j = k
  · subst hj
    simp [get?, set, hk]
  · simp [get?, set, hj, Ne.symm hj]

@[simp] theorem get?_remove (s : Slab α) (k j : ℕ) :
    (s.remove k).get? j = if j = k then none else s.get? j := by
  by_cases hj : j = k
  · subst hj
    by_cases hlt : j < s.entries.length <;> simp [get?, remove, hlt]
  · simp [get?, remove, hj, Ne.symm hj]

@[simp] theorem get?_map (f : α → β) (s : Slab α) (k : ℕ) :
    (s.map f).get? k = (s.get? k).map f := by
  simp only [get?, map, List.getElem?_map]
  rcases s.entries[k]? with _ | (_ | v) <;> rfl

theorem get?_of_canInsert {s : Slab α} {k : ℕ} (h : s.CanInsert k) : s.get? k = none := by
  rcases h with h | ⟨rfl, -⟩
  · obtain ⟨o, ho, hn⟩ := Option.map_eq_some_iff.mp h
    rw [get?, ho]
    exact Option.isNone_iff_eq_none.mp hn
  · simp [get?]

theorem get?_insertAt {s : Slab α} {k : ℕ} (h : s.CanInsert k) (v : α) (j : ℕ) :
    (s.insertAt k v).get? j = if j = k then some v else s.get? j := by
  unfold insertAt
  rcases h with h | ⟨rfl, -⟩
  · obtain ⟨o, ho, -⟩ := Option.map_eq_some_iff.mp h
    have hk : k < s.entries.length := (List.getElem?_eq_some_iff.mp ho).1
    rw [if_pos hk]
    by_cases hj : j = k
    · subst hj
      simp [get?, set, hk]
    · simp [get?, set, hj, Ne.symm hj]
  · rw [if_neg (lt_irrefl _)]
    by_cases hj : j = s.entries.length
    · subst hj
      simp [get?]
    · by_cases hlt : j < s.entries.length
      · simp [get?, hj, List.getElem?_append_left hlt]
      · simp [get?, hj, List.getElem?_eq_none (show (s.entries ++ [some v]).length ≤ j by
          simp; omega), List.getElem?_eq_none (show s.entries.length ≤ j by omega)]

/-- Messages that each change the value at one key, or remove it: the value at a key behind a list
of messages is that behind the messages for the key. -/
theorem get?_foldl {ι : Type*} {step : Slab α → ι → Slab α} {key? : ι → Option ℕ}
    {f : α → ι → Option α}
    (hstep : ∀ s i k, (step s i).get? k =
      if key? i = some k then (s.get? k).bind fun v => f v i else s.get? k)
    (is : List ι) (k : ℕ) : ∀ s : Slab α,
    (is.foldl step s).get? k =
      (s.get? k).bind fun v => (is.filter fun i => key? i = some k).foldlM f v := by
  induction is with
  | nil =>
    intro s
    cases hs : s.get? k <;> exact hs
  | cons i is ih =>
    intro s
    rw [List.foldl_cons, ih, hstep]
    by_cases hk : key? i = some k
    · simp only [hk, if_true, Option.bind_assoc, decide_true, List.filter_cons_of_pos]
      rfl
    · simp only [hk, if_false, decide_false, Bool.false_eq_true, not_false_eq_true,
        List.filter_cons_of_neg]

theorem mem_values {s : Slab α} {v : α} : v ∈ s.values ↔ ∃ k, s.get? k = some v := by
  simp only [values, List.mem_filterMap, id_eq, get?_eq_some]
  constructor
  · rintro ⟨o, ho, rfl⟩
    obtain ⟨k, hk, he⟩ := List.mem_iff_getElem.mp ho
    exact ⟨k, by rw [List.getElem?_eq_getElem hk, he]⟩
  · rintro ⟨k, hk⟩
    exact ⟨some v, List.mem_of_getElem? hk, rfl⟩

@[simp] theorem values_map (f : α → β) (s : Slab α) : (s.map f).values = s.values.map f := by
  simp [values, map, List.filterMap_map, List.map_filterMap]

/-! ## Sizes -/

theorem size_eq_countP (s : Slab α) : s.size = s.entries.countP Option.isSome := by
  rw [size, values, List.countP_eq_length_filter]
  induction s.entries with
  | nil => rfl
  | cons o os ih =>
    cases o with
    | none => exact ih
    | some v => simpa using ih

@[simp] theorem size_map (f : α → β) (s : Slab α) : (s.map f).size = s.size := by
  rw [size, values_map, List.length_map, size]

@[simp] theorem length_set (s : Slab α) (k : ℕ) (v : α) :
    (s.set k v).entries.length = s.entries.length :=
  List.length_set

@[simp] theorem length_remove (s : Slab α) (k : ℕ) :
    (s.remove k).entries.length = s.entries.length :=
  List.length_set

@[simp] theorem length_map (f : α → β) (s : Slab α) :
    (s.map f).entries.length = s.entries.length :=
  List.length_map _

theorem size_set {s : Slab α} {k : ℕ} {v : α} (h : s.get? k = some v) (v' : α) :
    (s.set k v').size = s.size := by
  have hk := lt_of_get? h
  have hv : s.entries[k] = some v := by
    rw [get?_eq_some, List.getElem?_eq_getElem hk] at h
    exact Option.some.inj h
  rw [size_eq_countP, size_eq_countP, set, List.countP_set hk, hv]
  have hpos : 0 < s.entries.countP Option.isSome :=
    List.countP_pos_iff.mpr ⟨some v, hv ▸ List.getElem_mem hk, rfl⟩
  simp only [Option.isSome_some, if_true]
  omega

theorem size_remove {s : Slab α} {k : ℕ} {v : α} (h : s.get? k = some v) :
    (s.remove k).size + 1 = s.size := by
  have hk := lt_of_get? h
  have hv : s.entries[k] = some v := by
    rw [get?_eq_some, List.getElem?_eq_getElem hk] at h
    exact Option.some.inj h
  rw [size_eq_countP, size_eq_countP, remove, List.countP_set hk, hv]
  have hpos : 0 < s.entries.countP Option.isSome :=
    List.countP_pos_iff.mpr ⟨some v, hv ▸ List.getElem_mem hk, rfl⟩
  simp only [Option.isSome_some, Option.isSome_none, if_true, Bool.false_eq_true, if_false]
  omega

theorem size_insertAt {s : Slab α} {k : ℕ} (h : s.CanInsert k) (v : α) :
    (s.insertAt k v).size = s.size + 1 := by
  rw [size_eq_countP, size_eq_countP, insertAt]
  rcases h with h | ⟨rfl, -⟩
  · obtain ⟨o, ho, hn⟩ := Option.map_eq_some_iff.mp h
    obtain ⟨hk, hv⟩ := List.getElem?_eq_some_iff.mp ho
    rw [if_pos hk, set, List.countP_set hk, hv, Option.isNone_iff_eq_none.mp hn]
    simp
  · rw [if_neg (lt_irrefl _)]
    simp

/-- A key that is used has all keys below it in use, or was vacant before. -/
theorem length_insertAt_le {s : Slab α} {k : ℕ} (h : s.CanInsert k) (v : α) :
    (s.insertAt k v).entries.length ≤ max s.entries.length (s.size + 1) ∧
      k < (s.insertAt k v).entries.length := by
  rw [insertAt]
  rcases h with h | ⟨rfl, hall⟩
  · obtain ⟨o, ho, -⟩ := Option.map_eq_some_iff.mp h
    have hk := (List.getElem?_eq_some_iff.mp ho).1
    rw [if_pos hk, length_set]
    exact ⟨le_max_left _ _, hk⟩
  · have hsize : s.size = s.entries.length := by
      rw [size_eq_countP, List.countP_eq_length]
      exact List.all_eq_true.mp hall
    rw [if_neg (lt_irrefl _)]
    simp [hsize]

/-- As many keys as are in use. -/
theorem length_le_size (ks : List ℕ) : ∀ {s : Slab α}, ks.Nodup →
    (∀ k ∈ ks, ∃ v, s.get? k = some v) → ks.length ≤ s.size := by
  induction ks with
  | nil => exact fun _ _ => Nat.zero_le _
  | cons k ks ih =>
    intro s hnodup hks
    obtain ⟨hk, hnodup⟩ := List.nodup_cons.mp hnodup
    obtain ⟨v, hv⟩ := hks k List.mem_cons_self
    have hrest := ih (s := s.remove k) hnodup fun k' hk' => by
      have hne : k' ≠ k := fun h => hk (h ▸ hk')
      simpa [hne] using hks k' (List.mem_cons_of_mem _ hk')
    have hsize := size_remove hv
    simp only [List.length_cons]
    omega

end Slab

end Lib
