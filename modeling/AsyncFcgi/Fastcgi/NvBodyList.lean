import AsyncFcgi.Fastcgi.RoundTrip

/-!
# Lists of name-value bodies (`src/fastcgi.rs`)

A run of `NVBody::add` calls on one body, and `NVBodyList`, which opens a new body when the last
one is full.

`NVBody::add` sets `len` before it is done checking, and a caller may go on with a body that
refused a pair.

* `addEach_inv`, `add_atomic`: refused pairs leave no trace.
* `NVBodyList.add_panics`: the only pairs that a list does not take are those above `0xFFFF` bytes.
* `nvBodies_sound`: the two together, over a whole run.
-/

namespace AsyncFcgi

open Lib

/-! ## A run of `add` -/

namespace NVBody

/-- One `add` after the other, whatever they return. -/
def addEach (self : NVBody) : List NameValuePair → NVBody
  | [] => self
  | p :: ps => addEach (self.add p).1 ps

/-- `len` counts the bytes in `pairs`, and they fit into one record. -/
def Counted (self : NVBody) : Prop :=
  self.len.toNat = self.pairs.remaining ∧ self.pairs.remaining ≤ maxLength

/-- `add` takes the pair exactly if it fits, and changes nothing if it returns `Err`. -/
def Atomic (self : NVBody) (pair : NameValuePair) : Prop :=
  ((self.add pair).2 = .ok () ↔ self.fits pair = true) ∧
    ((self.add pair).2 = .error () → (self.add pair).1 = self)

theorem Inv.counted {self : NVBody} (h : self.Inv) : self.Counted := by
  have hlt := self.len.toNat_lt
  have hmax : maxLength = 0xffff := rfl
  rw [Counted, BufList.remaining_eq, ← h.len_eq]
  exact ⟨rfl, by omega⟩

theorem add_inv {self : NVBody} (hinv : self.Inv) {p : NameValuePair} (hname : p.nameData ≠ []) :
    (self.add p).1.Inv := by
  cases hfits : self.fits p with
  | false =>
    rw [add_full hfits]
    exact hinv
  | true =>
    obtain ⟨self', hadd, hinv', -⟩ := add_fits hname hinv hfits
    rw [hadd]
    exact hinv'

theorem add_atomic {self : NVBody} (hinv : self.Inv) {p : NameValuePair}
    (hname : p.nameData ≠ []) : self.Atomic p := by
  cases hfits : self.fits p with
  | false =>
    rw [Atomic, add_full hfits, hfits]
    exact ⟨by simp, fun _ => rfl⟩
  | true =>
    obtain ⟨self', hadd, -, -⟩ := add_fits hname hinv hfits
    rw [Atomic, hadd, hfits]
    exact ⟨by simp, nofun⟩

theorem addEach_inv (ps : List NameValuePair) : ∀ {self : NVBody}, self.Inv →
    (∀ p ∈ ps, p.nameData ≠ []) → (self.addEach ps).Inv := by
  induction ps with
  | nil =>
    intro self hinv _
    exact hinv
  | cons p ps ih =>
    intro self hinv hnames
    exact ih (add_inv hinv (hnames p List.mem_cons_self))
      fun q hq => hnames q (List.mem_cons_of_mem _ hq)

end NVBody

/-! ## `NVBodyList` -/

/-- `NameValuePair::new` (lines 255–260). -/
def NameValuePair.new (nameData valueData : Bytes) : NameValuePair := { nameData, valueData }

/-- `NVBodyList` (lines 55–57). -/
structure NVBodyList where
  bodies : List NVBody
  deriving DecidableEq, Repr

namespace NVBodyList

/-- `NVBodyList::new` (lines 622–626). -/
def new : NVBodyList := ⟨[.new]⟩

/-- `self.bodies.last_mut().unwrap()`. -/
def last (bodies : List NVBody) : Except Fault NVBody :=
  match bodies.getLast? with
  | some nv => .ok nv
  | none => .error .unwrapNone

/-- `NVBodyList::add` (lines 629–637). -/
def add (self : NVBodyList) (pair : NameValuePair) : Except Fault NVBodyList := do
  let nv ← last self.bodies
  let bodies := if !nv.fits pair then self.bodies ++ [.new] else self.bodies
  let nv ← last bodies
  match nv.add pair with
  | (nv, .ok ()) => .ok ⟨bodies.dropLast ++ [nv]⟩
  | (_, .error ()) => .error .kvPairTooBig

/-- `extend` (lines 648–655). -/
def extend (self : NVBodyList) : List (Bytes × Bytes) → Except Fault NVBodyList
  | [] => .ok self
  | (k, v) :: iter => do
    let self ← self.add (.new k v)
    extend self iter

/-- The contents of the bodies, one after the other. -/
def contents (self : NVBodyList) : Bytes := (self.bodies.map fun nv => nv.pairs.flatten).flatten

/-- There is a last body, and all of them are counted. -/
structure Inv (list : NVBodyList) : Prop where
  ne_nil : list.bodies ≠ []
  bodies : ∀ nv ∈ list.bodies, nv.Inv

theorem inv_new : new.Inv where
  ne_nil := List.cons_ne_nil _ _
  bodies := by
    intro nv hnv
    rw [List.mem_singleton.mp hnv]
    exact NVBody.inv_new

@[simp] theorem contents_new : new.contents = [] := rfl

@[simp] theorem last_append (bodies : List NVBody) (nv : NVBody) :
    last (bodies ++ [nv]) = .ok nv := by
  simp [last]

/-- An empty body takes every pair that a record can hold. -/
theorem fits_new (p : NameValuePair) : NVBody.new.fits p = decide (p.len ≤ maxLength) := rfl

/-- The last body takes the pair, if it fits. -/
theorem add_of_fits {front : List NVBody} {nv nv' : NVBody} {p : NameValuePair}
    (hfits : nv.fits p = true) (hadd : nv.add p = (nv', .ok ())) :
    (⟨front ++ [nv]⟩ : NVBodyList).add p = .ok ⟨front ++ [nv']⟩ := by
  simp only [add, last_append, ok_bind, hfits, Bool.not_true, Bool.false_eq_true, if_false, hadd,
    List.dropLast_concat]

/-- A full body stays, and a new one takes the pair. -/
theorem add_of_full {front : List NVBody} {nv nv' : NVBody} {p : NameValuePair}
    (hfits : nv.fits p = false) (hadd : NVBody.new.add p = (nv', .ok ())) :
    (⟨front ++ [nv]⟩ : NVBodyList).add p = .ok ⟨front ++ [nv] ++ [nv']⟩ := by
  simp only [add, last_append, ok_bind, hfits, Bool.not_false, if_true, hadd, List.dropLast_concat]

theorem add_fits {self : NVBodyList} (hinv : self.Inv) {p : NameValuePair}
    (hname : p.nameData ≠ []) (hlen : p.len ≤ maxLength) :
    ∃ self', self.add p = .ok self' ∧ self'.Inv ∧ self'.contents = self.contents ++ p.encode := by
  obtain ⟨hne, hbodies⟩ := hinv
  obtain ⟨bodies⟩ := self
  obtain ⟨front, nv, rfl⟩ := (List.eq_nil_or_concat bodies).resolve_left hne
  rw [List.concat_eq_append] at hbodies ⊢
  have hlast : nv.Inv := hbodies nv (List.mem_append_right _ List.mem_cons_self)
  cases hfits : nv.fits p with
  | true =>
    obtain ⟨nv', hadd, hinv', hflat⟩ := NVBody.add_fits hname hlast hfits
    refine ⟨_, add_of_fits hfits hadd, ⟨List.append_ne_nil_of_right_ne_nil _ (List.cons_ne_nil _ _),
      fun b hb => ?_⟩, by simp [contents, hflat]⟩
    rcases List.mem_append.mp hb with hfront | hnew
    · exact hbodies b (List.mem_append_left _ hfront)
    · rwa [List.mem_singleton.mp hnew]
  | false =>
    obtain ⟨nv', hadd, hinv', hflat⟩ := NVBody.add_fits hname NVBody.inv_new
      ((fits_new p).trans (decide_eq_true hlen))
    rw [NVBody.new, BufList.flatten_new, List.nil_append] at hflat
    refine ⟨_, add_of_full hfits hadd, ⟨List.append_ne_nil_of_right_ne_nil _ (List.cons_ne_nil _ _),
      fun b hb => ?_⟩, by simp [contents, hflat]⟩
    rcases List.mem_append.mp hb with hold | hnew
    · exact hbodies b hold
    · rwa [List.mem_singleton.mp hnew]

/-- A pair that no record can hold panics. -/
theorem add_panics {self : NVBodyList} (hne : self.bodies ≠ []) {p : NameValuePair}
    (hlen : maxLength < p.len) : self.add p = .error .kvPairTooBig := by
  obtain ⟨bodies⟩ := self
  obtain ⟨front, nv, rfl⟩ := (List.eq_nil_or_concat bodies).resolve_left hne
  have hfull : ∀ nv : NVBody, nv.fits p = false := fun nv => decide_eq_false (by omega)
  simp only [List.concat_eq_append, add, last_append, ok_bind, hfull nv, Bool.not_false, if_true,
    NVBody.add_full (hfull .new)]

/-- The arguments of `extend`. -/
def args (ps : List NameValuePair) : List (Bytes × Bytes) :=
  ps.map fun p => (p.nameData, p.valueData)

theorem extend_fits (ps : List NameValuePair) : ∀ {self : NVBodyList}, self.Inv →
    (∀ p ∈ ps, p.nameData ≠ []) → (∀ p ∈ ps, p.len ≤ maxLength) →
    ∃ self', self.extend (args ps) = .ok self' ∧ self'.Inv ∧
      self'.contents = self.contents ++ (ps.map NameValuePair.encode).flatten := by
  induction ps with
  | nil =>
    intro self hinv _ _
    exact ⟨self, rfl, hinv, (List.append_nil _).symm⟩
  | cons p ps ih =>
    intro self hinv hnames hlens
    obtain ⟨self₁, hadd, hinv₁, hbytes₁⟩ :=
      add_fits hinv (hnames p List.mem_cons_self) (hlens p List.mem_cons_self)
    obtain ⟨self₂, hext, hinv₂, hbytes₂⟩ := ih hinv₁
      (fun q hq => hnames q (List.mem_cons_of_mem _ hq))
      (fun q hq => hlens q (List.mem_cons_of_mem _ hq))
    have hstep : self.extend (args (p :: ps)) = self₁.extend (args ps) := by
      show (self.add p >>= fun self => self.extend (args ps)) = _
      rw [hadd, ok_bind]
    refine ⟨self₂, hstep.trans hext, hinv₂, ?_⟩
    rw [hbytes₂, hbytes₁, List.map_cons, List.flatten_cons, List.append_assoc]

end NVBodyList

/-- **Bodies count what they hold.** Over any run of `add` with pairs that have names: `len`
counts the bytes and is at most `0xFFFF`, each `add` takes its pair exactly if it fits, and one
that returns `Err` changes nothing. Where no pair is above `0xFFFF` bytes, `extend` takes them
all, and the bodies hold their encodings in order. -/
theorem nvBodies_sound (ps : List NameValuePair) (hnames : ∀ p ∈ ps, p.nameData ≠ []) :
    (NVBody.new.addEach ps).Counted ∧
      (∀ front p back, ps = front ++ p :: back →
        (NVBody.new.addEach front).Counted ∧ (NVBody.new.addEach front).Atomic p) ∧
      ((∀ p ∈ ps, p.len ≤ maxLength) →
        ∃ list, NVBodyList.new.extend (NVBodyList.args ps) = .ok list ∧
          (∀ nv ∈ list.bodies, nv.Counted) ∧
          list.contents = (ps.map NameValuePair.encode).flatten) := by
  refine ⟨(NVBody.addEach_inv ps NVBody.inv_new hnames).counted, ?_, fun hlens => ?_⟩
  · rintro front p back rfl
    have hinv := NVBody.addEach_inv front NVBody.inv_new
      fun q hq => hnames q (List.mem_append_left _ hq)
    exact ⟨hinv.counted,
      NVBody.add_atomic hinv (hnames p (List.mem_append_right _ List.mem_cons_self))⟩
  · obtain ⟨list, hext, hinv, hbytes⟩ :=
      NVBodyList.extend_fits ps NVBodyList.inv_new hnames hlens
    rw [NVBodyList.contents_new, List.nil_append] at hbytes
    exact ⟨list, hext, fun nv hnv => (hinv.bodies nv hnv).counted, hbytes⟩

/-- Two pairs that need a body each. -/
def twoLarge : List NameValuePair :=
  [⟨[97], List.replicate 0x9000 0⟩, ⟨[98], List.replicate 0x9000 0⟩]

theorem nvBodies_sound_twoLarge :
    (NVBody.new.addEach twoLarge).Counted ∧
      (∀ front p back, twoLarge = front ++ p :: back →
        (NVBody.new.addEach front).Counted ∧ (NVBody.new.addEach front).Atomic p) ∧
      ((∀ p ∈ twoLarge, p.len ≤ maxLength) →
        ∃ list, NVBodyList.new.extend (NVBodyList.args twoLarge) = .ok list ∧
          (∀ nv ∈ list.bodies, nv.Counted) ∧
          list.contents = (twoLarge.map NameValuePair.encode).flatten) :=
  nvBodies_sound twoLarge fun p hp => by
    rcases List.mem_pair.mp hp with rfl | rfl
    · exact List.cons_ne_nil _ _
    · exact List.cons_ne_nil _ _

end AsyncFcgi
