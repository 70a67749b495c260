import Mathlib

/-!
# Incremental readers

A reader is called with the bytes at hand, returns at most one item, and leaves
the bytes it could not use. It is driven by two loops: `drain` calls it until it
returns no item, and `feed` drains after each chunk of input, with the bytes left
over by one call put before the next chunk.

* `drainWith_eq_drain`: consuming the items inside the loop is the same as
  collecting them and consuming the list.
* `drainWith_ok_rule`, `feedWith_ok_rule`: an invariant that speaks of the unread input
  as a whole (bytes at hand, then bytes still to come) holds after every way of cutting
  the input, if each call that returns keeps it.
* `drainWith_total`, `feedWith_total`: if the invariant also makes each call return, the
  loops return.
* `Reads.take_eq`, `Reads.drain_eq`: what a reader of code words makes of a sequence of them. Two
  readers of the same words agree.
* `Waits.drain_append`, `Waits.drain_error`: a reader that waits for whole items reads the same
  items, wherever the input is cut.
-/

namespace Lib

section Except

universe u v

variable {ε : Type u} {α β : Type v}

@[simp] theorem ok_bind (x : α) (f : α → Except ε β) : (Except.ok x >>= f) = f x := rfl

@[simp] theorem error_bind (e : ε) (f : α → Except ε β) :
    (Except.error e >>= f) = Except.error e := rfl

@[simp] theorem except_pure (x : α) : (pure x : Except ε α) = .ok x := rfl

theorem bind_eq_ok {x : Except ε α} {f : α → Except ε β} {b : β} :
    (x >>= f) = .ok b ↔ ∃ a, x = .ok a ∧ f a = .ok b := by
  cases x with
  | error e => simp
  | ok a => simp

end Except

/-- A reader of items `ρ` from symbols `α` with state `σ`; `ε` is how a call can
fail. `size` bounds the items still to come from the symbols at hand. -/
structure Incremental (ε σ α ρ : Type*) where
  read : σ → List α → Except ε (Option ρ × σ × List α)
  size : σ → List α → ℕ
  size_lt : ∀ {s d r s' d'}, read s d = .ok (some r, s', d') → size s' d' < size s d

namespace Incremental

variable {ε σ α ρ τ : Type*} (I : Incremental ε σ α ρ) (f : τ → ρ → τ)

/-- `while let Some(r) = read(data) { acc = f(acc, r) }`. -/
def drainWith (acc : τ) (s : σ) (d : List α) : Except ε (τ × σ × List α) :=
  match _h : I.read s d with
  | .error e => .error e
  | .ok (none, s', d') => .ok (acc, s', d')
  | .ok (some r, s', d') => drainWith (f acc r) s' d'
termination_by I.size s d
decreasing_by exact I.size_lt ‹_›

/-- The items the loop reads, in order. -/
def drain (s : σ) (d : List α) : Except ε (List ρ × σ × List α) :=
  I.drainWith (fun rs r => rs ++ [r]) [] s d

/-- One `drainWith` for each chunk; what a call leaves goes before the next chunk. -/
def feedWith (acc : τ) (s : σ) (left : List α) :
    List (List α) → Except ε (τ × σ × List α)
  | [] => .ok (acc, s, left)
  | c :: cs => I.drainWith f acc s (left ++ c) >>= fun x => feedWith x.1 x.2.1 x.2.2 cs

/-- The items read from all chunks, in order. -/
def feed (s : σ) (left : List α) (cs : List (List α)) : Except ε (List ρ × σ × List α) :=
  I.feedWith (fun rs r => rs ++ [r]) [] s left cs

variable {I f}

theorem drainWith_error {acc : τ} {s : σ} {d : List α} {e : ε} (h : I.read s d = .error e) :
    I.drainWith f acc s d = .error e := by
  rw [drainWith]
  split
  · rename_i h'; rw [h] at h'; cases h'; rfl
  · rename_i h'; rw [h] at h'; cases h'
  · rename_i h'; rw [h] at h'; cases h'

theorem drainWith_none {acc : τ} {s s' : σ} {d d' : List α} (h : I.read s d = .ok (none, s', d')) :
    I.drainWith f acc s d = .ok (acc, s', d') := by
  rw [drainWith]
  split
  · rename_i h'; rw [h] at h'; cases h'
  · rename_i h'; rw [h] at h'; cases h'; rfl
  · rename_i h'; rw [h] at h'; cases h'

theorem drainWith_some {acc : τ} {s s' : σ} {d d' : List α} {r : ρ}
    (h : I.read s d = .ok (some r, s', d')) :
    I.drainWith f acc s d = I.drainWith f (f acc r) s' d' := by
  rw [drainWith]
  split
  · rename_i h'; rw [h] at h'; cases h'
  · rename_i h'; rw [h] at h'; cases h'
  · rename_i h'; rw [h] at h'; cases h'; rfl

/-- Induction on the calls of the loop. -/
theorem drain_induction {motive : σ → List α → Prop}
    (error : ∀ s d e, I.read s d = .error e → motive s d)
    (none : ∀ s d s' d', I.read s d = .ok (none, s', d') → motive s d)
    (some : ∀ s d r s' d', I.read s d = .ok (some r, s', d') → motive s' d' → motive s d) :
    ∀ s d, motive s d := by
  intro s d
  induction hn : I.size s d using Nat.strong_induction_on generalizing s d with
  | _ n ih =>
    subst hn
    match h : I.read s d with
    | .error e => exact error s d e h
    | .ok (.none, s', d') => exact none s d s' d' h
    | .ok (.some r, s', d') => exact some s d r s' d' h (ih _ (I.size_lt h) s' d' rfl)

/-! ## Consuming in the loop or afterwards -/

/-- The loop's result is its items folded into the accumulator. -/
theorem drainWith_eq_drainWith {υ : Type*} (g : υ → ρ → υ) (abs : τ → υ)
    (habs : ∀ acc r, abs (f acc r) = g (abs acc) r) (acc : τ) (s : σ) (d : List α) :
    (I.drainWith f acc s d).map (fun x => (abs x.1, x.2)) = I.drainWith g (abs acc) s d := by
  induction s, d using drain_induction (I := I) generalizing acc with
  | error s d e h => rw [drainWith_error h, drainWith_error h]; rfl
  | none s d s' d' h => rw [drainWith_none h, drainWith_none h]; rfl
  | some s d r s' d' h ih => rw [drainWith_some h, drainWith_some h, ih, habs]

theorem drainWith_eq_drain (acc : τ) (s : σ) (d : List α) :
    I.drainWith f acc s d = (I.drain s d).map (fun x => (x.1.foldl f acc, x.2)) := by
  rw [drain, drainWith_eq_drainWith (f := fun rs r => rs ++ [r]) f (fun rs => rs.foldl f acc)]
  · rfl
  · intro rs r; simp

theorem drainWith_append (acc : List ρ) (s : σ) (d : List α) :
    I.drainWith (fun rs r => rs ++ [r]) acc s d =
      (I.drain s d).map (fun x => (acc ++ x.1, x.2)) := by
  rw [drain, drainWith_eq_drainWith (fun rs r => rs ++ [r]) (fun rs => acc ++ rs)]
  · simp
  · intro rs r; simp

theorem drain_none {s s' : σ} {d d' : List α} (h : I.read s d = .ok (none, s', d')) :
    I.drain s d = .ok ([], s', d') :=
  drainWith_none h

theorem drain_error {s : σ} {d : List α} {e : ε} (h : I.read s d = .error e) :
    I.drain s d = .error e :=
  drainWith_error h

theorem drain_some {s s' : σ} {d d' : List α} {r : ρ} (h : I.read s d = .ok (some r, s', d')) :
    I.drain s d = (I.drain s' d').map (fun x => (r :: x.1, x.2)) := by
  rw [drain, drainWith_some h, drainWith_append]
  rfl

/-! ## Invariants of the unread input -/

/-- `Inv acc s rest` speaks of all input not yet used: the bytes at hand, then `fut`. Each
call returns and keeps it. -/
def Preserves (I : Incremental ε σ α ρ) (f : τ → ρ → τ) (Inv : τ → σ → List α → Prop)
    (fut : List α) : Prop :=
  ∀ acc s d, Inv acc s (d ++ fut) →
    ∃ o s' d', I.read s d = .ok (o, s', d') ∧ Inv (o.elim acc (f acc)) s' (d' ++ fut)

/-- Each call that returns keeps `Inv`. -/
def PreservesOk (I : Incremental ε σ α ρ) (f : τ → ρ → τ) (Inv : τ → σ → List α → Prop)
    (fut : List α) : Prop :=
  ∀ acc s d, Inv acc s (d ++ fut) →
    ∀ o s' d', I.read s d = .ok (o, s', d') → Inv (o.elim acc (f acc)) s' (d' ++ fut)

theorem Preserves.ok {Inv : τ → σ → List α → Prop} {fut : List α} (h : I.Preserves f Inv fut) :
    I.PreservesOk f Inv fut := by
  intro acc s d hinv o s' d' hr
  obtain ⟨o', s₁, d₁, hr', hinv'⟩ := h acc s d hinv
  rw [hr] at hr'; cases hr'
  exact hinv'

/-- If every call keeps `Inv`, so does the loop; its last call returned no item. -/
theorem drainWith_ok_rule {Inv : τ → σ → List α → Prop} {fut : List α}
    (hstep : I.PreservesOk f Inv fut) (s : σ) (d : List α) :
    ∀ acc, Inv acc s (d ++ fut) → ∀ acc' s' d', I.drainWith f acc s d = .ok (acc', s', d') →
      Inv acc' s' (d' ++ fut) ∧
        ∃ s₀ d₀, Inv acc' s₀ (d₀ ++ fut) ∧ I.read s₀ d₀ = .ok (none, s', d') := by
  induction s, d using drain_induction (I := I) with
  | error s d e h =>
    intro acc hinv acc' s' d' hd
    rw [drainWith_error h] at hd; cases hd
  | none s d s₁ d₁ h =>
    intro acc hinv acc' s' d' hd
    rw [drainWith_none h] at hd; cases hd
    exact ⟨hstep acc s d hinv _ _ _ h, s, d, hinv, h⟩
  | some s d r s₁ d₁ h ih =>
    intro acc hinv acc' s' d' hd
    rw [drainWith_some h] at hd
    exact ih (f acc r) (hstep acc s d hinv _ _ _ h) acc' s' d' hd

/-- If every call returns and keeps `Inv`, the loop returns. -/
theorem drainWith_total {Inv : τ → σ → List α → Prop} {fut : List α}
    (hstep : I.Preserves f Inv fut) (s : σ) (d : List α) :
    ∀ acc, Inv acc s (d ++ fut) → ∃ x, I.drainWith f acc s d = .ok x := by
  induction s, d using drain_induction (I := I) with
  | error s d e h =>
    intro acc hinv
    obtain ⟨o, s', d', hr, -⟩ := hstep acc s d hinv
    rw [h] at hr; cases hr
  | none s d s' d' h => intro acc _; exact ⟨_, drainWith_none h⟩
  | some s d r s' d' h ih =>
    intro acc hinv
    obtain ⟨x, hx⟩ := ih (f acc r) (hstep.ok acc s d hinv _ _ _ h)
    exact ⟨x, by rw [drainWith_some h, hx]⟩

/-- **Chunking rule.** An invariant that every call keeps, whatever is still to come, holds
after any chunking of the input. With at least one chunk the last call returned no item. -/
theorem feedWith_ok_rule {Inv : τ → σ → List α → Prop} (cs : List (List α))
    (hstep : ∀ bs, bs <:+ cs → I.PreservesOk f Inv bs.flatten) :
    ∀ acc s left, Inv acc s (left ++ cs.flatten) → ∀ acc' s' left',
      I.feedWith f acc s left cs = .ok (acc', s', left') →
        Inv acc' s' left' ∧
          (cs ≠ [] → ∃ s₀ d₀, Inv acc' s₀ d₀ ∧ I.read s₀ d₀ = .ok (none, s', left')) := by
  induction cs with
  | nil =>
    intro acc s left hinv acc' s' left' hf
    simp only [feedWith, Except.ok.injEq, Prod.mk.injEq] at hf
    obtain ⟨rfl, rfl, rfl⟩ := hf
    exact ⟨by simpa using hinv, fun h => absurd rfl h⟩
  | cons c cs ih =>
    intro acc s left hinv acc' s' left' hf
    obtain ⟨⟨acc₁, s₁, d₁⟩, hd, hf⟩ := bind_eq_ok.mp hf
    obtain ⟨hinv₁, hlast⟩ := drainWith_ok_rule (hstep cs (List.suffix_cons c cs)) s (left ++ c) acc
      (by simpa using hinv) acc₁ s₁ d₁ hd
    obtain ⟨hinv', hlast'⟩ := ih (fun bs hbs => hstep bs (hbs.trans (List.suffix_cons c cs)))
      acc₁ s₁ d₁ hinv₁ acc' s' left' hf
    refine ⟨hinv', fun _ => ?_⟩
    cases cs with
    | nil =>
      simp only [feedWith, Except.ok.injEq, Prod.mk.injEq] at hf
      obtain ⟨rfl, rfl, rfl⟩ := hf
      simpa using hlast
    | cons c' cs => exact hlast' (by simp)

/-- With an invariant under which every call returns, every chunking is read to its end. -/
theorem feedWith_total {Inv : τ → σ → List α → Prop} (cs : List (List α))
    (hstep : ∀ bs, bs <:+ cs → I.Preserves f Inv bs.flatten) :
    ∀ acc s left, Inv acc s (left ++ cs.flatten) →
      ∃ x, I.feedWith f acc s left cs = .ok x := by
  induction cs with
  | nil => intro acc s left _; exact ⟨_, rfl⟩
  | cons c cs ih =>
    intro acc s left hinv
    have hpre := hstep cs (List.suffix_cons c cs)
    obtain ⟨⟨acc₁, s₁, d₁⟩, hd⟩ := drainWith_total hpre s (left ++ c) acc (by simpa using hinv)
    obtain ⟨hinv₁, -⟩ := drainWith_ok_rule hpre.ok s (left ++ c) acc (by simpa using hinv) _ _ _ hd
    obtain ⟨x, hx⟩ := ih (fun bs hbs => hstep bs (hbs.trans (List.suffix_cons c cs)))
      acc₁ s₁ d₁ hinv₁
    exact ⟨x, by rw [feedWith, hd, ok_bind, hx]⟩

/-- Feeding two runs of chunks. -/
theorem feedWith_append (acc : τ) (s : σ) (left : List α) (cs cs' : List (List α)) :
    I.feedWith f acc s left (cs ++ cs') =
      I.feedWith f acc s left cs >>= fun x => I.feedWith f x.1 x.2.1 x.2.2 cs' := by
  induction cs generalizing acc s left with
  | nil => rfl
  | cons c cs ih =>
    rw [List.cons_append, feedWith, feedWith]
    cases I.drainWith f acc s (left ++ c) with
    | error e => rfl
    | ok x => exact ih x.1 x.2.1 x.2.2

/-! ## Loops that are left early -/

/-- `for r in items { … }` over items read when the loop asks for them; `f` also says whether the
loop is left with `break`. -/
def drainUntil (I : Incremental ε σ α ρ) (f : τ → ρ → τ × Bool) (acc : τ) (s : σ) (d : List α) :
    Except ε τ :=
  match _h : I.read s d with
  | .error e => .error e
  | .ok (none, _, _) => .ok acc
  | .ok (some r, s', d') =>
    if (f acc r).2 then .ok (f acc r).1 else drainUntil I f (f acc r).1 s' d'
termination_by I.size s d
decreasing_by exact I.size_lt ‹_›

section Until

variable {f : τ → ρ → τ × Bool} {acc : τ} {s s' : σ} {d d' : List α}

theorem drainUntil_error {e : ε} (h : I.read s d = .error e) :
    I.drainUntil f acc s d = .error e := by
  rw [drainUntil]
  split
  · rename_i h'; rw [h] at h'; cases h'; rfl
  · rename_i h'; rw [h] at h'; cases h'
  · rename_i h'; rw [h] at h'; cases h'

theorem drainUntil_none (h : I.read s d = .ok (none, s', d')) :
    I.drainUntil f acc s d = .ok acc := by
  rw [drainUntil]
  split
  · rename_i h'; rw [h] at h'; cases h'
  · rfl
  · rename_i h'; rw [h] at h'; cases h'

theorem drainUntil_some {r : ρ} (h : I.read s d = .ok (some r, s', d')) :
    I.drainUntil f acc s d =
      if (f acc r).2 then .ok (f acc r).1 else I.drainUntil f (f acc r).1 s' d' := by
  rw [drainUntil]
  split
  · rename_i h'; rw [h] at h'; cases h'
  · rename_i h'; rw [h] at h'; cases h'
  · rename_i h'; rw [h] at h'; cases h'; rfl

end Until

/-! ## Readers of code words -/

/-- At most `n` items: what that many calls return. -/
def take (I : Incremental ε σ α ρ) : ℕ → σ → List α → Except ε (List ρ × σ × List α)
  | 0, s, d => .ok ([], s, d)
  | n + 1, s, d => do
    match ← I.read s d with
    | (none, s, d) => .ok ([], s, d)
    | (some r, s, d) => do
      let (rs, s, d) ← take I n s d
      .ok (r :: rs, s, d)

/-- In the state `s` each call takes one word `enc i` and returns what `item` makes of it, or
fails as `item` does. -/
def Reads {ι : Type*} (I : Incremental ε σ α ρ) (s : σ) (enc : ι → List α)
    (item : ι → Except ε ρ) : Prop :=
  ∀ i rest, I.read s (enc i ++ rest) = (item i).map fun r => (some r, s, rest)

section Reads

variable {ι : Type*} {s : σ} {enc : ι → List α} {item : ι → Except ε ρ}

theorem Reads.take_eq (h : I.Reads s enc item) (tail : List α) (n : ℕ) :
    ∀ {is : List ι}, n ≤ is.length →
      I.take n s ((is.map enc).flatten ++ tail) =
        ((is.take n).mapM item).map fun rs => (rs, s, ((is.drop n).map enc).flatten ++ tail) := by
  induction n with
  | zero => intro is _; rfl
  | succ n ih =>
    intro is hn
    cases is with
    | nil => simp at hn
    | cons i is =>
      rw [List.map_cons, List.flatten_cons, List.append_assoc, take, h, List.take_succ_cons,
        List.drop_succ_cons, List.mapM_cons]
      cases item i with
      | error e => rfl
      | ok r =>
        simp only [Except.map, ok_bind, ih (Nat.le_of_succ_le_succ hn)]
        cases (is.take n).mapM item <;> rfl

/-- The loop takes the words, if nothing can be read of what follows. -/
theorem Reads.drain_eq (h : I.Reads s enc item) {tail : List α}
    (htail : I.read s tail = .ok (none, s, tail)) : ∀ is : List ι,
      I.drain s ((is.map enc).flatten ++ tail) = (is.mapM item).map fun rs => (rs, s, tail)
  | [] => drain_none htail
  | i :: is => by
    have hread := h i ((is.map enc).flatten ++ tail)
    rw [List.map_cons, List.flatten_cons, List.append_assoc, List.mapM_cons]
    cases hi : item i with
    | error e =>
      rw [hi] at hread
      rw [drain_error hread]
      rfl
    | ok r =>
      rw [hi] at hread
      rw [drain_some hread, Reads.drain_eq h htail is, ok_bind]
      cases is.mapM item <;> rfl

end Reads

/-! ## Readers that wait -/

/-- The reader returns an item once it is there as a whole, and changes nothing before; what comes
behind an item does not matter to it. -/
structure Waits (I : Incremental ε σ α ρ) : Prop where
  none_eq : ∀ {s d s' d'}, I.read s d = .ok (none, s', d') → s' = s ∧ d' = d
  some_append : ∀ {s d r s' d'}, I.read s d = .ok (some r, s', d') → ∀ e,
    I.read s (d ++ e) = .ok (some r, s', d' ++ e)
  error_append : ∀ {s d f}, I.read s d = .error f → ∀ e, I.read s (d ++ e) = .error f

section Waits

variable {s s' : σ} {d d' : List α} {rs : List ρ}

/-- More input behind what the loop left. -/
theorem Waits.drain_append (h : I.Waits) (e : List α) :
    I.drain s d = .ok (rs, s', d') →
      I.drain s (d ++ e) = (I.drain s' (d' ++ e)).map fun x => (rs ++ x.1, x.2) := by
  induction s, d using drain_induction (I := I) generalizing rs with
  | error s d f hr =>
    intro hd
    rw [drain_error hr] at hd
    cases hd
  | none s d s₁ d₁ hr =>
    intro hd
    obtain ⟨rfl, rfl⟩ := h.none_eq hr
    rw [drain_none hr] at hd
    cases hd
    cases I.drain s' (d' ++ e) <;> rfl
  | some s d r s₁ d₁ hr ih =>
    intro hd
    rw [drain_some hr] at hd
    rw [drain_some (h.some_append hr e)]
    cases hrest : I.drain s₁ d₁ with
    | error f =>
      rw [hrest] at hd
      cases hd
    | ok x =>
      obtain ⟨rs₁, s₂, d₂⟩ := x
      rw [hrest] at hd
      cases hd
      rw [ih hrest]
      cases I.drain s' (d' ++ e) <;> rfl

/-- A failure comes whatever follows. -/
theorem Waits.drain_error (h : I.Waits) {f : ε} (e : List α) :
    I.drain s d = .error f → I.drain s (d ++ e) = .error f := by
  induction s, d using drain_induction (I := I) with
  | error s d f' hr =>
    intro hd
    rw [Incremental.drain_error hr] at hd
    cases hd
    exact Incremental.drain_error (h.error_append hr e)
  | none s d s₁ d₁ hr =>
    intro hd
    rw [drain_none hr] at hd
    cases hd
  | some s d r s₁ d₁ hr ih =>
    intro hd
    rw [drain_some hr] at hd
    rw [drain_some (h.some_append hr e)]
    cases hrest : I.drain s₁ d₁ with
    | error f' =>
      rw [hrest] at hd
      cases hd
      rw [ih hrest]
      rfl
    | ok x =>
      rw [hrest] at hd
      cases hd

end Waits

end Incremental

end Lib
