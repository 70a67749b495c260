import Mathlib

/-!
# Runs

The runs of a labelled step relation, with the events in the order they happened.

* `Run.inv`: what the start satisfies and every step keeps holds at the end of a run.
* `Run.append`, `Run.map`: runs one after the other, and of another relation.
* `Run.crossing`: the step in which a property is lost.
* `Run.simulates`: runs of one relation are followed by runs of another.
* `always_iff`: a property holds all along a run if and only if no step breaks it.
* `run_of_replay`: the run of a list of events, where the steps can be computed.
-/

namespace Lib

/-- The runs from `s₀`: what happened, and the state then. -/
inductive Run {σ ε : Type*} (step : σ → ε → σ → Prop) (s₀ : σ) : List ε → σ → Prop
  | nil : Run step s₀ [] s₀
  | snoc {evs s ev s'} (run : Run step s₀ evs s) (h : step s ev s') :
      Run step s₀ (evs ++ [ev]) s'

namespace Run

variable {σ ε : Type*} {step : σ → ε → σ → Prop} {s₀ s s' : σ} {evs evs' : List ε}

/-- **Invariant rule.** -/
theorem inv {I : σ → Prop} (h₀ : I s₀) (hstep : ∀ s ev s', I s → step s ev s' → I s')
    (run : Run step s₀ evs s) : I s := by
  induction run with
  | nil => exact h₀
  | snoc _ h ih => exact hstep _ _ _ ih h

theorem append (run : Run step s₀ evs s) (run' : Run step s evs' s') :
    Run step s₀ (evs ++ evs') s' := by
  induction run' with
  | nil => rwa [List.append_nil]
  | snoc _ h ih => exact List.append_assoc _ _ _ ▸ .snoc ih h

/-- A run of steps of which each is one of another relation, seen otherwise. -/
theorem map {τ δ : Type*} {step' : τ → δ → τ → Prop} (f : σ → τ) (g : ε → δ)
    (run : Run step s₀ evs s) (h : ∀ s ev s', step s ev s' → step' (f s) (g ev) (f s')) :
    Run step' (f s₀) (evs.map g) (f s) := by
  induction run with
  | nil => exact .nil
  | snoc _ hs ih =>
    rw [List.map_append]
    exact .snoc ih (h _ _ _ hs)

theorem mono {step' : σ → ε → σ → Prop} (run : Run step s₀ evs s)
    (h : ∀ s ev s', step s ev s' → step' s ev s') : Run step' s₀ evs s := by
  have hmap := run.map id id h
  rwa [List.map_id] at hmap

/-- What holds of the event of every step holds of all of a run. -/
theorem forall_mem {P : ε → Prop} (run : Run step s₀ evs s)
    (h : ∀ s ev s', step s ev s' → P ev) : ∀ ev ∈ evs, P ev := by
  induction run with
  | nil => exact fun ev hev => absurd hev List.not_mem_nil
  | snoc _ hs ih =>
    intro ev hev
    rcases List.mem_append.mp hev with hev | hev
    · exact ih ev hev
    · exact List.mem_singleton.mp hev ▸ h _ _ _ hs

/-- Between a state with `P` and a state without it is a step that loses `P`. -/
theorem crossing {P : σ → Prop} (run : Run step s₀ evs s') (h₀ : P s₀) (h' : ¬ P s') :
    ∃ pre ev post t t', evs = pre ++ ev :: post ∧ Run step s₀ pre t ∧ step t ev t' ∧
      Run step t' post s' ∧ P t ∧ ¬ P t' := by
  induction run with
  | nil => exact absurd h₀ h'
  | @snoc evs s ev s' run h ih =>
    by_cases hs : P s
    · exact ⟨evs, ev, [], s, s', rfl, run, h, .nil, hs, h'⟩
    · obtain ⟨pre, ev₀, post, t, t', rfl, run₁, h₁, run₂, ht, ht'⟩ := ih hs
      exact ⟨pre, ev₀, post ++ [ev], t, t', by simp, run₁, h₁, .snoc run₂ h, ht, ht'⟩

/-- **Forward simulation.** If every step from a related state is followed by a run to a related
state, every run is. -/
theorem simulates {τ δ : Type*} {step' : τ → δ → τ → Prop} {R : σ → τ → Prop} {t₀ : τ}
    (run : Run step s₀ evs s) (h₀ : R s₀ t₀)
    (hstep : ∀ s ev s' t, R s t → step s ev s' → ∃ devs t', Run step' t devs t' ∧ R s' t') :
    ∃ devs t, Run step' t₀ devs t ∧ R s t := by
  induction run with
  | nil => exact ⟨[], t₀, .nil, h₀⟩
  | snoc _ h ih =>
    obtain ⟨devs, t, run', hR⟩ := ih
    obtain ⟨devs', t', run'', hR'⟩ := hstep _ _ _ _ hR h
    exact ⟨devs ++ devs', t', run'.append run'', hR'⟩

end Run

/-! ## All along a run -/

section Always

variable {σ ε : Type*} {step : σ → ε → σ → Prop} {s₀ s : σ} {evs : List ε}

/-- `P` holds in every state of the runs of `evs` from `s₀` to `s`. -/
def Always (step : σ → ε → σ → Prop) (P : σ → Prop) (s₀ : σ) (evs : List ε) (s : σ) : Prop :=
  ∀ pre post t, evs = pre ++ post → Run step s₀ pre t → Run step t post s → P t

/-- `C` holds of every step of the runs of `evs` from `s₀` to `s`. -/
def EveryStep (step : σ → ε → σ → Prop) (C : σ → ε → Prop) (s₀ : σ) (evs : List ε) (s : σ) :
    Prop :=
  ∀ pre ev post t t', evs = pre ++ ev :: post → Run step s₀ pre t → step t ev t' →
    Run step t' post s → C t ev

/-- A property that follows from an invariant, where steps with `C` keep the invariant, and steps
without lose the property. -/
theorem always_iff {I P : σ → Prop} {C : σ → ε → Prop} (h₀ : I s₀) (hP : ∀ s, I s → P s)
    (hgood : ∀ s ev s', I s → step s ev s' → C s ev → I s')
    (hbad : ∀ s ev s', I s → step s ev s' → ¬ C s ev → ¬ P s') :
    Always step P s₀ evs s ↔ EveryStep step C s₀ evs s := by
  constructor
  · intro hall
    have hinv : ∀ {pre t}, Run step s₀ pre t → ∀ post, evs = pre ++ post → Run step t post s →
        I t := by
      intro pre t run
      induction run with
      | nil => exact fun _ _ _ => h₀
      | @snoc pre t ev t' run h ih =>
        intro post hevs run'
        have ht := ih (ev :: post) (by simpa using hevs) (Run.append (.snoc .nil h) run')
        by_contra hno
        exact hbad t ev t' ht h (fun hc => hno (hgood t ev t' ht h hc))
          (hall (pre ++ [ev]) post t' hevs (.snoc run h) run')
    intro pre ev post t t' hevs run h run'
    by_contra hno
    exact hbad t ev t' (hinv run _ hevs (Run.append (.snoc .nil h) run')) h hno
      (hall (pre ++ [ev]) post t' (by simpa using hevs) (.snoc run h) run')
  · intro hsteps pre post t hevs run
    refine fun run' => hP t ?_
    induction run generalizing post with
    | nil => exact h₀
    | @snoc pre t ev t' run h ih =>
      have hevs' : evs = pre ++ ev :: post := by simpa using hevs
      exact hgood t ev t' (ih (ev :: post) hevs' (Run.append (.snoc .nil h) run')) h
        (hsteps pre ev post t t' hevs' run h run')

end Always

/-- The state behind a list of events, if all of them can happen. -/
def replay {σ ε : Type*} (next : σ → ε → Option σ) (s : σ) : List ε → Option σ
  | [] => some s
  | ev :: evs => (next s ev).bind fun s' => replay next s' evs

theorem run_of_replay {σ ε : Type*} {step : σ → ε → σ → Prop} {next : σ → ε → Option σ}
    (hnext : ∀ s ev s', next s ev = some s' → step s ev s') (evs : List ε) :
    ∀ {s s' : σ}, replay next s evs = some s' → Run step s evs s' := by
  induction evs with
  | nil =>
    intro s s' h
    cases h
    exact .nil
  | cons ev evs ih =>
    intro s s' h
    obtain ⟨s₁, h₁, h⟩ := Option.bind_eq_some_iff.mp h
    have hfirst : Run step s [ev] s₁ := .snoc .nil (hnext s ev s₁ h₁)
    exact hfirst.append (ih h)

end Lib
