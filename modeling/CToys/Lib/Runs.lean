import Mathlib.Data.List.Basic

/-!
# Runs of labelled transition systems

`Run step s es t` says that a system whose steps are `step` goes from `s` to `t` by the
events `es`.

*One run.*  `Run.invariant` is the induction rule for what holds in every state of a run.
*Two runs.*  `Run.sync` compares two runs of possibly different systems that agree on
their visible events only.  The invisible events of either side may come at any point, so
a relation that both sides' invisible steps keep, and that equal visible steps keep, holds
at the end, and equal observations were made.
-/

namespace CToys

variable {σ τ ε φ κ ω : Type}

/-- The events `es` lead from `s` to another state. -/
inductive Run (step : σ → ε → σ → Prop) : σ → List ε → σ → Prop
  | nil {s : σ} : Run step s [] s
  | cons {s s₁ s₂ : σ} {e : ε} {es : List ε} :
      step s e s₁ → Run step s₁ es s₂ → Run step s (e :: es) s₂

namespace Run

variable {step : σ → ε → σ → Prop} {step' : τ → φ → τ → Prop}

theorem single {s s₁ : σ} {e : ε} (h : step s e s₁) : Run step s [e] s₁ := .cons h .nil

theorem append {s s₁ s₂ : σ} {es fs : List ε} (h₁ : Run step s es s₁)
    (h₂ : Run step s₁ fs s₂) : Run step s (es ++ fs) s₂ := by
  induction h₁ with
  | nil => exact h₂
  | cons hstep _ ih => exact .cons hstep (ih h₂)

/-- What every step keeps holds after every run. -/
theorem invariant {I : σ → Prop} {s t : σ} {es : List ε} (h : Run step s es t)
    (hstep : ∀ s e s', I s → step s e s' → I s') (hs : I s) : I t := by
  induction h with
  | nil => exact hs
  | cons h _ ih => exact ih (hstep _ _ _ hs h)

section sync

variable {R : σ → τ → Prop} {vis : ε → Option κ} {vis' : φ → Option κ} {obs : ε → Option ω}
  {obs' : φ → Option ω}

/-- A run without visible events keeps the relation. -/
private theorem sync_right {s : σ} {t t' : τ} {fs : List φ} (h : Run step' t fs t')
    (right : ∀ s t f t', R s t → step' t f t' → vis' f = none → R s t' ∧ obs' f = none)
    (hvis : fs.filterMap vis' = []) (hR : R s t) : R s t' ∧ fs.filterMap obs' = [] := by
  induction h with
  | nil => exact ⟨hR, rfl⟩
  | @cons t t₁ t₂ f fs hstep _ ih =>
    cases hf : vis' f with
    | none =>
      rw [List.filterMap_cons_none hf] at hvis
      obtain ⟨hR₁, hobs⟩ := right _ _ _ _ hR hstep hf
      rw [List.filterMap_cons_none hobs]
      exact ih hvis hR₁
    | some x =>
      rw [List.filterMap_cons_some hf] at hvis
      cases hvis

/-- Two runs with the same visible events make the same observations. -/
theorem sync {s s' : σ} {t t' : τ} {es : List ε} {fs : List φ} (h : Run step s es s')
    (h' : Run step' t fs t')
    (left : ∀ s t e s', R s t → step s e s' → vis e = none → R s' t ∧ obs e = none)
    (right : ∀ s t f t', R s t → step' t f t' → vis' f = none → R s t' ∧ obs' f = none)
    (both : ∀ s t e f s' t' x, R s t → step s e s' → step' t f t' → vis e = some x →
      vis' f = some x → R s' t' ∧ obs e = obs' f)
    (hvis : es.filterMap vis = fs.filterMap vis') (hR : R s t) :
    R s' t' ∧ es.filterMap obs = fs.filterMap obs' := by
  induction h generalizing t fs with
  | nil =>
    obtain ⟨hR', hobs⟩ := sync_right h' right hvis.symm hR
    exact ⟨hR', hobs.symm⟩
  | @cons s s₁ s₂ e es hstep _ ih =>
    cases he : vis e with
    | none =>
      rw [List.filterMap_cons_none he] at hvis
      obtain ⟨hR₁, hobs⟩ := left _ _ _ _ hR hstep he
      rw [List.filterMap_cons_none hobs]
      exact ih h' hvis hR₁
    | some x =>
      rw [List.filterMap_cons_some he] at hvis
      -- run the other side up to its next visible event
      induction h' with
      | nil => cases hvis
      | @cons t t₁ t₂ f fs hstep' hrest ih' =>
        cases hf : vis' f with
        | none =>
          rw [List.filterMap_cons_none hf] at hvis
          obtain ⟨hR₁, hobs⟩ := right _ _ _ _ hR hstep' hf
          rw [List.filterMap_cons_none hobs]
          exact ih' ih hR₁ hvis
        | some y =>
          rw [List.filterMap_cons_some hf] at hvis
          obtain ⟨hxy, hrestvis⟩ := List.cons.inj hvis
          obtain ⟨hR₁, hobs⟩ := both _ _ _ _ _ _ _ hR hstep hstep' he (hxy ▸ hf)
          obtain ⟨hR₂, htail⟩ := ih hrest hrestvis hR₁
          refine ⟨hR₂, ?_⟩
          simp only [List.filterMap_cons, hobs, htail]

end sync

end Run

end CToys
