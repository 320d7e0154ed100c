import Mathlib.Tactic.Common

/-!
# Total correctness of fallible stateful programs

A program is a `StateT σ (Except ε)` computation: from a state it either returns a
value and a new state, or stops with a fault.  Such a program is deterministic, so one
predicate describes a run completely.

*Returns.*  `Returns x s a s'` says that `x` started in `s` returns `a` in `s'`.
*Fails.*  `Fails x s e` says that it stops with the fault `e`.
*Ensures.*  `Ensures x s Q` says that it returns and that the result satisfies `Q`.
A program that faults ensures nothing.

*Keeps.*  `Keeps see x` says that `x`, if it returns, leaves alone what `see` sees of the state.

The rules follow the shape of a `do` block.  `Returns.step` and `Ensures.bind` peel its
first statement off, `Ensures.mono` weakens the postcondition.
-/

namespace CToys

variable {σ ε α β : Type}

/-- The program returns `a` and leaves the state `s'`. -/
def Returns (x : StateT σ (Except ε) α) (s : σ) (a : α) (s' : σ) : Prop :=
  x s = .ok (a, s')

/-- The program stops with the fault `e`. -/
def Fails (x : StateT σ (Except ε) α) (s : σ) (e : ε) : Prop :=
  x s = .error e

/-- The program returns, and its result and final state satisfy `Q`. -/
def Ensures (x : StateT σ (Except ε) α) (s : σ) (Q : α → σ → Prop) : Prop :=
  ∃ a s', Returns x s a s' ∧ Q a s'

/-! ## Running one statement after another -/

theorem Returns.pure (a : α) (s : σ) :
    Returns (Pure.pure a : StateT σ (Except ε) α) s a s := rfl

theorem Returns.bind {x : StateT σ (Except ε) α} {f : α → StateT σ (Except ε) β}
    {s s₁ s₂ : σ} {a : α} {b : β} (hx : Returns x s a s₁) (hf : Returns (f a) s₁ b s₂) :
    Returns (x >>= f) s b s₂ := by
  unfold Returns at *
  simp only [Bind.bind, StateT.bind, hx, Except.bind]
  exact hf

/-- A last statement that only converts the result. -/
theorem Returns.map_pure {x : StateT σ (Except ε) α} {f : α → β} {s s₁ : σ} {a : α} {b : β}
    (hx : Returns x s a s₁) (hf : f a = b) :
    Returns (do return f (← x)) s b s₁ :=
  hf ▸ hx.bind (.pure (f a) s₁)

theorem Returns.bind_fails {x : StateT σ (Except ε) α} {f : α → StateT σ (Except ε) β}
    {s s₁ : σ} {a : α} {e : ε} (hx : Returns x s a s₁) (hf : Fails (f a) s₁ e) :
    Fails (x >>= f) s e := by
  unfold Returns Fails at *
  simp only [Bind.bind, StateT.bind, hx, Except.bind]
  exact hf

theorem Fails.bind {x : StateT σ (Except ε) α} {f : α → StateT σ (Except ε) β}
    {s : σ} {e : ε} (hx : Fails x s e) : Fails (x >>= f) s e := by
  unfold Fails at *
  simp only [Bind.bind, StateT.bind, hx, Except.bind]

/-- A program has at most one outcome. -/
theorem Returns.unique {x : StateT σ (Except ε) α} {s s₁ s₂ : σ} {a b : α}
    (h₁ : Returns x s a s₁) (h₂ : Returns x s b s₂) : a = b ∧ s₁ = s₂ := by
  have h := h₁.symm.trans h₂
  cases h
  exact ⟨rfl, rfl⟩

theorem Returns.not_fails {x : StateT σ (Except ε) α} {s s₁ : σ} {a : α} {e : ε}
    (h₁ : Returns x s a s₁) : ¬ Fails x s e := by
  intro h₂
  have h := h₁.symm.trans h₂
  cases h

/-- A first statement whose outcome is known can be skipped. -/
theorem Returns.bind_apply {x : StateT σ (Except ε) α} {f : α → StateT σ (Except ε) β}
    {s s₁ : σ} {a : α} (hx : Returns x s a s₁) : (x >>= f) s = f a s₁ := by
  unfold Returns at hx
  simp only [Bind.bind, StateT.bind, hx, Except.bind]

/-- If two statements return, then so does the first one. -/
theorem Returns.of_bind {x : StateT σ (Except ε) α} {f : α → StateT σ (Except ε) β} {s s₂ : σ}
    {b : β} (h : Returns (x >>= f) s b s₂) :
    ∃ a s₁, Returns x s a s₁ ∧ Returns (f a) s₁ b s₂ := by
  unfold Returns at *
  simp only [Bind.bind, StateT.bind, Except.bind] at h
  split at h
  · cases h
  · next v hx => exact ⟨v.1, v.2, hx, h⟩

theorem returns_bind_iff {x : StateT σ (Except ε) α} {f : α → StateT σ (Except ε) β} {s s₂ : σ}
    {b : β} : Returns (x >>= f) s b s₂ ↔ ∃ a s₁, Returns x s a s₁ ∧ Returns (f a) s₁ b s₂ :=
  ⟨Returns.of_bind, fun ⟨_, _, hx, hf⟩ => hx.bind hf⟩

theorem returns_pure_iff {s s' : σ} {a b : α} :
    Returns (Pure.pure a : StateT σ (Except ε) α) s b s' ↔ b = a ∧ s' = s := by
  refine ⟨fun h => h.unique (.pure a s), fun h => ?_⟩
  rw [h.1, h.2]
  exact .pure a s

/-- What follows depends on the outcome only. -/
theorem bind_apply_congr {x y : StateT σ (Except ε) α} {f : α → StateT σ (Except ε) β} {s s₁ : σ}
    (h : x s = y s₁) : (x >>= f) s = (y >>= f) s₁ := by
  simp only [Bind.bind, StateT.bind, h]

/-! ## Postconditions -/

theorem Returns.ensures {x : StateT σ (Except ε) α} {s s' : σ} {a : α}
    {Q : α → σ → Prop} (h : Returns x s a s') (hQ : Q a s') : Ensures x s Q :=
  ⟨a, s', h, hQ⟩

theorem Ensures.pure {a : α} {s : σ} {Q : α → σ → Prop} (h : Q a s) :
    Ensures (Pure.pure a : StateT σ (Except ε) α) s Q :=
  (Returns.pure a s).ensures h

/-- Run a first statement whose outcome is known. -/
theorem Returns.step {x : StateT σ (Except ε) α} {f : α → StateT σ (Except ε) β}
    {s s₁ : σ} {a : α} {Q : β → σ → Prop} (hx : Returns x s a s₁)
    (hf : Ensures (f a) s₁ Q) : Ensures (x >>= f) s Q := by
  obtain ⟨b, s₂, hb, hQ⟩ := hf
  exact ⟨b, s₂, hx.bind hb, hQ⟩

/-- Run a first statement of which only a postcondition is known. -/
theorem Ensures.bind {x : StateT σ (Except ε) α} {f : α → StateT σ (Except ε) β}
    {s : σ} {P : α → σ → Prop} {Q : β → σ → Prop} (hx : Ensures x s P)
    (hf : ∀ a s₁, P a s₁ → Ensures (f a) s₁ Q) : Ensures (x >>= f) s Q := by
  obtain ⟨a, s₁, hr, hP⟩ := hx
  exact hr.step (hf a s₁ hP)

theorem Ensures.mono {x : StateT σ (Except ε) α} {s : σ} {P Q : α → σ → Prop}
    (h : Ensures x s P) (hPQ : ∀ a s', P a s' → Q a s') : Ensures x s Q := by
  obtain ⟨a, s', hr, hP⟩ := h
  exact ⟨a, s', hr, hPQ a s' hP⟩

/-- A program that goes on as another one ensures what that one does. -/
theorem Ensures.of_apply {x y : StateT σ (Except ε) α} {s s₁ : σ} {Q : α → σ → Prop}
    (h : x s = y s₁) (hy : Ensures y s₁ Q) : Ensures x s Q := by
  unfold Ensures Returns at *
  rwa [h]

/-- Postconditions of one program hold together. -/
theorem Ensures.and {x : StateT σ (Except ε) α} {s : σ} {P Q : α → σ → Prop}
    (h : Ensures x s P) (h' : Ensures x s Q) : Ensures x s fun a s' => P a s' ∧ Q a s' := by
  obtain ⟨a, s₁, hret, hP⟩ := h
  obtain ⟨a', s₁', hret', hQ⟩ := h'
  obtain ⟨rfl, rfl⟩ := hret.unique hret'
  exact ⟨a, s₁, hret, hP, hQ⟩

/-! ## Partial correctness -/

/-- Whenever the program returns, its result satisfies `Q`. -/
def Yields (x : StateT σ (Except ε) α) (Q : α → Prop) : Prop :=
  ∀ s a s', Returns x s a s' → Q a

theorem Yields.pure {a : α} {Q : α → Prop} (h : Q a) :
    Yields (Pure.pure a : StateT σ (Except ε) α) Q := by
  intro s b s' hret
  obtain ⟨rfl, -⟩ := (Returns.pure (ε := ε) a s).unique hret
  exact h

/-- Only the last statement matters. -/
theorem Yields.bind {x : StateT σ (Except ε) α} {f : α → StateT σ (Except ε) β}
    {Q : β → Prop} (hf : ∀ a, Yields (f a) Q) : Yields (x >>= f) Q := by
  intro s b s' hret
  obtain ⟨a, s₁, -, hret⟩ := hret.of_bind
  exact hf a s₁ b s' hret

/-! ## Frames -/

/-- Whenever the program returns, what is seen of the state is the same as before. -/
def Keeps (see : σ → β) (x : StateT σ (Except ε) α) : Prop :=
  ∀ s a s', Returns x s a s' → see s' = see s

section

variable {γ : Type} {see : σ → γ} {x : StateT σ (Except ε) α} {f : α → StateT σ (Except ε) β}

theorem Keeps.pure (a : α) : Keeps see (Pure.pure a : StateT σ (Except ε) α) := by
  intro s b s' hret
  obtain ⟨-, rfl⟩ := (Returns.pure (ε := ε) a s).unique hret
  rfl

theorem Keeps.bind (hx : Keeps see x) (hf : ∀ a, Keeps see (f a)) : Keeps see (x >>= f) := by
  intro s b s' hret
  obtain ⟨a, s₁, hret₁, hret⟩ := hret.of_bind
  exact (hf a s₁ b s' hret).trans (hx s a s₁ hret₁)

/-- A program that stops keeps everything. -/
theorem Keeps.of_fails {e : σ → ε} (h : ∀ s, Fails x s (e s)) : Keeps see x :=
  fun s _ _ hret => absurd (h s) hret.not_fails

/-- A postcondition and a frame together. -/
theorem Ensures.keeps {s : σ} {Q : α → σ → Prop} (h : Ensures x s Q) (hx : Keeps see x) :
    Ensures x s fun a s' => Q a s' ∧ see s' = see s := by
  obtain ⟨a, s', hret, hQ⟩ := h
  exact ⟨a, s', hret, hQ, hx s a s' hret⟩

end

/-! ## Evaluating a program -/

/-- What the program returns, if it does. -/
def result (x : StateT σ (Except ε) α) (s : σ) : Option α :=
  match x s with
  | .ok (a, _) => some a
  | .error _ => none

/-- The state after the program, or the one before it if it fails. -/
@[irreducible] def after (x : StateT σ (Except ε) α) (s : σ) : σ :=
  match x s with
  | .ok (_, s') => s'
  | .error _ => s

theorem Returns.of_result {x : StateT σ (Except ε) α} {s : σ} {a : α}
    (h : result x s = some a) : Returns x s a (after x s) := by
  unfold result at h
  unfold Returns after
  split at h
  · next hx =>
    rw [hx]
    simpa using h
  · cases h

theorem Returns.after_eq {x : StateT σ (Except ε) α} {s s' : σ} {a : α}
    (h : Returns x s a s') : after x s = s' := by
  unfold Returns at h
  simp only [after, h]

/-- The fault that the program stops with, if it does. -/
def fault (x : StateT σ (Except ε) α) (s : σ) : Option ε :=
  match x s with
  | .ok _ => none
  | .error e => some e

theorem Fails.of_fault {x : StateT σ (Except ε) α} {s : σ} {e : ε}
    (h : fault x s = some e) : Fails x s e := by
  unfold fault at h
  unfold Fails
  split at h
  · cases h
  · next hx =>
    rw [hx]
    simpa using h

end CToys
