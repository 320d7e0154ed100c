import CToys.Lib.Outcome

/-!
# Programs that exit

A process is a stateful program that may stop before its end: it calls `exit`, accesses
memory out of bounds, or loops for ever.  What matters after `exit` is the state at that
moment, so the stop carries it.

*Exits.*  `Exits x s k s'` says that `x` started in `s` exits with status `k` in `s'`.
*Ends.*  `Ends x s Q` says that it exits and that status and state satisfy `Q`.

A statement that returns is peeled off by `Returns.ends` or `Ensures.ends`.

*Settles.*  `Settles x s Q R` says that it returns with `Q` or exits with `R`, for a loop that
a failed call may leave either way.
*Halts.*  `Halts x s Q R` allows for an access out of bounds as well.

*Finishes.*  `Finishes x s s' ok` says that it returns or exits in the state `s'`, whatever the
result.
*Shadows.*  `Shadows x y` says that `x` has the outcomes of `y`, which keeps no state.  So a
program that only takes notes shadows the one that does not.
-/

namespace CToys

variable {σ α β : Type}

/-- Why a process stops. -/
inductive Stop (σ : Type) where
  /-- `exit(status)`. -/
  | exit (status : Nat) (s : σ)
  /-- A store or a load outside an object. -/
  | bounds
  /-- A loop that does not end. -/
  | diverges

/-- Programs that may stop. -/
abbrev Process (σ : Type) : Type → Type := StateT σ (Except (Stop σ))

/-- `exit(status)`. -/
def exit (status : Nat) : Process σ α := fun s => .error (.exit status s)

/-- `abort`, with the status that a shell shows for the signal. -/
def abort : Process σ α := exit 134

/-- The program exits with `status`, and the state is `s'` then. -/
def Exits (x : Process σ α) (s : σ) (status : Nat) (s' : σ) : Prop :=
  Fails x s (.exit status s')

/-- The program exits, and its status and final state satisfy `Q`. -/
def Ends (x : Process σ α) (s : σ) (Q : Nat → σ → Prop) : Prop :=
  ∃ status s', Exits x s status s' ∧ Q status s'

variable {x : Process σ α} {f : α → Process σ β} {s s₁ s₂ : σ} {P Q : Nat → σ → Prop}

theorem exit_exits (status : Nat) (s : σ) :
    Exits (exit status : Process σ α) s status s := rfl

/-- `exit` does not return. -/
theorem exit_keeps {see : σ → β} (status : Nat) : Keeps see (exit status : Process σ α) :=
  .of_fails fun s => exit_exits status s

/-- A program exits in one way only. -/
theorem Exits.unique {k k' : Nat} (h₁ : Exits x s k s₁) (h₂ : Exits x s k' s₂) :
    k = k' ∧ s₁ = s₂ := by
  have h := h₁.symm.trans h₂
  cases h
  exact ⟨rfl, rfl⟩

/-- An exit is in the first statement or behind it. -/
theorem Exits.of_bind {k : Nat} (h : Exits (x >>= f) s k s₂) :
    Exits x s k s₂ ∨ ∃ a s₁, Returns x s a s₁ ∧ Exits (f a) s₁ k s₂ := by
  cases hx : x s with
  | error e =>
    obtain rfl : e = .exit k s₂ := Except.error.inj ((Fails.bind hx).symm.trans h)
    exact .inl hx
  | ok r => exact .inr ⟨r.1, r.2, hx, (Returns.bind_apply hx).symm.trans h⟩

theorem Exits.ends {k : Nat} (h : Exits x s k s₁) (hQ : Q k s₁) : Ends x s Q :=
  ⟨k, s₁, h, hQ⟩

/-- Nothing runs after an exit. -/
theorem Ends.bind (h : Ends x s Q) : Ends (x >>= f) s Q := by
  obtain ⟨k, s', hx, hQ⟩ := h
  exact ⟨k, s', Fails.bind hx, hQ⟩

/-- Run a first statement whose outcome is known. -/
theorem Returns.ends {a : α} (hx : Returns x s a s₁) (hf : Ends (f a) s₁ Q) :
    Ends (x >>= f) s Q := by
  obtain ⟨k, s', hf, hQ⟩ := hf
  exact ⟨k, s', hx.bind_fails hf, hQ⟩

/-- Run a first statement of which only a postcondition is known. -/
theorem Ensures.ends {R : α → σ → Prop} (hx : Ensures x s R)
    (hf : ∀ a s₁, R a s₁ → Ends (f a) s₁ Q) : Ends (x >>= f) s Q := by
  obtain ⟨a, s₁, hret, hR⟩ := hx
  exact hret.ends (hf a s₁ hR)

theorem Ends.mono (h : Ends x s P) (hPQ : ∀ k s', P k s' → Q k s') : Ends x s Q := by
  obtain ⟨k, s', hx, hP⟩ := h
  exact ⟨k, s', hx, hPQ k s' hP⟩

/-- A program that goes on as another one ends as that one does. -/
theorem Ends.of_apply {y : Process σ α} (hy : Ends y s₁ Q) (h : x s = y s₁) : Ends x s Q := by
  unfold Ends Exits Fails at *
  rwa [h]

/-! ## Programs that may exit or go on -/

/-- The program returns, and `Q` holds, or it exits, and `R` holds. -/
def Settles (x : Process σ α) (s : σ) (Q : α → σ → Prop) (R : Nat → σ → Prop) : Prop :=
  Ensures x s Q ∨ Ends x s R

section

variable {T : α → σ → Prop} {U : β → σ → Prop}

theorem Settles.pure {a : α} (h : T a s) : Settles (Pure.pure a) s T P := .inl (.pure h)

theorem Settles.exit {status : Nat} (h : P status s) :
    Settles (CToys.exit status : Process σ α) s T P :=
  .inr ((exit_exits status s).ends h)

/-- What follows is run only if the first statement returns. -/
theorem Settles.bind (hx : Settles x s T P) (hf : ∀ a s₁, T a s₁ → Settles (f a) s₁ U P) :
    Settles (x >>= f) s U P := by
  rcases hx with ⟨a, s₁, hret, hT⟩ | hexit
  · rcases hf a s₁ hT with hens | hends
    · exact .inl (hret.step hens)
    · exact .inr (hret.ends hends)
  · exact .inr hexit.bind

/-- Run a first statement whose outcome is known. -/
theorem Returns.settles {a : α} (hx : Returns x s a s₁) (hf : Settles (f a) s₁ U P) :
    Settles (x >>= f) s U P := by
  rcases hf with hens | hends
  · exact .inl (hx.step hens)
  · exact .inr (hx.ends hends)

theorem Settles.mono {T' : α → σ → Prop} (h : Settles x s T P)
    (hT : ∀ a s', T a s' → T' a s') (hPQ : ∀ k s', P k s' → Q k s') : Settles x s T' Q :=
  h.imp (·.mono hT) (·.mono hPQ)

/-- A program that has no way to exit returns. -/
theorem Settles.ensures (h : Settles x s T P) (hP : ∀ k s', ¬ P k s') : Ensures x s T :=
  h.resolve_right fun ⟨k, s', _, hk⟩ => hP k s' hk

/-- If it returns, the postcondition holds. -/
theorem Settles.of_returns {a : α} (h : Settles x s T P) (hret : Returns x s a s₁) : T a s₁ := by
  rcases h with ⟨a', s', hret', hT⟩ | ⟨k, s', hexit, -⟩
  · obtain ⟨rfl, rfl⟩ := hret.unique hret'
    exact hT
  · exact absurd hexit hret.not_fails

/-- A program that ends with what may return or exit. -/
theorem Settles.ends (hx : Settles x s T P) (hP : ∀ k s', P k s' → Q k s')
    (hf : ∀ a s₁, T a s₁ → Ends (f a) s₁ Q) : Ends (x >>= f) s Q := by
  rcases hx with hens | hends
  · exact hens.ends hf
  · exact (hends.mono hP).bind

end

/-- The program returns, and `Q` holds, or it exits, and `R` holds, or it accesses memory out of
bounds.  It does not loop. -/
def Halts (x : Process σ α) (s : σ) (Q : α → σ → Prop) (R : Nat → σ → Prop) : Prop :=
  Settles x s Q R ∨ Fails x s .bounds

section

variable {T : α → σ → Prop} {U : β → σ → Prop}

theorem Halts.pure {a : α} (h : T a s) : Halts (Pure.pure a) s T P := .inl (.pure h)

theorem Halts.exit {status : Nat} (h : P status s) :
    Halts (CToys.exit status : Process σ α) s T P := .inl (.exit h)

theorem Halts.bounds : Halts (throw .bounds : Process σ α) s T P := .inr rfl

theorem Halts.bind (hx : Halts x s T P) (hf : ∀ a s₁, T a s₁ → Halts (f a) s₁ U P) :
    Halts (x >>= f) s U P := by
  rcases hx with (⟨a, s₁, hret, hT⟩ | hexit) | hbounds
  · rcases hf a s₁ hT with hsettles | hbounds
    · exact .inl (hret.settles hsettles)
    · exact .inr (hret.bind_fails hbounds)
  · exact .inl (.inr hexit.bind)
  · exact .inr hbounds.bind

theorem Halts.mono {T' : α → σ → Prop} (h : Halts x s T P) (hT : ∀ a s', T a s' → T' a s')
    (hPQ : ∀ k s', P k s' → Q k s') : Halts x s T' Q :=
  h.imp_left (·.mono hT hPQ)

/-- If it returns, the postcondition holds. -/
theorem Halts.of_returns {a : α} (h : Halts x s T P) (hret : Returns x s a s₁) : T a s₁ := by
  rcases h with hsettles | hbounds
  · exact hsettles.of_returns hret
  · exact absurd hbounds hret.not_fails

/-- Run a first statement that returns. -/
theorem Ensures.halts (hx : Ensures x s T) (hf : ∀ a s₁, T a s₁ → Halts (f a) s₁ U P) :
    Halts (x >>= f) s U P :=
  Halts.bind (.inl (.inl hx)) hf

end

/-! ## Programs that take notes -/

/-- The program comes to an end in the state `s'`.  It returns if `ok` is set, and exits
otherwise. -/
def Finishes (x : Process σ α) (s s' : σ) : (ok : Bool) → Prop
  | true => ∃ a, Returns x s a s'
  | false => ∃ status, Exits x s status s'

theorem Finishes.pure (a : α) (s : σ) : Finishes (Pure.pure a : Process σ α) s s true :=
  ⟨a, .pure a s⟩

theorem Finishes.exit (status : Nat) (s : σ) : Finishes (exit status : Process σ α) s s false :=
  ⟨status, exit_exits status s⟩

/-- Only the outcome matters. -/
theorem Finishes.congr {y : Process σ α} {ok : Bool} (h : x s = y s₁) :
    Finishes x s s₂ ok ↔ Finishes y s₁ s₂ ok := by
  cases ok <;> simp only [Finishes, Returns, Exits, Fails, h]

/-- A program comes to an end once. -/
theorem Finishes.unique {ok ok' : Bool} (h : Finishes x s s₁ ok) (h' : Finishes x s s₂ ok') :
    s₁ = s₂ ∧ ok = ok' := by
  cases ok with
  | true =>
    obtain ⟨a, ha⟩ := h
    cases ok' with
    | true =>
      obtain ⟨b, hb⟩ := h'
      exact ⟨(ha.unique hb).2, rfl⟩
    | false =>
      obtain ⟨k, hk⟩ := h'
      exact absurd hk ha.not_fails
  | false =>
    obtain ⟨k, hk⟩ := h
    cases ok' with
    | true =>
      obtain ⟨b, hb⟩ := h'
      exact absurd hk hb.not_fails
    | false =>
      obtain ⟨k', hk'⟩ := h'
      exact ⟨(hk.unique hk').2, rfl⟩

/-- A program that does not stop where it fails comes to no end. -/
theorem Fails.not_finishes {e : Stop σ} (h : Fails x s e) (hne : ∀ k s', e ≠ .exit k s')
    {ok : Bool} :
    ¬ Finishes x s s₁ ok := by
  cases ok with
  | true => exact fun ⟨_, ha⟩ => ha.not_fails h
  | false => exact fun ⟨k, hk⟩ => hne k s₁ (Except.error.inj (h.symm.trans hk))

/-- The end is in the first statement or behind it. -/
theorem finishes_bind_iff {ok : Bool} : Finishes (x >>= f) s s₂ ok ↔
    ok = false ∧ Finishes x s s₂ false ∨ ∃ a s₁, Returns x s a s₁ ∧ Finishes (f a) s₁ s₂ ok := by
  cases ok with
  | true =>
    constructor
    · rintro ⟨b, hb⟩
      obtain ⟨a, s₁, hx, hf⟩ := hb.of_bind
      exact .inr ⟨a, s₁, hx, b, hf⟩
    · rintro (⟨⟨⟩, -⟩ | ⟨a, s₁, hx, b, hf⟩)
      exact ⟨b, hx.bind hf⟩
  | false =>
    constructor
    · rintro ⟨k, hk⟩
      rcases hk.of_bind with hx | ⟨a, s₁, hx, hf⟩
      · exact .inl ⟨rfl, k, hx⟩
      · exact .inr ⟨a, s₁, hx, k, hf⟩
    · rintro (⟨-, k, hx⟩ | ⟨a, s₁, hx, k, hf⟩)
      · exact ⟨k, Fails.bind hx⟩
      · exact ⟨k, hx.bind_fails hf⟩

/-- A last statement that only converts the result. -/
theorem finishes_map_iff {f : α → β} {ok : Bool} :
    Finishes (do return f (← x)) s s₁ ok ↔ Finishes x s s₁ ok := by
  rw [finishes_bind_iff]
  constructor
  · rintro (⟨rfl, h⟩ | ⟨a, s₂, hret, h⟩)
    · exact h
    · obtain ⟨rfl, rfl⟩ := h.unique (.pure (f a) s₂)
      exact ⟨a, hret⟩
  · intro h
    cases ok with
    | true =>
      obtain ⟨a, hret⟩ := h
      exact .inr ⟨a, s₁, hret, .pure (f a) s₁⟩
    | false => exact .inl ⟨rfl, h⟩

/-- The outcome without the state. -/
def erase : Except (Stop σ) (α × σ) → Except (Stop Unit) (α × Unit)
  | .ok (a, _) => .ok (a, ())
  | .error (.exit status _) => .error (.exit status ())
  | .error .bounds => .error .bounds
  | .error .diverges => .error .diverges

/-- The program has the outcomes of one that keeps no state. -/
def Shadows (x : Process σ α) (y : Process Unit α) : Prop := ∀ s, erase (x s) = y ()

section

variable {y : Process Unit α} {g : α → Process Unit β}

theorem Shadows.pure (a : α) : Shadows (Pure.pure a : Process σ α) (Pure.pure a) := fun _ => rfl

theorem Shadows.exit (status : Nat) : Shadows (exit status : Process σ α) (exit status) :=
  fun _ => rfl

theorem Shadows.bind (hx : Shadows x y) (hf : ∀ a, Shadows (f a) (g a)) :
    Shadows (x >>= f) (y >>= g) := by
  intro s
  have hy := hx s
  cases hxs : x s with
  | error e =>
    have hfails : Fails (x >>= f) s e := Fails.bind hxs
    rw [hfails]
    cases e <;> (rw [hxs] at hy; exact (Fails.bind hy.symm).symm)
  | ok r =>
    obtain ⟨a, s₁⟩ := r
    rw [hxs] at hy
    have hfirst : Returns x s a s₁ := hxs
    have hsecond : Returns y () a () := hy.symm
    rw [hfirst.bind_apply, hsecond.bind_apply]
    exact hf a s₁

/-- A statement that changes the state only is not seen. -/
theorem Shadows.note {note : Process σ Unit} (hnote : ∀ s, ∃ s', Returns note s () s')
    (hx : Shadows x y) : Shadows (do note; x) y := by
  intro s
  obtain ⟨s', hs'⟩ := hnote s
  exact (congrArg erase hs'.bind_apply).trans (hx s')

end

/-- What is seen of the state when the program exits. -/
def atExit (see : σ → β) (x : Process σ α) (s : σ) : Option (Nat × β) :=
  match x s with
  | .error (.exit status s') => some (status, see s')
  | _ => none

theorem Exits.of_atExit {see : σ → β} {k : Nat} {b : β} (h : atExit see x s = some (k, b)) :
    ∃ s', Exits x s k s' ∧ see s' = b := by
  unfold atExit at h
  split at h
  · next k' s' hx =>
    cases h
    exact ⟨s', hx, rfl⟩
  · cases h

/-- Whether the program stops at an access outside an object. -/
def overruns (x : Process σ α) (s : σ) : Bool :=
  match x s with
  | .error .bounds => true
  | _ => false

theorem Fails.of_overruns (h : overruns x s = true) : Fails x s .bounds := by
  unfold overruns at h
  split at h
  · next hx => exact hx
  · cases h

end CToys
