import CToys.Lib.Outcome
import Mathlib.Order.Defs.Unbundled

/-!
# How a program moves the state

`Moves R x` says that `R` relates the state before `x` to the one after, whenever `x` returns.
For a preorder this follows the shape of the program: it holds of a sequence when it holds of
the parts, and of a conditional when it holds of both branches.  So it is a class, and for a
program without loops the instances find the proof.
-/

namespace CToys

variable {σ ε α β : Type} {R : σ → σ → Prop} {x y : StateT σ (Except ε) α}
  {f : α → StateT σ (Except ε) β}

/-- Whenever the program returns, `R` relates the states. -/
class Moves (R : σ → σ → Prop) (x : StateT σ (Except ε) α) : Prop where
  rel : ∀ {s a s'}, Returns x s a s' → R s s'

namespace Moves

instance ite {c : Prop} [Decidable c] [Moves R x] [Moves R y] :
    Moves R (if c then x else y) := by
  split <;> infer_instance

instance throw (e : ε) : Moves R (throw e : StateT σ (Except ε) α) :=
  ⟨fun hret => by cases hret⟩

/-- A program that leaves alone what `R` is about. -/
theorem of_keeps {γ : Type} {see : σ → γ} (hx : Keeps see x)
    (h : ∀ s s', see s' = see s → R s s') : Moves R x :=
  ⟨fun hret => h _ _ (hx _ _ _ hret)⟩

variable [IsPreorder σ R]

instance pure (a : α) : Moves R (Pure.pure a : StateT σ (Except ε) α) :=
  ⟨fun hret => by rw [(returns_pure_iff.mp hret).2]; exact refl _⟩

instance bind [hx : Moves R x] [hf : ∀ a, Moves R (f a)] : Moves R (x >>= f) where
  rel hret := by
    obtain ⟨a, s₁, hret₁, hret₂⟩ := hret.of_bind
    exact IsTrans.trans _ _ _ (hx.rel hret₁) ((hf a).rel hret₂)

end Moves

end CToys
