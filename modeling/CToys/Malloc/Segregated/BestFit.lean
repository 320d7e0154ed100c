import CToys.Malloc.Segregated.Client

/-!
# Best fit

`find_fit` takes the first block of a list that is large enough.  Since the lists are
sorted and each holds the blocks of one power of two, that block is the smallest one of the
heap that is large enough (`Filed.fit_le`).  In a reachable state no block is in the list
of another size, so this is so after every run.
-/

namespace CToys.Malloc.Segregated

variable {A : Arena}

/-- `find_fit` returns and changes nothing.  If it finds a block then that block is free,
large enough, and no larger than any other such block. -/
theorem reachable_bestFit {c : Client A Statics} (hc : Reachable c) : ∃ h, Sound c h ∧
    ∀ n, ∃ p, Returns (findFit n) c.machine p c.machine ∧
      (p ≠ 0 → ∃ b ∈ h.blocks, b.alloc = false ∧ p = A.start + b.off ∧ n ≤ b.size ∧
        ∀ x ∈ h.blocks, x.alloc = false → ¬ (n ≤ x.size ∧ x.size < b.size)) := by
  obtain ⟨h, hs⟩ := hc.sound
  refine ⟨h, hs, fun n => ⟨_, findFit_returns hs.holds h.shape h.filed, fun hp => ?_⟩⟩
  cases hfit : fit h.bins n with
  | none =>
    rw [hfit] at hp
    exact absurd rfl hp
  | some b =>
    obtain ⟨hb, hal, hle⟩ := h.filed.fit_mem hfit
    refine ⟨b, hb, hal, rfl, hle, fun x hx hxal hbetter => ?_⟩
    have := h.filed.fit_le hfit hx hxal hbetter.1
    omega

/-- A search for 32 bytes after two requests finds the rest of the first chunk. -/
theorem paired_bestFit : ∃ h, Sound paired h ∧
    Returns (findFit 32) paired.machine 4176 paired.machine ∧
      ∃ b ∈ h.blocks, b.alloc = false ∧ Arena.low.start + b.off = 4176 ∧ 32 ≤ b.size ∧
        ∀ x ∈ h.blocks, x.alloc = false → ¬ (32 ≤ x.size ∧ x.size < b.size) := by
  obtain ⟨h, hs, hfit⟩ := reachable_bestFit paired_reachable
  have hfound : result (findFit 32) paired.machine = some 4176 := by decide +kernel
  obtain ⟨p, hret, hbest⟩ := hfit 32
  obtain ⟨rfl, -⟩ := hret.unique (.of_result hfound)
  obtain ⟨b, hb, hal, hp, hbest⟩ := hbest (by decide)
  exact ⟨h, hs, hret, b, hb, hal, hp.symm, hbest⟩

end CToys.Malloc.Segregated
