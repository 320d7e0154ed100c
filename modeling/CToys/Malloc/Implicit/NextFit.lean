import CToys.Malloc.Implicit.Client

/-!
# Next fit

`next_fit` stops its second walk at the rover only.  In a reachable state the rover is at
the prologue or at a block, so both walks end and no block is missed: the search succeeds
whenever `first_fit` would, and what it finds is the first block that fits from the rover
on, round the heap.
-/

namespace CToys.Malloc.Implicit

variable {A : Arena}

section

variable {c : Client A Statics} {h : Heap} {n : Nat}

/-- Neither search finds a block. -/
theorem Sound.search_fails (hs : Sound c h) (hfit : fit h.blocks h.rover n = none) :
    Returns (nextFit n) c.machine 0 c.machine ∧ Returns (firstFit n) c.machine 0 c.machine ∧
      ∀ b ∈ h.blocks, b.alloc = false → b.size < n := by
  have hnext := findFit_returns (n := n) hs.holds h.shape h.current
  have hfirst := firstFit_returns (n := n) hs.holds h.shape
  rw [hfit] at hnext
  rw [find_fits_eq_none.mpr hfit] at hfirst
  exact ⟨hnext, hfirst, fit_eq_none.mp hfit⟩

/-- Both searches find one. -/
theorem Sound.search_finds (hs : Sound c h) {b : Block}
    (hfit : fit h.blocks h.rover n = some b) :
    Returns (nextFit n) c.machine (A.start + b.off) (withRover c.machine b.off) ∧
      ∃ p ≠ 0, Returns (firstFit n) c.machine p c.machine := by
  have hA := A.pos
  have hnext := findFit_returns (n := n) hs.holds h.shape h.current
  have hfirst := firstFit_returns (n := n) hs.holds h.shape
  rw [hfit] at hnext
  refine ⟨hnext, _, ?_, hfirst⟩
  cases hfind : h.blocks.find? (Block.fits n) with
  | none =>
    rw [find_fits_eq_none.mp hfind] at hfit
    cases hfit
  | some b' =>
    simp only [hit, Option.map_some, Option.getD_some]
    omega

end

/-- `next_fit` returns.  Either it finds the first free block that is large enough in the
cyclic order from the rover on, and leaves the rover there, or it returns `NULL` and
changes nothing, no free block is large enough, and `first_fit` returns `NULL` too. -/
theorem reachable_nextFit {c : Client A Statics} (hc : Reachable c) : ∃ h, Sound c h ∧
    ∀ n, (∃ b l₁ l₂, around h.blocks h.rover = l₁ ++ b :: l₂ ∧
        (∀ x ∈ l₁, x.alloc = true ∨ x.size < n) ∧
        b ∈ h.blocks ∧ b.alloc = false ∧ n ≤ b.size ∧
        Returns (nextFit n) c.machine (A.start + b.off) (withRover c.machine b.off) ∧
        ∃ p ≠ 0, Returns (firstFit n) c.machine p c.machine) ∨
      (Returns (nextFit n) c.machine 0 c.machine ∧
        (∀ b ∈ h.blocks, b.alloc = false → b.size < n) ∧
        Returns (firstFit n) c.machine 0 c.machine) := by
  obtain ⟨h, hs⟩ := hc.sound
  refine ⟨h, hs, fun n => ?_⟩
  cases hfit : fit h.blocks h.rover n with
  | none =>
    obtain ⟨hnext, hfirst, hnone⟩ := hs.search_fails hfit
    exact .inr ⟨hnext, hnone, hfirst⟩
  | some b =>
    obtain ⟨-, l₁, l₂, haround, hskip⟩ := List.find?_eq_some_iff_append.mp hfit
    obtain ⟨hb, hal, hle⟩ := fit_mem hfit
    refine .inl ⟨b, l₁, l₂, haround, fun x hx => ?_, hb, hal, hle, hs.search_finds hfit⟩
    have hx := hskip x hx
    simp only [Block.fits, Bool.not_and, Bool.not_not, Bool.or_eq_true, Bool.not_eq_true',
      decide_eq_false_iff_not, Nat.not_le] at hx
    exact hx

/-- A search for 32 bytes after a block was moved finds the rest of the chunk, where the rover
stops. -/
theorem widened_nextFit : ∃ h, Sound widened h ∧
    ∃ b ∈ h.blocks, b.alloc = false ∧ 32 ≤ b.size ∧ Arena.low.start + b.off = 4256 ∧
      Returns (nextFit 32) widened.machine 4256 (withRover widened.machine b.off) := by
  obtain ⟨h, hs, hfit⟩ := reachable_nextFit (single_reachable.step widened_step)
  have hfound : result (nextFit 32) widened.machine = some 4256 := by decide +kernel
  rcases hfit 32 with ⟨b, -, -, -, -, hb, hal, hle, hret, -⟩ | ⟨hret, -⟩
  · obtain ⟨hp, -⟩ := hret.unique (.of_result hfound)
    exact ⟨h, hs, b, hb, hal, hle, hp, hp ▸ hret⟩
  · cases (hret.unique (.of_result hfound)).1

end CToys.Malloc.Implicit
