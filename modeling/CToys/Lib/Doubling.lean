import Mathlib.Algebra.Ring.Nat

/-!
# Doubling until it is enough

A size `n` that is doubled one time after the other, each time only because it does not
exceed what is needed, ends at the least of `n`, `2 * n`, `4 * n`, .. that does.  Needs that
come one after the other, or that grow by one, lead to the size for the largest.
-/

namespace CToys

/-- With `j` doublings, and no fewer, `n` exceeds `m`. -/
structure LeastDoubling (n m j : Nat) : Prop where
  exceeds : m < n * 2 ^ j
  least : ∀ i < j, n * 2 ^ i ≤ m

namespace LeastDoubling

variable {n m m' j j' : Nat}

theorem zero (h : m < n) : LeastDoubling n m 0 := by
  refine ⟨?_, fun i hi => absurd hi (Nat.not_lt_zero i)⟩
  rwa [pow_zero, Nat.mul_one]

/-- One more is needed and there is room. -/
theorem succ (h : LeastDoubling n m j) (hroom : m + 1 < n * 2 ^ j) :
    LeastDoubling n (m + 1) j :=
  ⟨hroom, fun i hi => Nat.le_succ_of_le (h.least i hi)⟩

/-- One more is needed and there is no room. -/
theorem double (h : LeastDoubling n m j) (hfull : n * 2 ^ j = m + 1) :
    LeastDoubling n (m + 1) (j + 1) := by
  refine ⟨?_, fun i hi => ?_⟩
  · rw [pow_succ, ← Nat.mul_assoc, hfull]
    omega
  · rcases Nat.eq_or_lt_of_le (Nat.le_of_lt_succ hi) with rfl | hi
    · exact Nat.le_of_eq hfull
    · exact Nat.le_succ_of_le (h.least i hi)

/-- Doubling goes on from the size for an earlier need. -/
theorem trans (h : LeastDoubling n m j) (h' : LeastDoubling (n * 2 ^ j) m' j') :
    LeastDoubling n (max m m') (j + j') := by
  have hmul (i : Nat) : n * 2 ^ j * 2 ^ i = n * 2 ^ (j + i) := by rw [Nat.mul_assoc, pow_add]
  have hle : n * 2 ^ j ≤ n * 2 ^ (j + j') := by
    rw [← hmul]
    exact Nat.le_mul_of_pos_right _ (Nat.two_pow_pos j')
  refine ⟨Nat.max_lt.mpr ⟨Nat.lt_of_lt_of_le h.exceeds hle, hmul j' ▸ h'.exceeds⟩, fun i hi => ?_⟩
  rcases Nat.lt_or_ge i j with hij | hij
  · exact Nat.le_trans (h.least i hij) (Nat.le_max_left ..)
  · obtain ⟨d, rfl⟩ := Nat.exists_eq_add_of_le hij
    rw [← hmul]
    exact Nat.le_trans (h'.least d (by omega)) (Nat.le_max_right ..)

end LeastDoubling

end CToys
