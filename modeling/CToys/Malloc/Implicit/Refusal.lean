import CToys.Malloc.Implicit.Client

/-!
# Refused requests

A request of `mm_malloc` or `mm_realloc` is refused by one call of `mem_sbrk`, three levels
below, and nothing was written before.  The search has looked at every free block by then,
but it moves the rover only when it finds one, and `mm_realloc` touches the old block after
it has the new one.
-/

namespace CToys.Malloc.Implicit

variable {A : Arena}

/-- No free block has `n` bytes, and the break cannot move by the extension for them. -/
def Exhausted (h : Heap) (n : Nat) : Prop :=
  (∀ b ∈ h.blocks, b.alloc = false → b.size < n) ∧ maxHeap < h.brk + max n chunksize

/-- A request returns.  It returns `NULL` exactly if `p` holds, and has changed nothing then. -/
def RefusedIff (x : Prog A Statics Nat) (σ : Machine A Statics) (p : Prop) : Prop :=
  ∃ q σ', Returns x σ q σ' ∧ (q = 0 ↔ p) ∧ (q = 0 → σ' = σ)

variable {σ : Machine A Statics} {h : Heap} {n : Nat}

theorem Heap.malloc_eq_none (hn : 8 ∣ n ∧ 16 ≤ n) : h.malloc n hn = none ↔ Exhausted h n := by
  unfold Exhausted
  rw [← fit_eq_none (o := h.rover)]
  rcases h.malloc_cases n hn with ⟨_, _, _, hfit, hm⟩ | ⟨-, hgrow, hm⟩ | ⟨hfit, hfull, hm⟩
  · simp [hfit, hm]
  · refine iff_of_false (by simp [hm]) fun hfull => ?_
    exact absurd hfull.2 (Nat.not_lt.mpr hgrow)
  · exact iff_of_true hm ⟨hfit, hfull⟩

/-- A call that follows `Heap.malloc` is refused when that is. -/
private theorem refusedIff_of_ensures {hn : 8 ∣ n ∧ 16 ≤ n} {x : Prog A Statics Nat}
    {Q : Block → Heap → Machine A Statics → Prop}
    (hx : Ensures x σ fun p σ' =>
      match h.malloc n hn with
      | some (b, h') => p = A.start + b.off ∧ Q b h' σ'
      | none => p = 0 ∧ σ' = σ) : RefusedIff x σ (Exhausted h n) := by
  have hA := A.pos
  obtain ⟨p, σ', hret, hp⟩ := hx
  refine ⟨p, σ', hret, ?_⟩
  rw [← Heap.malloc_eq_none hn]
  cases hm : h.malloc n hn with
  | some res =>
    rw [hm] at hp
    have hp₀ : p ≠ 0 := by
      have := hp.1
      omega
    simp [hp₀]
  | none =>
    rw [hm] at hp
    simp [hp]

theorem mmMalloc_refusedIff {size : Nat} (hr : Holds σ h) (hpos : 0 < size)
    (hsize : size ≤ 2 ^ 32 - 16) : RefusedIff (mmMalloc size) σ (Exhausted h (need size)) :=
  refusedIff_of_ensures (mmMalloc_ensures hr hpos hsize)

theorem mmRealloc_refusedIff {size : Nat} (hr : Holds σ h) (s : Spot h.blocks)
    (hal : s.block.alloc = true) (hpos : 0 < size) (hsize : size ≤ 2 ^ 32 - 16) :
    RefusedIff (mmRealloc (A.start + s.block.off) size) σ (Exhausted h (need size)) :=
  refusedIff_of_ensures (mmRealloc_ensures hr s hal hpos hsize)

/-- In every state of every run, `mm_malloc`, and `mm_realloc` of any live pointer, return `NULL`
exactly if no free block is large enough and the break cannot move.  Bytes, break and rover
are the same then, and every live pointer is live in the heap that there was. -/
theorem refused_iff_exhausted {c : Client A Statics} (hc : Reachable c) (r : Request) :
    ∃ h, Sound c h ∧ RefusedIff (mmMalloc r.1) c.machine (Exhausted h (newSizeOf r.1)) ∧
      (∀ k g, c.ledger.live k = some g →
        RefusedIff (mmRealloc g.ptr r.1) c.machine (Exhausted h (newSizeOf r.1))) ∧
      ∀ ev c', (ev = .malloc r 0 ∨ ∃ k, ev = .realloc (some k) ⟨r.1, r.2.2⟩ 0) → Step c ev c' →
        c'.machine = c.machine ∧ Sound c' h ∧ c'.ledger.live = c.ledger.live := by
  obtain ⟨h, hs⟩ := hc.sound
  have hint : intMax = 2147483647 := rfl
  have hrange := r.2
  have hsize : r.1 ≤ 2 ^ 32 - 16 := by omega
  obtain ⟨hnew, -⟩ := newSizeOf_eq hsize
  have hmalloc := mmMalloc_refusedIff hs.holds r.2.1 hsize
  have hrealloc (k : Nat) (g : Grant) (hk : c.ledger.live k = some g) :
      RefusedIff (mmRealloc g.ptr r.1) c.machine (Exhausted h (need r.1)) := by
    obtain ⟨s, hal, hg, -⟩ := hs.spot hk
    rw [hg]
    exact mmRealloc_refusedIff hs.holds s hal r.2.1 hsize
  rw [hnew]
  refine ⟨h, hs, hmalloc, hrealloc, fun ev c' hev hstep => ?_⟩
  -- a refused call is recorded in the ledger as one that returned nothing
  have hrefused : Sound ⟨c.machine, c.ledger.record 0 r.1⟩ h := ⟨hs.holds, hs.serves.refuse⟩
  have hlive : (c.ledger.record 0 r.1).live = c.ledger.live := rfl
  rcases hev with rfl | ⟨k, rfl⟩
  · cases hstep with | malloc hret =>
    obtain ⟨q, σ', hret', -, hsame⟩ := hmalloc
    obtain ⟨rfl, rfl⟩ := hret'.unique hret
    obtain rfl := hsame rfl
    exact ⟨rfl, hrefused, hlive⟩
  · cases hstep with | realloc hk hret =>
    obtain ⟨q, σ', hret', -, hsame⟩ := hrealloc k _ hk
    obtain ⟨rfl, rfl⟩ := hret'.unique hret
    obtain rfl := hsame rfl
    rw [Ledger.resize_refused (Nat.ne_of_gt r.2.1)]
    exact ⟨rfl, hrefused, hlive⟩

/-- The largest request is refused after the first one. -/
theorem single_refuses : ∃ h, Sound single h ∧
    RefusedIff (mmRealloc 4112 intMax) single.machine (Exhausted h (newSizeOf intMax)) := by
  have hlive : single.ledger.live 0 = some ⟨4112, 24⟩ := rfl
  obtain ⟨h, hs, -, hrealloc, -⟩ := refused_iff_exhausted single_reachable ⟨intMax, by decide⟩
  have hrefused := hrealloc 0 ⟨4112, 24⟩ hlive
  exact ⟨h, hs, hrefused⟩

end CToys.Malloc.Implicit
