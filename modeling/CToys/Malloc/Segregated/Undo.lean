import CToys.Malloc.Frees
import CToys.Malloc.Segregated.Client

/-!
# Freeing undoes allocating

`mm_free` of what `mm_malloc` just returned leads back to the same blocks and to the same
blocks in each list.  `place` may have taken a whole free block, its front or its back, but
the allocated blocks are those from before, and they determine the layout.  What is in the
lists follows from the blocks.

If `mm_malloc` had to extend the heap, the extension stays, as a free block at the end.
-/

namespace CToys.Malloc.Segregated

variable {A : Arena} {σ : Machine A Statics} {h h' : Heap} {b : Block} {n : Nat}

/-- A request that is served from the lists is undone. -/
theorem Heap.release_malloc {hn : 8 ∣ n ∧ 16 ≤ n} (hm : h.malloc n hn = some (b, h'))
    (hfit : fit h.bins n ≠ none) (s : Spot h'.blocks) (hs : s.block = b) :
    h'.toLayout.release s = h.toLayout := by
  refine (Heap.malloc_served hm).release_eq ?_ s hs
  by_contra hbrk
  exact hfit ((Heap.malloc_brk hm).mp hbrk)

/-- Otherwise the extension stays. -/
theorem Heap.release_malloc_grown {hn : 8 ∣ n ∧ 16 ≤ n} (hm : h.malloc n hn = some (b, h'))
    (hfit : fit h.bins n = none) (s : Spot h'.blocks) (hs : s.block = b) :
    ∃ hle, h'.toLayout.release s = h.toLayout.grow (extension n) (extension_ok hn) hle := by
  rcases h.malloc_cases n hn with ⟨_, _, _, hsome, -⟩ | ⟨-, hgrow, heq⟩ | ⟨-, -, heq⟩
  · rw [hfit] at hsome
    cases hsome
  · rw [heq] at hm
    cases hm
    let h₁ := h.grow (extension n) (extension_ok hn) hgrow
    let s₁ := h.topSpot (extension n) (extension_ok hn) hgrow
    have hserved :
        Served h₁.toLayout n _ (h₁.place s₁ rfl n hn (Layout.top_fits hn hgrow)).toLayout :=
      Layout.take_served rfl _
    exact ⟨hgrow, hserved.release_eq rfl s hs⟩
  · rw [heq] at hm
    cases hm

/-- In every state in which the machine holds a heap, `mm_free` of what `mm_malloc` returned
undoes the call.  If `find_fit` found a block, the blocks and the members of each list are as
before.  If it did not, the blocks are those from before with the extension at the end. -/
theorem mmFree_undoes_mmMalloc (hr : Holds σ h) (r : Request) {p : Nat} {σ₁ : Machine A Statics}
    (hmalloc : Returns (mmMalloc r.1) σ p σ₁) (hp : p ≠ 0) :
    ∃ q σ₂ h₂, Returns (findFit (newSizeOf r.1)) σ q σ ∧ Returns (mmFree p) σ₁ () σ₂ ∧
      Holds σ₂ h₂ ∧
      (q ≠ 0 → h₂.brk = h.brk ∧ h₂.blocks = h.blocks ∧
        ∀ i < listMax, ∀ c, c ∈ h₂.bins i ↔ c ∈ h.bins i) ∧
      (q = 0 → h₂.brk = h.brk + max (newSizeOf r.1) chunksize ∧
        h₂.blocks = appendFree h.blocks h.brk (max (newSizeOf r.1) chunksize)) := by
  have hA := A.pos
  have hint : intMax = 2147483647 := rfl
  have hrange := r.2
  have hsize : r.1 ≤ 2 ^ 32 - 16 := by omega
  have hret := mmMalloc_ensures hr r.2.1 hsize
  obtain ⟨hnew, -⟩ := newSizeOf_eq hsize
  rw [hnew]
  cases hm : h.malloc (need r.1) (need_ok r.1).1 with
  | none =>
    rw [hm] at hret
    obtain ⟨q, σ', hret, hq, -⟩ := hret
    exact absurd ((hmalloc.unique hret).1.trans hq) hp
  | some res =>
    obtain ⟨b, h₁⟩ := res
    rw [hm] at hret
    obtain ⟨q, σ', hret, rfl, hr₁, -⟩ := hret
    obtain ⟨rfl, rfl⟩ := hmalloc.unique hret
    have hserved := Heap.malloc_served hm
    let s := Spot.of h₁.blocks b hserved.mem
    have hs : s.block = b := Spot.of_block hserved.mem
    have hal : s.block.alloc = true := by rw [hs, hserved.alloc]
    have hfree := mmFree_ensures hr₁ s hal
    rw [hs] at hfree
    obtain ⟨⟨⟩, σ₂, hfree, hr₂, -⟩ := hfree
    refine ⟨_, σ₂, h₁.release s hal, findFit_returns hr h.shape h.filed, hfree, hr₂, fun hq => ?_,
      fun hq => ?_⟩
    · have hfit : fit h.bins (need r.1) ≠ none := by
        rintro hnone
        rw [hnone] at hq
        exact hq rfl
      have heq : (h₁.release s hal).toLayout = h.toLayout := Heap.release_malloc hm hfit s hs
      have hblocks : (h₁.release s hal).blocks = h.blocks := congrArg Layout.blocks heq
      refine ⟨congrArg Layout.brk heq, hblocks, fun i hi c => ?_⟩
      rw [(h₁.release s hal).filed.mem i hi, h.filed.mem i hi, hblocks]
    · have hfit : fit h.bins (need r.1) = none := by
        cases hsome : fit h.bins (need r.1) with
        | none => rfl
        | some c =>
          rw [hsome] at hq
          simp only [blockPtr, Option.map_some, ptrOf_some] at hq
          omega
      obtain ⟨hle, heq⟩ := Heap.release_malloc_grown hm hfit s hs
      have heq' : (h₁.release s hal).toLayout = h.toLayout.grow _ _ hle := heq
      refine ⟨congrArg Layout.brk heq', ?_⟩
      rw [show (h₁.release s hal).blocks = _ from congrArg Layout.blocks heq',
        Layout.grow_blocks]
      rfl

/-- The first request after `mm_init`, undone. -/
theorem booted_undone : ∃ (σ₁ σ₂ : Machine .low Statics) (h₂ : Heap),
    Returns (mmMalloc 24) booted.machine 4112 σ₁ ∧ Returns (mmFree 4112) σ₁ () σ₂ ∧
      Holds σ₂ h₂ ∧ h₂.blocks = [⟨16, 4096, false⟩] := by
  have hmalloc : result (mmMalloc 24) booted.machine = some 4112 := by decide +kernel
  have hfind : result (findFit (newSizeOf 24)) booted.machine = some 4112 := by decide +kernel
  obtain ⟨q, σ₂, h₂, hq, hfree, hr₂, hsame, -⟩ :=
    mmFree_undoes_mmMalloc booted_started.sound.holds .small (.of_result hmalloc) (by decide)
  have hq' : q = 4112 := (hq.unique (.of_result hfind)).1
  obtain ⟨-, hblocks, -⟩ := hsame (by omega)
  exact ⟨_, σ₂, h₂, .of_result hmalloc, hfree, hr₂, hblocks⟩

end CToys.Malloc.Segregated
