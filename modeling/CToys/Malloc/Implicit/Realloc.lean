import CToys.Malloc.Implicit.Heap

/-!
# Reallocating by moving

`mm_realloc` allocates a new block, copies and frees the old one.  The old block is still
allocated while the new one is chosen, so the two are apart.  The copy takes at most as
many bytes as were asked for, which the new payload holds.  It may read the footer of the
old block and the header of the next one, but these never come to matter: only the payload
of the old block was promised to be copied.
-/

namespace CToys.Malloc.Implicit

variable {A : Arena} {σ : Machine A Statics} {h : Heap} {size : Nat}

/-- `mm_realloc(NULL, size)` is `mm_malloc(size)`. -/
theorem mmRealloc_null : (mmRealloc 0 size : Prog A Statics Nat) = mmMalloc size := rfl

/-- `mm_realloc(ptr, 0)` is `mm_free(ptr)`. -/
theorem mmRealloc_zero (hr : Holds σ h) (s : Spot h.blocks) :
    Ensures (mmRealloc (A.start + s.block.off) 0) σ fun p σ' =>
      p = 0 ∧ Holds σ' (h.release s) ∧
        σ.storage.AgreeOn σ'.storage (InUse (h.release s).blocks) := by
  have hA := A.pos
  unfold mmRealloc
  rw [if_neg (by omega), if_pos rfl]
  refine (mmFree_ensures hr s).bind ?_
  intro _ σ' hσ
  obtain ⟨hr', hag⟩ := hσ
  exact .pure ⟨rfl, hr', hag⟩

/-- What moving the block at `s` into the new block `b` of the heap `h'` leaves behind. -/
structure Moved (s : Spot h.blocks) (size : Nat) (σ σ' : Machine A Statics) (b : Block)
    (h' : Heap) (s' : Spot h'.blocks) : Prop where
  same : s'.block = s.block
  holds : Holds σ' (h'.release s')
  frame : σ.storage.AgreeOn σ'.storage (InUse (s.pre ++ s.post))
  contents : ∀ i < min (s.block.size - 8) size,
    σ'.storage (b.off + i) = σ.storage (s.block.off + i)

/-- Copy to the new block and free the old one. -/
private theorem move_ensures {σ₁ : Machine A Statics} {h' : Heap} {b : Block} {s : Spot h.blocks}
    (hr₁ : Holds σ₁ h') (hserved : Served h.toLayout (need size) b h'.toLayout)
    (hag₁ : σ.storage.AgreeOn σ₁.storage (InUse h.blocks)) (hal : s.block.alloc = true)
    (s' : Spot h'.blocks) (hsame : s'.block = s.block) :
    Ensures (do
      let copySize ← getSize (hdrp (A.start + s.block.off))
      memcpy (A.start + b.off) (A.start + s.block.off) (if size < copySize then size else copySize)
      mmFree (A.start + s.block.off)
      return A.start + b.off) σ₁ fun p σ' =>
        p = A.start + b.off ∧ Moved s size σ σ' b h' s' := by
  have hneed := (need_ok size).2
  have henough := hserved.enough
  have hb := h.shape.bounds s.mem
  have hb' := h'.shape.bounds hserved.mem
  have hapart := hserved.apart s.block s.mem hal
  have htag := hr₁.tagged.header s'.block s'.mem
  rw [hsame] at htag
  refine (getSize_hdrp_returns (by omega) (by omega) htag).step ?_
  generalize hn : (if size < s.block.size then size else s.block.size) = n
  have hnle : n ≤ size ∧ n ≤ s.block.size ∧ min (s.block.size - 8) size ≤ n := by
    rw [← hn]
    split <;> omega
  refine (memcpy_returns (by omega) (by omega) (by omega)).step ?_
  have hr₂ : Holds (σ₁.withStorage (σ₁.storage.copy b.off s.block.off n)) h' := by
    refine hr₁.of_payload fun a ha => Memory.copy_apply_of_ne ?_
    have := ha b hserved.mem
    unfold Block.Payload at this
    omega
  have hfree := mmFree_ensures hr₂ s'
  rw [hsame] at hfree
  refine hfree.bind ?_
  intro _ σ₃ hσ
  obtain ⟨hr₃, hag₃⟩ := hσ
  -- a block that was in use before and is not the one that moved keeps its bytes
  have hlive {c : Block} (hc : c ∈ h'.blocks) (hcal : c.alloc = true) (hne : c ≠ s.block) :
      c ∈ (h'.release s').blocks :=
    (Layout.release_alloc hcal).mpr ⟨hc, by rwa [hsame]⟩
  refine .pure ⟨rfl, hsame, hr₃, ?_, fun i hi => ?_⟩
  · intro a ha
    obtain ⟨c, hc, hcal, hp⟩ := ha
    have hcmem := s.mem_of_sides hc
    have hne := (h.shape_at s).ne_of_mem hc
    have hc' := (hserved.blocks c hcal).mpr (.inr hcmem)
    have hcb := hserved.apart c hcmem hcal
    have hcpos := (h.shape.bounds hcmem).2.2.2.1
    have hcopy : (σ₁.storage.copy b.off s.block.off n) a = σ₁.storage a := by
      refine Memory.copy_apply_of_ne ?_
      unfold Block.Payload at hp
      omega
    rw [hag₃ a ⟨c, hlive hc' hcal hne, hcal, hp⟩]
    exact hcopy.trans (hag₁ a ⟨c, hcmem, hcal, hp⟩)
  · have hne : b ≠ s.block := fun e => by
      rw [e] at hapart
      omega
    rw [hag₃ _ ⟨b, hlive hserved.mem hserved.alloc hne, hserved.alloc, by omega, by omega⟩]
    refine (Memory.copy_apply (by omega)).trans (hag₁ _ ⟨s.block, s.mem, hal, ?_⟩)
    exact ⟨by omega, by omega⟩

/-- `mm_realloc` moves the block, or fails and changes nothing. -/
theorem mmRealloc_ensures (hr : Holds σ h) (s : Spot h.blocks) (hal : s.block.alloc = true)
    (hpos : 0 < size) (hsize : size ≤ 2 ^ 32 - 16) :
    Ensures (mmRealloc (A.start + s.block.off) size) σ fun p σ' =>
      match h.malloc (need size) (need_ok size).1 with
      | some (b, h') => p = A.start + b.off ∧ ∃ s' : Spot h'.blocks, Moved s size σ σ' b h' s'
      | none => p = 0 ∧ σ' = σ := by
  have hA := A.pos
  unfold mmRealloc
  rw [if_neg (by omega), if_neg (by omega)]
  refine (mmMalloc_ensures hr hpos hsize).bind ?_
  rintro p σ₁ hq
  cases hm : h.malloc (need size) (need_ok size).1 with
  | none =>
    rw [hm] at hq
    obtain ⟨rfl, rfl⟩ := hq
    rw [if_pos rfl]
    exact .pure ⟨rfl, rfl⟩
  | some res =>
    obtain ⟨b, h'⟩ := res
    rw [hm] at hq
    obtain ⟨rfl, hr₁, hag₁⟩ := hq
    have hserved := Heap.malloc_served hm
    have hmem : s.block ∈ h'.blocks := (hserved.blocks _ hal).mpr (.inr s.mem)
    rw [if_neg (by omega)]
    refine (move_ensures hr₁ hserved hag₁ hal (.of h'.blocks s.block hmem)
      (Spot.of_block hmem)).mono ?_
    intro p σ' hσ
    obtain ⟨hp, hmoved⟩ := hσ
    exact ⟨hp, _, hmoved⟩

end CToys.Malloc.Implicit
