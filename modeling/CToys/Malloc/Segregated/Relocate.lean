import CToys.Malloc.Segregated.Realloc

/-!
# The copy of a block that moves

When `mm_realloc` moves a block it copies as many bytes as the block has, header and footer
included, so it reads 8 bytes behind the payload.  These are the footer and the header of
the block behind, which is there since the block is not the last one.

The 8 bytes also fit into the new payload.  Block sizes are multiples of 8 and the new block
is larger than the old one, so it is larger by at least the 8 bytes of its own tags.
-/

namespace CToys.Malloc.Segregated

variable {A : Arena}

/-- A copy of `n` bytes from `src` to `dst` reads below the break, writes into the payload of
the block `t`, and its two ranges have no byte in common. -/
structure CopyInBounds (σ : Machine A Statics) (src dst n : Nat) (t : Block) : Prop where
  read : ∀ i < n, A.start ≤ src + i ∧ src + i < σ.memBrk
  written : ∀ i < n, A.start ≤ dst + i ∧ t.Payload (dst + i - A.start)
  disjoint : ∀ i < n, ∀ j < n, src + i ≠ dst + j

variable {σ : Machine A Statics} {h : Heap}

/-- The copy of a block that moves is in bounds. -/
theorem Relocated.copyInBounds {s : Spot h.blocks} {size : Nat} {σ₁ σ₂ σ' : Machine A Statics}
    {t : Block} {h₁ h' : Heap} (hmoved : Relocated s size σ σ₁ σ₂ σ' t h₁ h')
    (hal : s.block.alloc = true) (hlarge : s.block.size < need size) :
    CopyInBounds σ₁ (A.start + s.block.off) (A.start + t.off) s.block.size t := by
  have hserved := hmoved.served
  have hmem : s.block ∈ h₁.blocks := (hserved.blocks _ hal).mpr (.inr s.mem)
  have hb := h₁.shape.bounds hmem
  have ht := h₁.shape.bounds hserved.mem
  have hapart := hserved.apart s.block s.mem hal
  have henough := hserved.enough
  have hdvd := (need_ok size).1.1
  -- the new block is larger by the 8 bytes of two tags
  have hroom : s.block.size + 8 ≤ t.size := by omega
  refine ⟨fun i hi => ?_, fun i hi => ?_, fun i hi j hj => ?_⟩
  · rw [hmoved.holds.brk]
    omega
  · rw [Nat.add_assoc, Nat.add_sub_cancel_left]
    exact ⟨by omega, by omega, by omega⟩
  · omega

/-- In every state in which the machine holds a heap, `mm_realloc` moves a block behind which
there is one in use if `mm_malloc` returns a new one.  The copy is in bounds, and after
`mm_free` the machine holds a heap that has the new block in place of the old one. -/
theorem mmRealloc_relocates (hr : Holds σ h) (s : Spot h.blocks) (hal : s.block.alloc = true)
    (hnext : ∃ y ∈ s.post.head?, y.alloc = true) (r : Request)
    (hlarge : s.block.size < need r.1) {p : Nat} {σ₁ : Machine A Statics}
    (hmalloc : Returns (mmMalloc r.1) σ p σ₁) (hp : p ≠ 0) :
    mmRealloc (A.start + s.block.off) r.1 σ =
        relocate (A.start + s.block.off) r.1 s.block.size σ ∧
      ∃ (t : Block) (h₁ h' : Heap) (σ₂ σ' : Machine A Statics),
        Returns (memcpy p (A.start + s.block.off) s.block.size) σ₁ () σ₂ ∧
          Returns (mmFree (A.start + s.block.off)) σ₂ () σ' ∧
          Returns (mmRealloc (A.start + s.block.off) r.1) σ p σ' ∧
          Holds σ₁ h₁ ∧ t ∈ h₁.blocks ∧ t.alloc = true ∧ p = A.start + t.off ∧
          CopyInBounds σ₁ (A.start + s.block.off) p s.block.size t ∧
          Holds σ' h' ∧
          ∀ c, c.alloc = true → (c ∈ h'.blocks ↔ c = t ∨ c ∈ h.blocks ∧ c ≠ s.block) := by
  have hint : intMax = 2147483647 := rfl
  have hrange := r.2
  have hsize : r.1 ≤ 2 ^ 32 - 16 := by omega
  have hclosed : ¬ Open h s := by
    obtain ⟨y, hy, hyal⟩ := hnext
    intro hopen
    rw [hopen y hy] at hyal
    cases hyal
  have hmoves : mmRealloc (A.start + s.block.off) r.1 σ =
      relocate (A.start + s.block.off) r.1 s.block.size σ := by
    rw [mmRealloc_apply hr r.2.1 hsize, if_neg (Nat.not_le.mpr hlarge), if_neg hclosed]
  have hret := mmMalloc_ensures hr r.2.1 hsize
  refine ⟨hmoves, ?_⟩
  cases hm : h.malloc (need r.1) (need_ok r.1).1 with
  | none =>
    rw [hm] at hret
    obtain ⟨q, σ', hret, hq, -⟩ := hret
    exact absurd ((hmalloc.unique hret).1.trans hq) hp
  | some res =>
    obtain ⟨t, h₁⟩ := res
    obtain ⟨σ₁', σ₂, σ', h', hmoved⟩ := exists_relocated hr hal r.2.1 hsize hlarge hm
    obtain ⟨rfl, rfl⟩ := hmalloc.unique hmoved.malloc
    refine ⟨t, h₁, h', σ₂, σ', hmoved.copy, hmoved.free, ?_, hmoved.holds, hmoved.served.mem,
      hmoved.served.alloc, rfl, hmoved.copyInBounds hal hlarge, hmoved.resized.holds,
      hmoved.resized.blocks⟩
    unfold Returns
    rw [hmoves]
    exact hmoved.returns

/-- The first block of two moves behind the second one. -/
theorem paired_relocates : ∃ (t : Block) (σ₁ σ' : Machine .low Statics),
    Returns (mmMalloc 50) paired.machine 4176 σ₁ ∧
      CopyInBounds σ₁ 4112 4176 32 t ∧ Returns (mmRealloc 4112 50) paired.machine 4176 σ' := by
  obtain ⟨h, hs, hblocks⟩ := paired_blocks
  let s : Spot h.blocks :=
    ⟨[], ⟨16, 32, true⟩, [⟨48, 32, true⟩, ⟨80, 4032, false⟩], hblocks.symm⟩
  have hsize : s.block.size = 32 := rfl
  have hlarge : s.block.size < need 50 := by
    rw [hsize]
    decide
  have hmalloc : result (mmMalloc 50) paired.machine = some 4176 := by decide +kernel
  obtain ⟨-, t, -, -, -, σ', -, -, hret, -, -, -, -, hcopy, -⟩ :=
    mmRealloc_relocates hs.holds s rfl ⟨_, rfl, rfl⟩ ⟨50, by decide⟩ hlarge
      (.of_result hmalloc) (by decide)
  exact ⟨t, _, σ', .of_result hmalloc, hcopy, hret⟩

end CToys.Malloc.Segregated
