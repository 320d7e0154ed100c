import CToys.Malloc.Segregated.Realloc

/-!
# Growing the last block

If nothing in use is behind a block, `mm_realloc` enlarges it where it is.  The block behind
is taken in if there is one, and the heap is extended by what is missing.

The extension passes through the free lists: `extend_heap` files it, merged with the free
block behind, and `delete_node` takes it out again.  What remains is that the free block
behind is in no list any more (`GrownAtEnd.mem_bins`).
-/

namespace CToys.Malloc.Segregated

variable {A : Arena} {σ : Machine A Statics} {h : Heap} {s : Spot h.blocks}

/-- The block is the last one, or the last but for a free one. -/
def AtEnd {bs : List Block} (s : Spot bs) : Prop :=
  s.post = [] ∨ ∃ y, s.post = [y] ∧ y.alloc = false

/-- The bytes by which the heap is extended for a block of `n` bytes, if it is at all. -/
def endExtension (h : Heap) (s : Spot h.blocks) (n : Nat) : Nat :=
  if s.block.size + nextSize h s ≥ n then 0 else reallocExtension h s n

theorem AtEnd.spec (hend : AtEnd s) : Open h s ∧ s.post.length ≤ 1 := by
  rcases hend with hpost | ⟨y, hpost, hy⟩
  · simp [Open, hpost]
  · simp [Open, hpost, hy]

/-- The free block behind is in no list, and the others are where they were. -/
theorem GrownAtEnd.mem_bins {m : Nat} {σ' : Machine A Statics} {h' : Heap}
    (hgrown : GrownAtEnd s m σ σ' h') (hal : s.block.alloc = true) {i : Nat}
    (hi : i < listMax) (c : Block) : c ∈ h'.bins i ↔ c ∈ h.bins i ∧ c ∉ s.post := by
  have hsplit : c ∈ h.blocks ↔ c ∈ s.pre ++ s.block :: s.post := by rw [s.split]
  rw [h'.filed.mem i hi, h.filed.mem i hi, hgrown.blocks, hsplit]
  have hnd := (h.shape_at s).nodup
  have hpre : c ∈ s.pre → c ∉ s.post := fun h1 h2 =>
    (List.nodup_append.mp hnd).2.2 c h1 c (List.mem_cons_of_mem _ h2) rfl
  have hfree {b : Block} (hb : b.alloc = true) (hc : c.alloc = false) : c ≠ b := by
    rintro rfl
    rw [hb] at hc
    cases hc
  simp only [List.mem_append, List.mem_cons, List.not_mem_nil, or_false]
  constructor
  · rintro ⟨hc, hcal, hci⟩
    have hmem := hc.resolve_right (hfree rfl hcal)
    exact ⟨⟨.inl hmem, hcal, hci⟩, hpre hmem⟩
  · rintro ⟨⟨hc, hcal, hci⟩, hpost⟩
    have hmem := hc.resolve_right fun h => h.elim (hfree hal hcal) hpost
    exact ⟨.inl hmem, hcal, hci⟩

/-- Taking the free block behind in extends the heap by nothing. -/
theorem absorbNext_atEnd {y : Block} (hr : Holds σ h) (hal : s.block.alloc = true)
    (hpost : s.post = [y]) (hy : y.alloc = false) :
    Ensures (absorbNext (A.start + s.block.off) (s.block.size + nextSize h s)) σ fun p σ' =>
      p = A.start + s.block.off ∧ ∃ h', GrownAtEnd s 0 σ σ' h' := by
  have hnext : nextSize h s = y.size := by simp [nextSize, hpost, nextOf]
  rw [hnext]
  refine (absorbNext_ensures hr hal hpost hy).mono ?_
  rintro p σ' ⟨rfl, hr', hag⟩
  refine ⟨rfl, _, hr', rfl, ?_, hag⟩
  simp only [Heap.absorb, Heap.joined, hnext, List.append_nil, Nat.add_zero]

/-- `mm_realloc` of a block at the end that is too small. -/
private theorem mmRealloc_end_cases (hr : Holds σ h) (hal : s.block.alloc = true)
    (hend : AtEnd s) {size : Nat} (hpos : 0 < size) (hsize : size ≤ 2 ^ 32 - 16)
    (hlarge : s.block.size < need size) :
    (maxHeap < h.brk + endExtension h s (need size) ∧
      Returns (mmRealloc (A.start + s.block.off) size) σ 0 σ) ∨
    (h.brk + endExtension h s (need size) ≤ maxHeap ∧
      Ensures (mmRealloc (A.start + s.block.off) size) σ fun p σ' =>
        p = A.start + s.block.off ∧ ∃ h', GrownAtEnd s (endExtension h s (need size)) σ σ' h') := by
  obtain ⟨-, hlt⟩ := newSizeOf_eq hsize
  obtain ⟨hn, -⟩ := need_ok size
  obtain ⟨hopen, hlast⟩ := hend.spec
  unfold Ensures Returns
  rw [mmRealloc_apply hr hpos hsize, if_neg (Nat.not_le.mpr hlarge), if_pos hopen]
  unfold endExtension
  by_cases hgrow : s.block.size + nextSize h s < need size
  · rw [if_pos hgrow, if_neg (Nat.not_le.mpr hgrow)]
    rcases Nat.lt_or_ge maxHeap (h.brk + reallocExtension h s (need size)) with hfull | hroom
    · exact .inl ⟨hfull, extend_refused hr hn.1 hlt hfull⟩
    · obtain ⟨-, hm⟩ := reallocExtension_ok (s := s) hr hn.1
      exact .inr ⟨hroom, extendNext_ensures hr hal hopen hlast hm hroom⟩
  · rw [if_neg hgrow, if_pos (Nat.not_lt.mp hgrow)]
    refine .inr ⟨h.shape.le, ?_⟩
    rcases hend with hpost | ⟨y, hpost, hy⟩
    · -- the block alone is too small
      simp only [nextSize, hpost, nextOf, List.head?_nil, Option.getD_none,
        Block.epilogue] at hgrow
      omega
    · exact absorbNext_atEnd hr hal hpost hy

/-- In every state in which the machine holds a heap, `mm_realloc` enlarges a block at the end
in place.  It returns `NULL` and changes nothing exactly if the break cannot move by the
extension.  Otherwise the break moves by it, the block reaches to the new end, and all other
blocks, their bytes and the other members of the lists stay. -/
theorem mmRealloc_atEnd (hr : Holds σ h) (s : Spot h.blocks) (hal : s.block.alloc = true)
    (hend : AtEnd s) (r : Request) (hlarge : s.block.size < need r.1) :
    (Returns (mmRealloc (A.start + s.block.off) r.1) σ 0 σ ↔
      maxHeap < h.brk + endExtension h s (need r.1)) ∧
    (h.brk + endExtension h s (need r.1) ≤ maxHeap → ∃ σ' h',
      Returns (mmRealloc (A.start + s.block.off) r.1) σ (A.start + s.block.off) σ' ∧
        σ'.memBrk = σ.memBrk + endExtension h s (need r.1) ∧
        GrownAtEnd s (endExtension h s (need r.1)) σ σ' h' ∧
        ∀ i < listMax, ∀ c, c ∈ h'.bins i ↔ c ∈ h.bins i ∧ c ∉ s.post) := by
  have hA := A.pos
  have hint : intMax = 2147483647 := rfl
  have hrange := r.2
  rcases mmRealloc_end_cases hr hal hend r.2.1 (by omega) hlarge with
    ⟨hfull, hret⟩ | ⟨hroom, p, σ', hret, rfl, h', hgrown⟩
  · exact ⟨iff_of_true hret hfull, fun hroom => absurd hroom (Nat.not_le.mpr hfull)⟩
  · refine ⟨iff_of_false (fun hnull => ?_) (Nat.not_lt.mpr hroom), fun _ => ?_⟩
    · have := (hret.unique hnull).1
      omega
    · refine ⟨σ', h', hret, ?_, hgrown, fun i hi c => hgrown.mem_bins hal hi c⟩
      rw [hgrown.holds.brk, hr.brk, hgrown.brk, Nat.add_assoc]

/-- A block of 32 bytes before the rest of the first chunk is enlarged to two chunks. -/
theorem single_atEnd : ∃ σ' h', Returns (mmRealloc 4112 5000) single.machine 4112 σ' ∧
    σ'.memBrk = single.machine.memBrk + 4096 ∧ Holds σ' h' ∧
      h'.blocks = [⟨16, 8192, true⟩] := by
  obtain ⟨h, hs, hblocks⟩ := single_blocks
  let s : Spot h.blocks := ⟨[], ⟨16, 32, true⟩, [⟨48, 4064, false⟩], hblocks.symm⟩
  have hbrk : h.brk = 4112 := by
    have := h.shape.tiles
    rw [hblocks] at this
    exact this.2.2.2.2.symm
  have hsize : s.block.size = 32 := rfl
  have hnext : nextSize h s = 4064 := rfl
  have hext : endExtension h s (need 5000) = 4096 := by
    unfold endExtension reallocExtension
    rw [hsize, hnext]
    decide
  have hlarge : s.block.size < need 5000 := by
    rw [hsize]
    decide
  have hroom : h.brk + endExtension h s (need 5000) ≤ maxHeap := by
    rw [hext, hbrk]
    decide
  obtain ⟨-, hgrow⟩ := mmRealloc_atEnd hs.holds s rfl (.inr ⟨_, rfl, rfl⟩) ⟨5000, by decide⟩ hlarge
  obtain ⟨σ', h', hret, hbrk', hgrown, -⟩ := hgrow hroom
  rw [hext] at hbrk' hgrown
  have hblocks' := hgrown.blocks
  rw [hsize, hnext] at hblocks'
  exact ⟨σ', h', hret, hbrk', hgrown.holds, hblocks'⟩

end CToys.Malloc.Segregated
