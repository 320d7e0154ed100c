import CToys.Malloc.Merge

/-!
# Writing the tags of a merged block

The cases of `coalesce` compute the size of the merged block in different orders and find
its header and its footer by different macros, from tags that are partly overwritten on
the way.  Each ends with the header and the footer of the merged block in place.  What
they compute and write does not depend on the free lists or the rover, so both allocators
share it.
-/

namespace CToys.Malloc

section

variable {pre post : List Block} {b : Block} {e : Nat} (hs : Shape (pre ++ b :: post) e)
include hs

theorem merged_inHeap : (merged pre b post).InHeap := hs.merge.inHeap (by simp [merge])

theorem merged_sizes : ∀ c ∈ [merged pre b post], 8 ∣ c.size ∧ 16 ≤ c.size :=
  List.forall_mem_singleton.mpr ⟨(merged_inHeap hs).dvd, (merged_inHeap hs).size⟩

/-- `size += GET_SIZE(HDRP(NEXT_BLKP(bp)))`. -/
theorem add32_behind (hp : (prevOf pre).alloc = true) (hn : (nextOf post e).alloc = false) :
    add32 b.size (nextOf post e).size = (merged pre b post).size := by
  have hmax := maxHeap_eq
  have hsize := merged_size pre b post e
  have hhigh := (merged_inHeap hs).high
  simp only [hp, hn, if_true, Bool.false_eq_true, if_false] at hsize
  rw [add32_of_lt (by omega)]
  omega

/-- `size += GET_SIZE(HDRP(PREV_BLKP(bp)))`. -/
theorem add32_before (hp : (prevOf pre).alloc = false) (hn : (nextOf post e).alloc = true) :
    add32 b.size (prevOf pre).size = (merged pre b post).size := by
  have hmax := maxHeap_eq
  have hsize := merged_size pre b post e
  have hhigh := (merged_inHeap hs).high
  simp only [hp, hn, if_true, Bool.false_eq_true, if_false] at hsize
  rw [add32_of_lt (by omega)]
  omega

/-- `size + GET_SIZE(HDRP(PREV_BLKP(bp))) + GET_SIZE(HDRP(NEXT_BLKP(bp)))`. -/
theorem add32_both (hp : (prevOf pre).alloc = false) (hn : (nextOf post e).alloc = false) :
    add32 (add32 b.size (prevOf pre).size) (nextOf post e).size = (merged pre b post).size := by
  have hmax := maxHeap_eq
  have hsize := merged_size pre b post e
  have hhigh := (merged_inHeap hs).high
  simp only [hp, hn, Bool.false_eq_true, if_false] at hsize
  rw [add32_of_lt (a := b.size) (by omega), add32_of_lt (by omega)]
  omega

/-- The pointer to the merged block, from the footer before `bp`. -/
theorem merged_ptr (hp : (prevOf pre).alloc = false) :
    b.off - (prevOf pre).size = (merged pre b post).off := by
  have hprev := hs.prev
  rw [merged_off, hp, if_neg (by simp)]
  omega

end

/-- A block stays as it is where no neighbour is free. -/
theorem merged_eq_self {pre post : List Block} {b : Block} {e : Nat} (hal : b.alloc = false)
    (hp : (prevOf pre).alloc = true) (hn : (nextOf post e).alloc = true) :
    merged pre b post = b ∧ merge pre b post = pre ++ b :: post := by
  obtain ⟨hbefore, hpre⟩ := freeBefore_eq_nil hp
  obtain ⟨hbehind, hpost⟩ := freeBehind_eq_nil hn
  have hmerged : merged pre b post = b := by
    cases b
    simp_all [merged, mergeRun, fuse]
  exact ⟨hmerged, by rw [merge, hmerged, hpre, hpost]⟩

/-! ## Running the writes -/

section

variable {A : Arena} {ρ β : Type} {σ : Machine A ρ} {pre post : List Block} {b : Block}
  {e : Nat} {f : Unit → Prog A ρ β} {g : Nat → Prog A ρ β} {Q : β → Machine A ρ → Prop}

/-- The writes where only the next block is free. -/
theorem putMerged_behind_step (hs : Shape (pre ++ b :: post) e) (hp : (prevOf pre).alloc = true)
    (hf : Ensures (f ()) (σ.withStorage (tagBlock σ.storage (merged pre b post))) Q) :
    Ensures (do
      mmPut (hdrp (A.start + b.off)) (pack (merged pre b post).size 0)
      let ftr ← ftrp (A.start + b.off)
      mmPut ftr (pack (merged pre b post).size 0) >>= f) σ Q := by
  have hoff : (merged pre b post).off = b.off := by rw [merged_off, hp, if_pos rfl]
  rw [← hoff]
  exact putTags_step rfl (merged_inHeap hs) hf

variable (ht : Tagged σ.storage (pre ++ b :: post) e) (hs : Shape (pre ++ b :: post) e)
include ht hs

/-- The writes where only the previous block is free. -/
theorem putMerged_before_step (hp : (prevOf pre).alloc = false)
    (hn : (nextOf post e).alloc = true)
    (hf : Ensures (g (A.start + (merged pre b post).off))
      (σ.withStorage (tagBlock σ.storage (merged pre b post))) Q) :
    Ensures (do
      let bp ← prevBlkp (A.start + b.off)
      mmPut (hdrp bp) (pack (merged pre b post).size 0)
      let ftr ← ftrp (A.start + b.off)
      mmPut ftr (pack (merged pre b post).size 0)
      let bp ← prevBlkp (A.start + b.off)
      g bp) σ Q := by
  have hb := hs.bounds (b := b) (by simp)
  have hprev := hs.prev
  have hsize := merged_size pre b post e
  simp only [hp, hn, if_true, Bool.false_eq_true, if_false] at hsize
  have hoff : (merged pre b post).off = (prevOf pre).off := by rw [merged_off, hp]; rfl
  have hftr : b.off + b.size - 8 = (merged pre b post).off + (merged pre b post).size - 8 := by
    omega
  refine (prevBlkp_block ht hs).step ?_
  rw [hdrp_ptr (by omega) (by omega)]
  refine (mmPut_returns (by omega)).step ?_
  -- the header of `bp` and the footer before it still hold the old tags
  have hhdr := (ht.header b (by simp)).setWord_of_disjoint
    (q := (prevOf pre).off - 4) (v := pack (merged pre b post).size 0) (by omega)
  have hold := (ht.prev hs).2.setWord_of_disjoint
    (q := (prevOf pre).off - 4) (v := pack (merged pre b post).size 0) (by omega)
  refine (ftrp_returns (by omega) (by omega) (by omega) hhdr).step ?_
  refine (mmPut_returns (by omega)).step ?_
  refine (prevBlkp_returns (by omega) (by omega) (by omega)
    (hold.setWord_of_disjoint (q := b.off + b.size - 8) (by omega))).step ?_
  rw [merged_ptr hs hp, hftr, ← hoff]
  exact hf

/-- The writes where both neighbours are free. -/
theorem putMerged_both_step (hp : (prevOf pre).alloc = false)
    (hn : (nextOf post e).alloc = false)
    (hf : Ensures (g (A.start + (merged pre b post).off))
      (σ.withStorage (tagBlock σ.storage (merged pre b post))) Q) :
    Ensures (do
      let bp ← prevBlkp (A.start + b.off)
      mmPut (hdrp bp) (pack (merged pre b post).size 0)
      let bp ← nextBlkp (A.start + b.off)
      let ftr ← ftrp bp
      mmPut ftr (pack (merged pre b post).size 0)
      let bp ← prevBlkp (A.start + b.off)
      g bp) σ Q := by
  have hb := hs.bounds (b := b) (by simp)
  have hprev := hs.prev
  have hnext := hs.next
  have hnsize := hs.bounds (mergeRun_sub (c := nextOf post e)
    (by simp [mergeRun, (freeBehind_eq_singleton hn).1]))
  have hsize := merged_size pre b post e
  simp only [hp, hn, Bool.false_eq_true, if_false] at hsize
  have hoff : (merged pre b post).off = (prevOf pre).off := by rw [merged_off, hp]; rfl
  have hftr : (nextOf post e).off + (nextOf post e).size - 8
      = (merged pre b post).off + (merged pre b post).size - 8 := by omega
  refine (prevBlkp_block ht hs).step ?_
  rw [hdrp_ptr (by omega) (by omega)]
  refine (mmPut_returns (by omega)).step ?_
  -- so do the headers of `bp` and of the next block, and the footer before
  have hhdr := (ht.header b (by simp)).setWord_of_disjoint
    (q := (prevOf pre).off - 4) (v := pack (merged pre b post).size 0) (by omega)
  have hold := (ht.prev hs).2.setWord_of_disjoint
    (q := (prevOf pre).off - 4) (v := pack (merged pre b post).size 0) (by omega)
  have hntag := ht.next hs
  rw [← hnext.1] at hntag
  have hnhdr := hntag.setWord_of_disjoint
    (q := (prevOf pre).off - 4) (v := pack (merged pre b post).size 0) (by omega)
  refine (nextBlkp_returns (by omega) (by omega) hhdr).step ?_
  rw [← hnext.1]
  refine (ftrp_returns (by omega) (by omega) (by omega) hnhdr).step ?_
  refine (mmPut_returns (by omega)).step ?_
  refine (prevBlkp_returns (by omega) (by omega) (by omega) (hold.setWord_of_disjoint
    (q := (nextOf post e).off + (nextOf post e).size - 8) (by omega))).step ?_
  rw [merged_ptr hs hp, hftr, ← hoff]
  exact hf

end

end CToys.Malloc
