import CToys.Malloc.Implicit.Program
import CToys.Malloc.MergeTags

/-!
# Coalescing without lists

`coalesce` merges a free block with its free neighbours, as in the segregated allocator,
and then looks after the rover.  `Represents σ bs e o` says that the machine holds the
blocks `bs` up to the break `e`, with the rover at offset `o`, and `AtBlock bs o` that the
rover is where it may be: at the prologue or at a block.

When a run of blocks is merged the rover may be at any of them.  `follow` moves it to the
start of the merged block exactly if it would be inside (`AtBlock.merge`).  The first case
of `coalesce` returns before it looks at the rover, which is right since nothing was
merged.
-/

namespace CToys.Malloc.Implicit

variable {A : Arena}

/-- The machine holds these blocks and this rover. -/
structure Represents (σ : Machine A Statics) (bs : List Block) (e o : Nat) : Prop where
  brk : σ.memBrk = A.start + e
  listp : σ.statics.heapListp = A.start + 8
  prevBp : σ.statics.prevBp = A.start + o
  tagged : Tagged σ.storage bs e

/-- The prologue or a block is at offset `o`. -/
def AtBlock (bs : List Block) (o : Nat) : Prop := ∃ c ∈ Block.prologue :: bs, c.off = o

/-- Where the rover goes when the block `m` was merged. -/
def follow (m : Block) (o : Nat) : Nat := if m.off < o ∧ o < m.off + m.size then m.off else o

/-- The machine with another rover. -/
abbrev withRover (σ : Machine A Statics) (o : Nat) : Machine A Statics :=
  { σ with statics := { σ.statics with prevBp := A.start + o } }

/-! ## The rover -/

section

variable {pre post : List Block} {b : Block} {e o : Nat}

/-- The rover is not inside a block. -/
theorem AtBlock.follow_eq (h : AtBlock (pre ++ b :: post) o)
    (hs : Shape (pre ++ b :: post) e) : follow b o = o := by
  obtain ⟨c, hc, rfl⟩ := h
  have hb := hs.bounds (b := b) (by simp)
  refine if_neg fun hin => ?_
  rcases List.mem_cons.mp hc with rfl | hc
  · simp only [Block.prologue] at hin
    omega
  · have := hs.bounds hc
    rcases hs.apart hc (b := c) (c := b) (by simp) with rfl | h | h <;> omega

/-- After a merge the rover is at a block again. -/
theorem AtBlock.merge (h : AtBlock (pre ++ b :: post) o) (hs : Shape (pre ++ b :: post) e) :
    AtBlock (merge pre b post) (follow (merged pre b post) o) := by
  have hmem : merged pre b post ∈ Block.prologue :: Malloc.merge pre b post := by
    simp [Malloc.merge]
  obtain ⟨c, hc, rfl⟩ := h
  unfold follow
  split
  · exact ⟨_, hmem, rfl⟩
  · next hnot =>
    rcases List.mem_cons.mp hc with rfl | hc
    · exact ⟨_, List.mem_cons_self, rfl⟩
    · have hpos := (hs.bounds hc).2.2.2.1
      rw [← split_mergeRun] at hc
      simp only [List.append_assoc, List.mem_append] at hc
      rcases hc with hc | hc | hc
      · exact ⟨c, by simp [Malloc.merge, hc], rfl⟩
      · -- a block of the run is at the start of the merged block
        have hcov := merged_covers_run hs hc
        exact ⟨_, hmem, by omega⟩
      · exact ⟨c, by simp [Malloc.merge, hc], rfl⟩

end

/-! ## Rewriting tags -/

/-- Replace a run of blocks by another over the same bytes. -/
theorem Represents.retag {σ : Machine A Statics} {pre mid post : List Block} {e o : Nat}
    (hr : Represents σ (pre ++ mid ++ post) e o) (hs : Shape (pre ++ mid ++ post) e)
    (mid' : List Block)
    (ht : ∀ c d, Tiles Block.off Block.stop c mid d → Tiles Block.off Block.stop c mid' d)
    (hsize : ∀ b ∈ mid', 8 ∣ b.size ∧ 16 ≤ b.size) :
    Represents (σ.withStorage (tagAll σ.storage mid')) (pre ++ mid' ++ post) e o ∧
      σ.storage.AgreeOn (tagAll σ.storage mid') (InUse (pre ++ post)) := by
  obtain ⟨htag, lo, hi, hpre, hpost, hagree⟩ := hr.tagged.retag hs mid' ht hsize
  exact ⟨⟨hr.brk, hr.listp, hr.prevBp, htag⟩, hagree.mono fun a => inUse_outside hpre hpost⟩

section

variable {σ : Machine A Statics} {pre post : List Block} {b : Block} {e o : Nat}

/-- The end of `coalesce` moves the rover. -/
theorem moveRover_returns (hr : Represents σ (pre ++ b :: post) e o)
    (hs : Shape (pre ++ b :: post) e) :
    Returns (moveRover (A.start + b.off)) σ (A.start + b.off) (withRover σ (follow b o)) := by
  have hnext := nextBlkp_block hr.tagged hs
  rw [hs.next.1] at hnext
  have hget : Returns getPrevBp σ (A.start + o) σ := by
    rw [← hr.prevBp]
    rfl
  have hsame : withRover σ o = σ := by
    rw [withRover, ← hr.prevBp]
  unfold moveRover follow
  refine hget.bind ?_
  by_cases hlow : b.off < o
  · rw [if_pos (by omega)]
    refine hnext.bind ?_
    by_cases hhigh : o < b.off + b.size
    · rw [if_pos (by omega), if_pos ⟨hlow, hhigh⟩]
      rfl
    · rw [if_neg (by omega), if_neg (by omega), hsame]
      rfl
  · rw [if_neg (by omega), if_neg (by omega), hsame]
    rfl

/-- Every case but the first ends like this: the merged block has its tags, and the rover
follows. -/
private theorem move_merged (hr : Represents σ (pre ++ b :: post) e o)
    (hs : Shape (pre ++ b :: post) e) (hal : b.alloc = false) :
    Ensures (moveRover (A.start + (merged pre b post).off))
      (σ.withStorage (tagBlock σ.storage (merged pre b post))) fun p σ' =>
        p = A.start + (merged pre b post).off ∧
          Represents σ' (merge pre b post) e (follow (merged pre b post) o) ∧
          σ.storage.AgreeOn σ'.storage (InUse (pre ++ b :: post)) := by
  have hr' := hr
  have hs' := hs
  rw [← split_mergeRun] at hr' hs'
  obtain ⟨hr₁, hag₁⟩ := hr'.retag hs' [merged pre b post]
    (fun _ _ => tiles_fuse mergeRun_ne_nil) (merged_sizes hs)
  rw [List.append_assoc, List.singleton_append] at hr₁
  refine (moveRover_returns hr₁ hs.merge).ensures ⟨rfl, ?_, hag₁.mono ?_⟩
  · exact ⟨hr₁.brk, hr₁.listp, rfl, hr₁.tagged⟩
  · intro a ha
    exact ((inUse_merge hal).mpr ha).sides merged_alloc

/-- `coalesce` merges a free block with its free neighbours. -/
theorem coalesce_ensures (hr : Represents σ (pre ++ b :: post) e o)
    (hs : Shape (pre ++ b :: post) e) (ho : AtBlock (pre ++ b :: post) o)
    (hal : b.alloc = false) :
    Ensures (coalesce (A.start + b.off)) σ fun p σ' =>
      p = A.start + (merged pre b post).off ∧
        Represents σ' (merge pre b post) e (follow (merged pre b post) o) ∧
        σ.storage.AgreeOn σ'.storage (InUse (pre ++ b :: post)) := by
  have ht := hr.tagged
  have hmove := move_merged hr hs hal
  unfold coalesce
  refine (prevBlkp_block ht hs).step ((ftrp_prev ht hs).step ?_)
  refine (getAlloc_prev_footer ht hs).step ?_
  refine (nextBlkp_block ht hs).step ((getAlloc_next ht hs).step ?_)
  refine (getSize_block ht hs).step ?_
  simp only [toNat_ne_zero, toNat_eq_zero]
  cases hp : (prevOf pre).alloc <;> cases hn : (nextOf post e).alloc
  case true.true =>
    -- nothing to merge: the block has its tags, and the rover is not inside it
    obtain ⟨hmerged, hblocks⟩ := merged_eq_self hal hp hn
    rw [if_pos ⟨rfl, rfl⟩, hmerged, hblocks, ho.follow_eq hs]
    exact .pure ⟨rfl, hr, .refl _ _⟩
  case true.false =>
    have hoff : (merged pre b post).off = b.off := by rw [merged_off, hp, if_pos rfl]
    rw [if_neg (by simp), if_pos ⟨rfl, rfl⟩]
    refine (nextBlkp_block ht hs).step ((getSize_next ht hs).step ?_)
    simp only [add32_behind hs hp hn]
    refine putMerged_behind_step hs hp ?_
    rw [← hoff]
    exact hmove
  case false.true =>
    rw [if_neg (by simp), if_neg (by simp), if_pos ⟨rfl, rfl⟩]
    refine (prevBlkp_block ht hs).step ((getSize_prev ht hs).step ?_)
    simp only [add32_before hs hp hn]
    exact putMerged_before_step ht hs hp hn hmove
  case false.false =>
    rw [if_neg (by simp), if_neg (by simp), if_neg (by simp)]
    refine (prevBlkp_block ht hs).step ((getSize_prev ht hs).step ?_)
    refine (nextBlkp_block ht hs).step ((getSize_next ht hs).step ?_)
    simp only [add32_both hs hp hn]
    exact putMerged_both_step ht hs hp hn hmove

end

end CToys.Malloc.Implicit
