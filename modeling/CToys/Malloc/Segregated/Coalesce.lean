import CToys.Malloc.MergeTags
import CToys.Malloc.Segregated.Bins

/-!
# Coalescing

`coalesce` takes a free block that is in no list, merges it with its free neighbours and
files the result.  Its four cases write different words through different macros, but
each leaves the memory with the tags of the merged block, so one specification covers
them: `coalesce_ensures`.

The bins follow the blocks: the neighbours leave theirs, the merged block enters its own
(`filed_merge`).
-/

namespace CToys.Malloc.Segregated

variable {A : Arena}

/-- Take all blocks of a list out of their bins. -/
def deleteBins (bins : Nat → List Block) (l : List Block) : Nat → List Block :=
  l.foldl deleteBin bins

/-- The bins after `b` between `pre` and `post` became free. -/
def mergeBins (pre : List Block) (b : Block) (post : List Block)
    (bins : Nat → List Block) : Nat → List Block :=
  insertBin (deleteBins bins (freeBefore pre ++ freeBehind post)) (merged pre b post)

/-! ## The bins stay filed -/

theorem Filed.deleteAll {bs : List Block} {bins : Nat → List Block} (h : Filed bs bins)
    (l : List Block) {bs' : List Block}
    (hbs : ∀ c, c.alloc = false → (c ∈ bs' ↔ c ∈ bs ∧ c ∉ l)) :
    Filed bs' (deleteBins bins l) := by
  induction l generalizing bs bins with
  | nil => exact h.congr fun c hc => by simpa using hbs c hc
  | cons x l ih =>
    have hx : Filed (bs.filter (· ≠ x)) (deleteBin bins x) :=
      h.delete fun c _ => by simp [and_comm]
    refine ih hx fun c hc => ?_
    rw [hbs c hc]
    simp only [List.mem_filter, List.mem_cons, not_or, decide_eq_true_eq, and_assoc, ne_eq]

section

variable {pre post bs : List Block} {b : Block} {e : Nat} {bins : Nat → List Block}

theorem filed_deleteBins (h : Filed (pre ++ post) bins) (hs : Shape (pre ++ b :: post) e) :
    Filed (restBefore pre ++ restBehind post)
      (deleteBins bins (freeBefore pre ++ freeBehind post)) := by
  refine h.deleteAll _ fun c hc => ?_
  have hm := mem_merge_of_free (c := c) hs
  rw [mem_merge] at hm
  have hne : c ∈ pre ++ post → c ≠ merged pre b post := by
    rintro hc rfl
    have hcov := merged_covers hs
    have := hs.others hc
    have := hs.bounds (b := b) (by simp)
    omega
  constructor
  · intro hrest
    have hc : c ∈ pre ++ post := mem_sides.mpr (.inl hrest)
    exact (hm.mp (.inr hrest)).resolve_left (hne hc)
  · rintro ⟨hc, hgone⟩
    exact (hm.mpr (.inr ⟨hc, hgone⟩)).resolve_left (hne hc)

/-- The merged block is filed along with the blocks that were not merged. -/
theorem filed_merge (h : Filed (pre ++ post) bins) (hs : Shape (pre ++ b :: post) e) :
    Filed (merge pre b post) (mergeBins pre b post bins) := by
  refine (filed_deleteBins h hs).insert merged_alloc ?_ ?_
  · intro hm
    have hcov := merged_covers hs
    have hsides : merged pre b post ∈ pre ++ post := mem_sides.mpr (.inl hm)
    have := hs.others hsides
    have := hs.bounds (b := b) (by simp)
    omega
  · exact fun c _ => mem_merge

end

/-! ## Rewriting tags on a represented heap -/

/-- Replace a run of blocks, none of them in a list, by another over the same bytes. -/
theorem Represents.retag {σ : Machine A Statics} {pre mid post filed : List Block}
    {e : Nat} {bins : Nat → List Block} (hr : Represents σ (pre ++ mid ++ post) e bins)
    (hs : Shape (pre ++ mid ++ post) e) (hf : Filed filed bins) (hsub : filed ⊆ pre ++ post)
    (mid' : List Block)
    (ht : ∀ c d, Tiles Block.off Block.stop c mid d → Tiles Block.off Block.stop c mid' d)
    (hsize : ∀ b ∈ mid', 8 ∣ b.size ∧ 16 ≤ b.size) :
    Represents (σ.withStorage (tagAll σ.storage mid')) (pre ++ mid' ++ post) e bins ∧
      σ.storage.AgreeOn (tagAll σ.storage mid') (InUse (pre ++ post)) := by
  obtain ⟨htag, lo, hi, hpre, hpost, hagree⟩ := hr.tagged.retag hs mid' ht hsize
  refine ⟨⟨hr.brk, hr.listp, htag, hr.listed.congr fun i hilt q hq => ?_⟩,
    hagree.mono fun a => inUse_outside hpre hpost⟩
  -- the nodes of the lists are blocks outside the run
  obtain ⟨b, hb, rfl⟩ := List.mem_map.mp hq
  have hbin := hsub ((hf.mem i hilt b).mp hb).1
  have hsz := hs.size b (by rcases List.mem_append.mp hbin with h | h <;> simp [h])
  have hout : b.off + b.size ≤ lo ∨ hi ≤ b.off := by
    rcases List.mem_append.mp hbin with hbin | hbin
    · exact .inl (hpre.bounds hbin).2.2
    · exact .inr (hpost.bounds hbin).1
  have hoff : 16 ≤ b.off := (hs.bounds (b := b) (by
    rcases List.mem_append.mp hbin with h | h <;> simp [h])).1
  constructor
  · exact hagree.word fun a _ _ => by omega
  · exact hagree.word fun a _ _ => by omega

/-! ## The four cases -/

section

variable {σ : Machine A Statics} {pre post : List Block} {b : Block} {e : Nat}
  {bins : Nat → List Block}

/-- The end of every case: the merged block has its tags and is filed. -/
private theorem file_merged {σ₀ : Machine A Statics}
    (hr : Represents σ₀ (pre ++ b :: post) e
      (deleteBins bins (freeBefore pre ++ freeBehind post)))
    (hs : Shape (pre ++ b :: post) e) (hf : Filed (pre ++ post) bins) (hal : b.alloc = false)
    (hagree : σ.storage.AgreeOn σ₀.storage (InUse (pre ++ b :: post))) :
    Ensures (do
      insertNode (A.start + (merged pre b post).off) (merged pre b post).size
      return A.start + (merged pre b post).off)
      (σ₀.withStorage (tagBlock σ₀.storage (merged pre b post))) fun p σ' =>
        p = A.start + (merged pre b post).off ∧
          Represents σ' (merge pre b post) e (mergeBins pre b post bins) ∧
          σ.storage.AgreeOn σ'.storage (InUse (pre ++ b :: post)) := by
  have hfd := filed_deleteBins hf hs
  have hs' := hs
  rw [← split_mergeRun] at hr hs'
  obtain ⟨hr₁, hag₁⟩ := hr.retag hs' hfd (fun _ h => h) [merged pre b post]
    (fun _ _ => tiles_fuse mergeRun_ne_nil) (merged_sizes hs)
  rw [List.append_assoc, List.singleton_append] at hr₁
  have hnot : merged pre b post ∉ restBefore pre ++ restBehind post := by
    intro hm
    have hcov := merged_covers hs
    have := hs.others (mem_sides.mpr (.inl hm))
    have := hs.bounds (b := b) (by simp)
    omega
  refine (insertNode_ensures hr₁ hs.merge hfd ?_ ?_ merged_alloc hnot).bind ?_
  · intro c hc
    rcases List.mem_append.mp hc with hc | hc <;> simp [hc]
  · simp
  · intro _ σ' hσ
    obtain ⟨hr₂, hag₂⟩ := hσ
    refine .pure ⟨rfl, hr₂, hagree.trans (Memory.AgreeOn.trans (hag₁.mono ?_) (hag₂.mono ?_))⟩
    · intro a ha
      exact ((inUse_merge hal).mpr ha).sides merged_alloc
    · intro a ha
      exact not_freeByte_of_inUse hs.merge ((inUse_merge hal).mpr ha)

/-- `delete_node` on a neighbour of the block being coalesced. -/
private theorem delete_neighbour {c : Block} {filed : List Block} {σ₀ : Machine A Statics}
    {bins₀ : Nat → List Block} (hr : Represents σ₀ (pre ++ b :: post) e bins₀)
    (hs : Shape (pre ++ b :: post) e) (hf : Filed filed bins₀)
    (hsub : filed ⊆ pre ++ b :: post)
    (hagree : σ.storage.AgreeOn σ₀.storage (InUse (pre ++ b :: post)))
    (hc : c ∈ filed) (hcal : c.alloc = false) :
    Ensures (deleteNode (A.start + c.off)) σ₀ fun _ σ' =>
      Represents σ' (pre ++ b :: post) e (deleteBin bins₀ c) ∧
        σ.storage.AgreeOn σ'.storage (InUse (pre ++ b :: post)) :=
  (deleteNode_ensures hr hs hf hsub hc hcal).mono fun _ _ ⟨h1, h2⟩ =>
    ⟨h1, hagree.trans (h2.mono fun _ => not_freeByte_of_inUse hs)⟩

/-- `coalesce` merges a free block that is in no list with its free neighbours. -/
theorem coalesce_ensures (hr : Represents σ (pre ++ b :: post) e bins)
    (hs : Shape (pre ++ b :: post) e) (hf : Filed (pre ++ post) bins)
    (hal : b.alloc = false) :
    Ensures (coalesce (A.start + b.off)) σ fun p σ' =>
      p = A.start + (merged pre b post).off ∧
        Represents σ' (merge pre b post) e (mergeBins pre b post bins) ∧
        σ.storage.AgreeOn σ'.storage (InUse (pre ++ b :: post)) := by
  have hsub : pre ++ post ⊆ pre ++ b :: post := fun c hc => by
    rcases List.mem_append.mp hc with hc | hc <;> simp [hc]
  have ht := hr.tagged
  have hrefl := Memory.AgreeOn.refl σ.storage (InUse (pre ++ b :: post))
  unfold coalesce
  refine (prevBlkp_block ht hs).step ((getAlloc_prev ht hs).step ?_)
  refine (nextBlkp_block ht hs).step ((getAlloc_next ht hs).step ?_)
  refine (getSize_block ht hs).step ?_
  simp only [toNat_ne_zero, toNat_eq_zero]
  cases hp : (prevOf pre).alloc <;> cases hn : (nextOf post e).alloc
  case true.true =>
    -- nothing to merge: the block is filed as it is, with the tags it has
    obtain ⟨hmerged, hblocks⟩ := merged_eq_self hal hp hn
    have hbins : mergeBins pre b post bins = insertBin bins b := by
      simp [mergeBins, deleteBins, freeBefore_eq_nil hp, freeBehind_eq_nil hn, hmerged]
    rw [hmerged, hblocks, hbins, if_pos ⟨rfl, rfl⟩]
    refine (insertNode_ensures hr hs hf hsub (by simp) hal hs.notMem).bind ?_
    intro _ σ' hσ
    obtain ⟨hr', hag⟩ := hσ
    exact .pure ⟨rfl, hr', hag.mono fun _ => not_freeByte_of_inUse hs⟩
  case true.false =>
    have hfree := (freeBehind_eq_singleton hn).1
    have hnext : nextOf post e ∈ pre ++ post := mem_sides.mpr (.inr (by simp [hfree]))
    have hdel : deleteBins bins (freeBefore pre ++ freeBehind post)
        = deleteBin bins (nextOf post e) := by
      simp [deleteBins, freeBefore_eq_nil hp, hfree]
    have hoff : (merged pre b post).off = b.off := by rw [merged_off, hp, if_pos rfl]
    rw [if_neg (by simp), if_pos ⟨rfl, rfl⟩]
    refine (nextBlkp_block ht hs).step ((getSize_next ht hs).step ?_)
    refine (nextBlkp_block ht hs).step ?_
    refine (delete_neighbour hr hs hf hsub hrefl hnext hn).bind ?_
    intro _ σ₁ hσ
    obtain ⟨hr₁, hag₁⟩ := hσ
    simp only [add32_behind hs hp hn]
    refine putMerged_behind_step hs hp ?_
    rw [← hoff]
    exact file_merged (hdel ▸ hr₁) hs hf hal hag₁
  case false.true =>
    have hfree := (freeBefore_eq_singleton hp).1
    have hprev : prevOf pre ∈ pre ++ post := mem_sides.mpr (.inr (by simp [hfree]))
    have hdel : deleteBins bins (freeBefore pre ++ freeBehind post)
        = deleteBin bins (prevOf pre) := by
      simp [deleteBins, hfree, freeBehind_eq_nil hn]
    rw [if_neg (by simp), if_neg (by simp), if_pos ⟨rfl, rfl⟩]
    refine (prevBlkp_block ht hs).step ((getSize_prev ht hs).step ?_)
    refine (prevBlkp_block ht hs).step ?_
    refine (delete_neighbour hr hs hf hsub hrefl hprev hp).bind ?_
    intro _ σ₁ hσ
    obtain ⟨hr₁, hag₁⟩ := hσ
    simp only [add32_before hs hp hn]
    exact putMerged_before_step hr₁.tagged hs hp hn (file_merged (hdel ▸ hr₁) hs hf hal hag₁)
  case false.false =>
    have hbefore := (freeBefore_eq_singleton hp).1
    have hbehind := (freeBehind_eq_singleton hn).1
    have hprev : prevOf pre ∈ pre ++ post := mem_sides.mpr (.inr (by simp [hbefore]))
    have hnext : nextOf post e ∈ pre ++ post := mem_sides.mpr (.inr (by simp [hbehind]))
    have hne : nextOf post e ≠ prevOf pre := fun h => by
      have hlt := hs.bounds (b := b) (by simp)
      have hpos := hs.prev
      have hnpos := hs.next
      rw [h] at hnpos
      omega
    have hdel : deleteBins bins (freeBefore pre ++ freeBehind post)
        = deleteBin (deleteBin bins (prevOf pre)) (nextOf post e) := by
      simp [deleteBins, hbefore, hbehind]
    have hf₁ : Filed ((pre ++ post).filter (· ≠ prevOf pre)) (deleteBin bins (prevOf pre)) :=
      hf.delete fun c _ => by simp [← or_and_right, and_comm]
    rw [if_neg (by simp), if_neg (by simp), if_neg (by simp)]
    refine (prevBlkp_block ht hs).step ((getSize_prev ht hs).step ?_)
    refine (nextBlkp_block ht hs).step ((getSize_next ht hs).step ?_)
    refine (prevBlkp_block ht hs).step ?_
    refine (delete_neighbour hr hs hf hsub hrefl hprev hp).bind ?_
    intro _ σ₁ hσ
    obtain ⟨hr₁, hag₁⟩ := hσ
    refine (nextBlkp_block hr₁.tagged hs).step ?_
    refine (delete_neighbour hr₁ hs hf₁ (fun c hc => hsub (List.mem_of_mem_filter hc)) hag₁
      (List.mem_filter.mpr ⟨hnext, by simpa using hne⟩) hn).bind ?_
    intro _ σ₂ hσ
    obtain ⟨hr₂, hag₂⟩ := hσ
    simp only [add32_both hs hp hn]
    exact putMerged_both_step hr₂.tagged hs hp hn (file_merged (hdel ▸ hr₂) hs hf hal hag₂)

end

end CToys.Malloc.Segregated
