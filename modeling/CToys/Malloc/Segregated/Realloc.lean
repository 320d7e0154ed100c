import CToys.Malloc.Segregated.Client

/-!
# Reallocating

`mm_realloc` has five paths.  It keeps the block, takes in the free block behind it,
extends the heap and takes in the block behind it, moves to a new block, or returns
`NULL`.  `mmRealloc_cases` says what happens in terms of the heap, and two of the paths go
wrong.

*Overrun.*  The extension is placed at the end of the heap, and the block behind is
expected to have grown by it.  This is so only if that block is the last one.  Otherwise
the new header reaches over blocks that are in use.
*Crash.*  When no new block can be had, the path that moves copies to `NULL`.
-/

namespace CToys.Malloc.Segregated

variable {A : Arena}

/-- The block behind and its size, which is 0 for the epilogue. -/
def nextSize (h : Heap) (s : Spot h.blocks) : Nat := (nextOf s.post h.brk).size

/-- The block behind is free or the epilogue, so the block may be enlarged in place. -/
def Open (h : Heap) (s : Spot h.blocks) : Prop := ∀ y ∈ s.post.head?, y.alloc = false

instance (h : Heap) (s : Spot h.blocks) : Decidable (Open h s) :=
  inferInstanceAs (Decidable (∀ y ∈ s.post.head?, y.alloc = false))

/-- The bytes by which `mm_realloc` extends the heap. -/
def reallocExtension (h : Heap) (s : Spot h.blocks) (n : Nat) : Nat :=
  max (n - (s.block.size + nextSize h s)) chunksize

/-- The heap is extended although a block that is in use is behind the next one. -/
def Overruns (h : Heap) (s : Spot h.blocks) (n : Nat) : Prop :=
  Open h s ∧ 2 ≤ s.post.length ∧ s.block.size + nextSize h s < n ∧
    h.brk + reallocExtension h s n ≤ maxHeap

/-- The block cannot be enlarged in place, since the heap cannot grow. -/
def Cramped (h : Heap) (s : Spot h.blocks) (n : Nat) : Prop :=
  Open h s ∧ s.block.size + nextSize h s < n ∧ maxHeap < h.brk + reallocExtension h s n

/-- `mm_malloc` cannot serve a request for a block of `n` bytes. -/
def Starved (h : Heap) (n : Nat) : Prop :=
  fit h.bins n = none ∧ maxHeap < h.brk + extension n

/-- The block has to move and there is no place for it. -/
def Stuck (h : Heap) (s : Spot h.blocks) (n : Nat) : Prop :=
  ¬ Open h s ∧ s.block.size < n ∧ Starved h n

/-- The block at `s` was resized: it is the block `b` of the heap `h'` now, and the other
blocks are as before. -/
structure Resized {h : Heap} (s : Spot h.blocks) (n : Nat) (σ σ' : Machine A Statics)
    (b : Block) (h' : Heap) : Prop where
  holds : Holds σ' h'
  alloc : b.alloc = true
  enough : n ≤ b.size
  fresh : b ∉ s.pre ++ s.post
  blocks : ∀ c, c.alloc = true → (c ∈ h'.blocks ↔ c = b ∨ c ∈ h.blocks ∧ c ≠ s.block)
  frame : σ.storage.AgreeOn σ'.storage (InUse (s.pre ++ s.post))
  contents : ∀ i < s.block.size - 8,
    σ'.storage (b.off + i) = σ.storage (s.block.off + i)

/-- The heap was extended by `m` bytes behind the block at `s`, and the block reaches to the
new end. -/
structure GrownAtEnd {h : Heap} (s : Spot h.blocks) (m : Nat) (σ σ' : Machine A Statics)
    (h' : Heap) : Prop where
  holds : Holds σ' h'
  brk : h'.brk = h.brk + m
  blocks : h'.blocks = s.pre ++ [⟨s.block.off, s.block.size + nextSize h s + m, true⟩]
  frame : σ.storage.AgreeOn σ'.storage (InUse h.blocks)

/-! ## Taking in the block behind -/

namespace Heap

variable (h : Heap) (s : Spot h.blocks) {y : Block} {rest : List Block}

/-- An allocated block with the free block behind it. -/
def joined (b y : Block) : Block := ⟨b.off, b.size + y.size, true⟩

theorem split_next (hpost : s.post = y :: rest) :
    s.pre ++ [s.block, y] ++ rest = h.blocks := by
  have := s.split
  rw [hpost] at this
  simpa using this

private theorem joined_tiles {b y : Block} {lo hi : Nat}
    (ht : Tiles Block.off Block.stop lo [b, y] hi) :
    Tiles Block.off Block.stop lo [joined b y] hi := by
  obtain ⟨rfl, h1, h2, h3, h4⟩ := ht
  simp only [Block.stop, tiles_nil] at h1 h2 h3 h4
  simp only [joined, tiles_cons, Block.stop, tiles_nil, true_and]
  omega

private theorem joined_size {b y : Block} (hb : 8 ∣ b.size ∧ 16 ≤ b.size)
    (hy : 8 ∣ y.size ∧ 16 ≤ y.size) : 8 ∣ (joined b y).size ∧ 16 ≤ (joined b y).size := by
  simp only [joined]
  omega

theorem filed_absorb (hal : s.block.alloc = true) (hpost : s.post = y :: rest) :
    Filed (s.pre ++ rest) (deleteBin h.bins y) := by
  refine h.filed.delete fun c hc => ?_
  have hmem : c ∈ h.blocks ↔ c ∈ s.pre ++ [s.block, y] ++ rest := by
    rw [h.split_next s hpost]
  have hnd := h.shape.nodup
  rw [← h.split_next s hpost] at hnd
  rw [hmem]
  have hne : c ≠ s.block := fun e => by
    rw [e, hal] at hc
    cases hc
  have hy : c ∈ s.pre ++ rest → c ≠ y := by
    rintro hm rfl
    simp only [List.append_assoc, List.nodup_append, List.cons_append, List.nil_append,
      List.nodup_cons, List.mem_append, List.mem_cons] at hnd hm
    grind
  simp only [List.mem_append, List.mem_cons, hne, false_or, List.not_mem_nil, or_false] at hy ⊢
  tauto

/-- Take the free block behind an allocated block in. -/
def absorb (hal : s.block.alloc = true) (hpost : s.post = y :: rest) : Heap where
  blocks := s.pre ++ [joined s.block y] ++ rest
  brk := h.brk
  shape := by
    have hs := h.shape
    rw [← h.split_next s hpost] at hs
    refine hs.replace _ (fun _ _ => joined_tiles) fun b hb => ?_
    rw [List.mem_singleton.mp hb]
    exact joined_size (hs.size _ (by simp)) (hs.size _ (by simp))
  coalesced := by
    have hc := h.coalesced
    rw [← h.split_next s hpost, List.append_assoc, List.cons_append] at hc
    rw [List.append_assoc, List.singleton_append]
    exact hc.of_append.1.insert_alloc hc.of_append.2.tail rfl
  bins := deleteBin h.bins y
  filed := by
    refine (h.filed_absorb s hal hpost).congr fun c hc => ?_
    have hne : c ≠ joined s.block y := fun e => by
      rw [e] at hc
      cases hc
    simp [hne]

end Heap

section

variable {σ : Machine A Statics} {h : Heap} {s : Spot h.blocks} {y : Block} {rest : List Block}

private theorem tagged_at (hr : Holds σ h) (s : Spot h.blocks) :
    Tagged σ.storage (s.pre ++ s.block :: s.post) h.brk := by
  rw [s.split]
  exact hr.tagged

private theorem nextBlkp_post (hr : Holds σ h) (hpost : s.post = y :: rest) :
    Returns (nextBlkp (A.start + s.block.off)) σ (A.start + y.off) σ := by
  have hnext := nextBlkp_block (A := A) (tagged_at hr s) (h.shape_at s)
  have hoff : (nextOf s.post h.brk).off = y.off := by rw [hpost]; rfl
  rwa [hoff] at hnext

private theorem mem_post (hpost : s.post = y :: rest) : y ∈ h.blocks := by
  rw [← h.split_next s hpost]
  simp

/-- `delete_node` on the block behind. -/
private theorem delete_next (hr : Holds σ h) (hpost : s.post = y :: rest)
    (hy : y.alloc = false) :
    Ensures (deleteNode (A.start + y.off)) σ fun _ σ' =>
      Represents σ' h.blocks h.brk (deleteBin h.bins y) ∧
        σ.storage.AgreeOn σ'.storage (InUse h.blocks) :=
  (deleteNode_ensures hr h.shape h.filed (fun _ h => h) (mem_post hpost) hy).mono
    fun _ _ ⟨h1, h2⟩ => ⟨h1, h2.mono fun _ => not_freeByte_of_inUse h.shape⟩

/-- The growing path ends with the two blocks joined. -/
theorem absorbNext_ensures (hr : Holds σ h) (hal : s.block.alloc = true)
    (hpost : s.post = y :: rest) (hy : y.alloc = false) :
    Ensures (absorbNext (A.start + s.block.off) (s.block.size + y.size)) σ fun p σ' =>
      p = A.start + s.block.off ∧ Holds σ' (h.absorb s hal hpost) ∧
        σ.storage.AgreeOn σ'.storage (InUse h.blocks) := by
  have hsplit := h.split_next s hpost
  have hb := h.shape.bounds s.mem
  have hj : (Heap.joined s.block y).InHeap :=
    (h.absorb s hal hpost).shape.inHeap (by simp [Heap.absorb])
  unfold absorbNext
  refine (nextBlkp_post hr hpost).step ((delete_next hr hpost hy).bind ?_)
  intro _ σ₁ hσ
  obtain ⟨hr₁, hag₁⟩ := hσ
  have hs := h.shape
  rw [← hsplit] at hr₁ hs
  obtain ⟨hr₂, hag₂⟩ := hr₁.retag hs (h.filed_absorb s hal hpost) (fun _ h => h)
    [Heap.joined s.block y] (fun _ _ => Heap.joined_tiles) fun b hb => by
      rw [List.mem_singleton.mp hb]
      exact Heap.joined_size (hs.size _ (by simp)) (hs.size _ (by simp))
  refine putTags_step (b := Heap.joined s.block y) rfl hj ?_
  refine .pure ⟨rfl, hr₂, hag₁.trans ?_⟩
  intro a ha
  obtain ⟨c, hc, hcal, hp⟩ := ha
  rw [← hsplit] at hc
  simp only [List.append_assoc, List.cons_append, List.nil_append, List.mem_append,
    List.mem_cons] at hc
  rcases hc with hc | rfl | rfl | hc
  · exact hag₂ a ⟨c, by simp [hc], hcal, hp⟩
  · -- the payload of the block itself lies between the new tags
    obtain ⟨h1, h2⟩ := hp
    exact tagBlock_apply_of_ne hj (.inr h1) (.inl (by simp only [Heap.joined]; omega))
  · rw [hy] at hcal
    cases hcal
  · exact hag₂ a ⟨c, by simp [hc], hcal, hp⟩

/-- The growing path writes the size it is given, whatever is behind, and leaves the payload
of a smaller block alone. -/
theorem absorbNext_tag (hr : Holds σ h) (hal : s.block.alloc = true)
    (hpost : s.post = y :: rest) (hy : y.alloc = false) {n : Nat} (hn : 8 ∣ n)
    (hlarge : s.block.size ≤ n) (hle : s.block.off + n ≤ maxHeap) :
    Ensures (absorbNext (A.start + s.block.off) n) σ fun p σ' =>
      p = A.start + s.block.off ∧ HasTag σ'.storage (s.block.off - 4) n true ∧
        ∀ i < s.block.size - 8, σ'.storage (s.block.off + i) = σ.storage (s.block.off + i) := by
  have hb := h.shape.bounds s.mem
  unfold absorbNext
  refine (nextBlkp_post hr hpost).step ((delete_next hr hpost hy).bind ?_)
  intro _ σ₁ hσ
  obtain ⟨-, hag⟩ := hσ
  have h16 : 16 ≤ n := by omega
  have hx : (⟨s.block.off, n, true⟩ : Block).InHeap := ⟨hn, h16, hb.1, hle⟩
  refine putTags_step (b := ⟨s.block.off, n, true⟩) rfl hx ?_
  refine .pure ⟨rfl, (tagBlock_tags hx).1, fun i hi => ?_⟩
  -- the payload lies between the new tags
  have hkept := hag _ ⟨s.block, s.mem, hal, Nat.le_add_right _ i, by omega⟩
  rw [← hkept]
  exact tagBlock_apply_of_ne hx (.inr (Nat.le_add_right _ i)) (.inl (by simp only; omega))

end

/-! ## Extending the heap behind a block -/

section

variable {h : Heap} {s : Spot h.blocks} {m : Nat}

/-- If nothing in use is behind the block, the extension ends up right behind it. -/
theorem grow_last (hal : s.block.alloc = true) (hopen : Open h s)
    (hlast : s.post.length ≤ 1) :
    restBefore h.blocks = s.pre ++ [s.block] ∧ (h.top m).size = nextSize h s + m := by
  have hsplit := s.split
  match hpost : s.post with
  | [] =>
    rw [hpost] at hsplit
    have hprev : (prevOf h.blocks).alloc = true := by rw [← hsplit, prevOf_concat, hal]
    obtain ⟨hfree, hrest⟩ := freeBefore_eq_nil hprev
    refine ⟨by rw [hrest, hsplit], ?_⟩
    simp [Layout.top, merged, mergeRun, fuse, hfree, freeBehind, grown, nextSize, hpost, nextOf,
      Block.epilogue]
  | [y] =>
    rw [hpost] at hsplit
    have hblocks : h.blocks = s.pre ++ [s.block] ++ [y] := hsplit.symm.trans (by simp)
    have hprev : prevOf h.blocks = y := by rw [hblocks, prevOf_concat]
    have hpfree : (prevOf h.blocks).alloc = false := by
      rw [hprev]
      exact hopen y (by simp [hpost])
    obtain ⟨hfree, hrest⟩ := freeBefore_eq_singleton hpfree
    rw [hprev] at hfree hrest
    refine ⟨List.append_cancel_right (hrest.symm.trans hblocks), ?_⟩
    simp [Layout.top, merged, mergeRun, fuse, hfree, freeBehind, grown, nextSize, hpost, nextOf]
  | _ :: _ :: _ => simp [hpost] at hlast

/-- Otherwise the next block stays where it is. -/
private theorem grow_behind {y z : Block} {rest : List Block} (hpost : s.post = y :: z :: rest) :
    ∃ rest', restBefore h.blocks = s.pre ++ s.block :: y :: rest' := by
  have hsplit := s.split
  rw [hpost] at hsplit
  unfold restBefore
  split
  · exact ⟨z :: rest, hsplit.symm⟩
  · refine ⟨(z :: rest).dropLast, ?_⟩
    refine (congrArg List.dropLast hsplit.symm).trans ?_
    rw [List.dropLast_append_of_ne_nil (by simp)]
    rfl

end

/-! ## The five paths -/

section

variable {σ : Machine A Statics} {h : Heap} {s : Spot h.blocks} {size : Nat}

/-- The code's test for a block that may be enlarged in place. -/
private theorem open_iff : (nextOf s.post h.brk).alloc.toNat = 0 ∨
    (nextOf s.post h.brk).size = 0 ↔ Open h s := by
  unfold Open
  cases hpost : s.post with
  | nil => simp [nextOf, Block.epilogue]
  | cons y rest =>
    have hy : 16 ≤ y.size := (h.shape.bounds (mem_post hpost)).2.2.2.1
    cases hal : y.alloc <;> simp [nextOf, hal]
    omega

/-- The path that extends the heap. -/
def extendNext (ptr avail ext : Nat) : Prog A Statics Nat := do
  let bp ← extendHeap (ext / wsize)
  if bp = 0 then return 0
  else absorbNext ptr (add32 avail ext)

/-- The path that moves the block. -/
def relocate (ptr size oldSize : Nat) : Prog A Statics Nat := do
  let newPtr ← mmMalloc size
  memcpy newPtr ptr oldSize
  mmFree ptr
  return newPtr

/-- `mm_realloc` after the reads at its start. -/
theorem mmRealloc_apply (hr : Holds σ h) (hpos : 0 < size)
    (hsize : size ≤ 2 ^ 32 - 16) :
    mmRealloc (A.start + s.block.off) size σ =
      (if need size ≤ s.block.size then return A.start + s.block.off
      else if Open h s then
        if s.block.size + nextSize h s < need size then
          extendNext (A.start + s.block.off) (s.block.size + nextSize h s)
            (reallocExtension h s (need size))
        else absorbNext (A.start + s.block.off) (s.block.size + nextSize h s)
      else relocate (A.start + s.block.off) size s.block.size : Prog A Statics Nat) σ := by
  have hA := A.pos
  have hmax := maxHeap_eq
  have hb := h.shape.bounds s.mem
  have hs := h.shape_at s
  have ht := tagged_at hr s
  have hnext := hs.next
  obtain ⟨hnew, hlt⟩ := newSizeOf_eq hsize
  have havail : add32 s.block.size (nextOf s.post h.brk).size = s.block.size + nextSize h s :=
    add32_of_lt (by omega)
  have hext (hgrow : s.block.size + nextSize h s < need size) :
      mmMax (sub32 (need size) (s.block.size + nextSize h s)) chunksize
        = reallocExtension h s (need size) := by
    rw [sub32_of_le (by omega) hlt]
    unfold mmMax reallocExtension
    split <;> omega
  unfold mmRealloc
  rw [if_neg (by omega), if_neg (by omega), (getSize_block ht hs).bind_apply,
    (nextBlkp_block ht hs).bind_apply, (getAlloc_next ht hs).bind_apply,
    (nextBlkp_block ht hs).bind_apply, (getSize_next ht hs).bind_apply]
  simp only [havail, hnew, ge_iff_le]
  by_cases hkeep : need size ≤ s.block.size
  · rw [if_pos hkeep, if_pos hkeep]
  rw [if_neg hkeep, if_neg hkeep]
  by_cases hopen : Open h s
  · rw [if_pos hopen, if_pos (open_iff.mpr hopen)]
    by_cases hgrow : s.block.size + nextSize h s < need size
    · rw [if_pos hgrow, if_pos hgrow, hext hgrow]
      rfl
    · rw [if_neg hgrow, if_neg hgrow]
  · rw [if_neg hopen, if_neg (mt open_iff.mp hopen)]
    rfl

/-- Keep the block. -/
private theorem keep (hr : Holds σ h) (hal : s.block.alloc = true) {n : Nat}
    (hle : n ≤ s.block.size) : Resized s n σ σ s.block h := by
  refine ⟨hr, hal, hle, (h.shape_at s).notMem, fun c hc => ?_, .refl _ _, fun _ _ => rfl⟩
  constructor
  · intro hm
    by_cases e : c = s.block
    · exact .inl e
    · exact .inr ⟨hm, e⟩
  · rintro (rfl | ⟨hm, -⟩)
    · exact s.mem
    · exact hm

/-- Take the block behind in. -/
private theorem absorb_resized {y : Block} {rest : List Block} (hr : Holds σ h)
    (hal : s.block.alloc = true) (hpost : s.post = y :: rest) (hy : y.alloc = false) {n : Nat}
    (hle : n ≤ s.block.size + y.size) :
    Ensures (absorbNext (A.start + s.block.off) (s.block.size + y.size)) σ fun p σ' =>
      p = A.start + s.block.off ∧
        Resized s n σ σ' (Heap.joined s.block y) (h.absorb s hal hpost) := by
  refine (absorbNext_ensures hr hal hpost hy).mono ?_
  intro p σ' hσ
  obtain ⟨rfl, hr', hag⟩ := hσ
  refine ⟨rfl, hr', rfl, hle, fun hm => ?_, fun c hc => ?_, hag.mono ?_, fun i hi => ?_⟩
  · exact (h.shape_at s).off_ne_of_mem hm rfl
  · have hmem : c ∈ h.blocks ↔ c ∈ s.pre ++ [s.block, y] ++ rest := by
      rw [h.split_next s hpost]
    have hcy : c ≠ y := fun e => by
      rw [e, hy] at hc
      cases hc
    have hnot : c ∈ s.pre ++ s.post → c ≠ s.block := by
      rintro hm rfl
      exact (h.shape_at s).notMem hm
    rw [hpost] at hnot
    rw [hmem]
    simp only [Heap.absorb, List.mem_append, List.mem_cons, List.not_mem_nil, or_false, hcy,
      false_or] at hnot ⊢
    tauto
  · intro a ha
    obtain ⟨c, hc, hcal, hp⟩ := ha
    refine ⟨c, ?_, hcal, hp⟩
    rw [← s.split]
    exact mem_middle.mpr (.inr hc)
  · exact hag _ ⟨s.block, s.mem, hal, Nat.le_add_right _ _, by simp only [Heap.joined]; omega⟩

theorem reallocExtension_ok {n : Nat} (hr : Holds σ h) (hn : 8 ∣ n) :
    8 ∣ nextSize h s ∧ 8 ∣ reallocExtension h s n ∧ 16 ≤ reallocExtension h s n := by
  have hnext : 8 ∣ nextSize h s := ((tagged_at hr s).next (h.shape_at s)).dvd
  have hb := h.shape.bounds s.mem
  have hchunk : chunksize = 4096 := rfl
  unfold reallocExtension
  omega

/-- Extend the heap behind the last block in use. -/
theorem extendNext_ensures {m : Nat} (hr : Holds σ h) (hal : s.block.alloc = true)
    (hopen : Open h s) (hlast : s.post.length ≤ 1) (hm : 8 ∣ m ∧ 16 ≤ m)
    (hroom : h.brk + m ≤ maxHeap) :
    Ensures (extendNext (A.start + s.block.off) (s.block.size + nextSize h s) m) σ fun p σ' =>
      p = A.start + s.block.off ∧ ∃ h', GrownAtEnd s m σ σ' h' := by
  have hA := A.pos
  have hmax := maxHeap_eq
  have hb := h.shape.bounds s.mem
  have hnext := (h.shape_at s).next
  obtain ⟨hrest, htop⟩ := grow_last (m := m) hal hopen hlast
  let h₁ := h.grow m hm hroom
  let s₁ : Spot h₁.blocks := ⟨s.pre, s.block, [h.top m], by
    simp only [h₁, Heap.grow, Layout.grow, merge, hrest, List.append_assoc, List.singleton_append]
    rfl⟩
  have havail : add32 (s.block.size + nextSize h s) m = s₁.block.size + (h.top m).size := by
    unfold nextSize at *
    rw [add32_of_lt (by omega), htop, Nat.add_assoc]
  unfold extendNext
  refine (extendHeap_ensures hr hm hroom).bind ?_
  intro p σ₁ hσ
  obtain ⟨rfl, hr₁, hag₁⟩ := hσ
  rw [if_neg (by omega), havail]
  refine (absorbNext_ensures (s := s₁) hr₁ hal rfl rfl).mono ?_
  intro p σ₂ hσ
  obtain ⟨rfl, hr₂, hag₂⟩ := hσ
  refine ⟨rfl, _, hr₂, rfl, ?_, hag₁.trans (hag₂.mono fun a => Layout.grow_inUse hm hroom)⟩
  simp only [Heap.absorb, Heap.joined, s₁, htop, List.append_nil, Nat.add_assoc]

/-- That resizes the block. -/
private theorem GrownAtEnd.resized {n m : Nat} {σ' : Machine A Statics} {h' : Heap}
    (hgrown : GrownAtEnd s m σ σ' h') (hal : s.block.alloc = true) (hopen : Open h s)
    (hlast : s.post.length ≤ 1) (hle : n ≤ s.block.size + nextSize h s + m) :
    Resized s n σ σ' ⟨s.block.off, s.block.size + nextSize h s + m, true⟩ h' := by
  -- behind the block there is at most a free one
  have hpre {c : Block} (hc : c ∈ s.pre ++ s.post) (hcal : c.alloc = true) : c ∈ s.pre := by
    refine (List.mem_append.mp hc).resolve_right fun hpost => ?_
    obtain ⟨y, hy⟩ : ∃ y, s.post = [y] := by
      rw [← List.length_eq_one_iff]
      have := List.length_pos_of_mem hpost
      omega
    have hfree := hopen y (by simp [hy])
    rw [hy, List.mem_singleton] at hpost
    rw [hpost, hfree] at hcal
    cases hcal
  have hinUse {c : Block} {a : Nat} (hc : c ∈ h.blocks) (hcal : c.alloc = true)
      (hp : c.Payload a) : σ'.storage a = σ.storage a :=
    hgrown.frame a ⟨c, hc, hcal, hp⟩
  refine ⟨hgrown.holds, rfl, hle, fun hm => ?_, fun c hc => ?_, ?_, fun i hi => ?_⟩
  · exact (h.shape_at s).off_ne_of_mem hm rfl
  · rw [hgrown.blocks, List.mem_append, List.mem_singleton, or_comm]
    refine or_congr_right ⟨fun hm => ?_, fun ⟨hm, hne⟩ => hpre (s.mem_sides hm hne) hc⟩
    have hside : c ∈ s.pre ++ s.post := List.mem_append_left _ hm
    exact ⟨s.mem_of_sides hside, (h.shape_at s).ne_of_mem hside⟩
  · rintro a ⟨c, hc, hcal, hp⟩
    exact hinUse (s.mem_of_sides hc) hcal hp
  · have hp : s.block.Payload (s.block.off + i) := ⟨Nat.le_add_right _ _, by omega⟩
    exact hinUse s.mem hal hp

/-- The extension is refused. -/
theorem extend_refused {n : Nat} (hr : Holds σ h) (hn : 8 ∣ n) (hlt : n < 2 ^ 32)
    (hroom : maxHeap < h.brk + reallocExtension h s n) {ptr avail : Nat} :
    Returns (extendNext ptr avail (reallocExtension h s n)) σ 0 σ := by
  obtain ⟨-, hm⟩ := reallocExtension_ok (s := s) hr hn
  have hchunk : chunksize = 4096 := rfl
  unfold extendNext
  refine (extendHeap_refused hr hm.1 (by unfold reallocExtension; omega) hroom).bind ?_
  rw [if_pos rfl]
  exact .pure _ _

/-- The extension ends up behind other blocks. -/
private theorem extend_overrun {n : Nat} (hr : Holds σ h) (hal : s.block.alloc = true)
    (hn : 8 ∣ n) (hopen : Open h s) (hlong : 2 ≤ s.post.length)
    (hroom : h.brk + reallocExtension h s n ≤ maxHeap) :
    Ensures (extendNext (A.start + s.block.off) (s.block.size + nextSize h s)
      (reallocExtension h s n)) σ fun p σ' =>
        p = A.start + s.block.off ∧ HasTag σ'.storage (s.block.off - 4)
            (s.block.size + nextSize h s + reallocExtension h s n) true ∧
          ∀ i < s.block.size - 8,
            σ'.storage (s.block.off + i) = σ.storage (s.block.off + i) := by
  have hA := A.pos
  have hmax := maxHeap_eq
  have hb := h.shape.bounds s.mem
  have hnext := (h.shape_at s).next
  obtain ⟨hdvd, hm⟩ := reallocExtension_ok (s := s) hr hn
  match hpost : s.post with
  | [] => simp [hpost] at hlong
  | [_] => simp [hpost] at hlong
  | y :: z :: rest =>
    have hy : y.alloc = false := hopen y (by simp [hpost])
    obtain ⟨rest', hrest⟩ := grow_behind hpost
    let h₁ := h.grow _ hm hroom
    let s₁ : Spot h₁.blocks :=
      ⟨s.pre, s.block, y :: rest' ++ [h.top (reallocExtension h s n)], by
        simp only [h₁, Heap.grow, Layout.grow, merge, hrest, List.append_assoc, List.cons_append]
        rfl⟩
    have havail : add32 (s.block.size + nextSize h s) (reallocExtension h s n)
        = s.block.size + nextSize h s + reallocExtension h s n := by
      unfold nextSize at *
      exact add32_of_lt (by omega)
    unfold extendNext
    refine (extendHeap_ensures hr hm hroom).bind ?_
    intro p σ₁ hσ
    obtain ⟨rfl, hr₁, hag₁⟩ := hσ
    rw [if_neg (by omega), havail]
    have hfits : s.block.off + (s.block.size + nextSize h s + reallocExtension h s n)
        ≤ maxHeap := by
      unfold nextSize at *
      omega
    refine (absorbNext_tag (s := s₁) hr₁ hal rfl hy (by omega) (by simp only [s₁]; omega)
      hfits).mono ?_
    intro p σ₂ hσ
    obtain ⟨rfl, htag, hkept⟩ := hσ
    refine ⟨rfl, htag, fun i hi => (hkept i hi).trans ?_⟩
    exact hag₁ _ ⟨s.block, s.mem, hal, Nat.le_add_right _ i, by simp only [s₁]; omega⟩

/-- The path that moves the block was taken to its end, through the states after `mm_malloc`,
`memcpy` and `mm_free`. -/
structure Relocated (s : Spot h.blocks) (size : Nat) (σ σ₁ σ₂ σ' : Machine A Statics)
    (t : Block) (h₁ h' : Heap) : Prop where
  malloc : Returns (mmMalloc size) σ (A.start + t.off) σ₁
  copy : Returns (memcpy (A.start + t.off) (A.start + s.block.off) s.block.size) σ₁ () σ₂
  free : Returns (mmFree (A.start + s.block.off)) σ₂ () σ'
  holds : Holds σ₁ h₁
  served : Served h.toLayout (need size) t h₁.toLayout
  resized : Resized s (need size) σ σ' t h'

theorem Relocated.returns {σ₁ σ₂ σ' : Machine A Statics} {t : Block} {h₁ h' : Heap}
    (hmoved : Relocated s size σ σ₁ σ₂ σ' t h₁ h') :
    Returns (relocate (A.start + s.block.off) size s.block.size) σ (A.start + t.off) σ' :=
  hmoved.malloc.bind (hmoved.copy.bind (hmoved.free.bind (.pure _ _)))

/-- Move the block. -/
theorem exists_relocated {t : Block} {h₁ : Heap} (hr : Holds σ h)
    (hal : s.block.alloc = true) (hpos : 0 < size) (hsize : size ≤ 2 ^ 32 - 16)
    (hlarge : s.block.size < need size)
    (hm : h.malloc (need size) (need_ok size).1 = some (t, h₁)) :
    ∃ σ₁ σ₂ σ' h', Relocated s size σ σ₁ σ₂ σ' t h₁ h' := by
  have hret := mmMalloc_ensures hr hpos hsize
  rw [hm] at hret
  obtain ⟨p, σ₁, hmalloc, rfl, hr₁, hag₁⟩ := hret
  have hserved := Heap.malloc_served hm
  have henough := hserved.enough
  have hmem₁ : s.block ∈ h₁.blocks := (hserved.blocks _ hal).mpr (.inr s.mem)
  have hb := h₁.shape.bounds hmem₁
  have ht := h₁.shape.bounds hserved.mem
  have hapart := hserved.apart s.block s.mem hal
  let s₁ := Spot.of h₁.blocks s.block hmem₁
  have hs₁ : s₁.block = s.block := Spot.of_block hmem₁
  have hal₁ : s₁.block.alloc = true := by rw [hs₁, hal]
  have hne : t ≠ s.block := fun e => by
    rw [e] at hapart
    omega
  -- the copy stays within the payload of the new block
  have hcopy {a : Nat} (ha : ¬ t.Payload a) :
      σ₁.storage.copy t.off s.block.off s.block.size a = σ₁.storage a := by
    refine Memory.copy_apply_of_ne ?_
    unfold Block.Payload at ha
    omega
  have hr₂ := hr₁.of_payload (m := σ₁.storage.copy t.off s.block.off s.block.size)
    fun a ha => hcopy (ha t hserved.mem hserved.alloc)
  have hfree := mmFree_ensures hr₂ s₁ hal₁
  rw [hs₁] at hfree
  obtain ⟨⟨⟩, σ₃, hfree, hr₃, hag₃⟩ := hfree
  have hkept {c : Block} (hc : c ∈ h₁.blocks) (hcal : c.alloc = true) (hcs : c ≠ s.block) :
      c ∈ (h₁.release s₁ hal₁).blocks :=
    (Layout.release_alloc hcal).mpr ⟨hc, by rw [hs₁]; exact hcs⟩
  have hmove := memcpy_returns (σ := σ₁) (d := t.off) (s := s.block.off) (n := s.block.size)
    (by omega) (by omega) (by omega)
  refine ⟨σ₁, _, σ₃, h₁.release s₁ hal₁, hmalloc, hmove, hfree, hr₁, hserved, hr₃, hserved.alloc,
    by omega, fun hm => ?_, fun c hc => ?_, ?_, fun i hi => ?_⟩
  · have := hserved.apart t (s.mem_of_sides hm) hserved.alloc
    omega
  · have hrel : c ∈ (h₁.release s₁ hal₁).blocks ↔ c ∈ h₁.blocks ∧ c ≠ s₁.block :=
      Layout.release_alloc hc
    rw [hrel, hs₁, hserved.blocks c hc]
    constructor
    · rintro ⟨rfl | hmem, hcs⟩
      · exact .inl rfl
      · exact .inr ⟨hmem, hcs⟩
    · rintro (rfl | ⟨hmem, hcs⟩)
      · exact ⟨.inl rfl, hne⟩
      · exact ⟨.inr hmem, hcs⟩
  · intro a ha
    obtain ⟨c, hc, hcal, hp⟩ := ha
    have hcs := (h.shape_at s).ne_of_mem hc
    have hch := s.mem_of_sides hc
    have hca := hserved.apart c hch hcal
    have hcb := h.shape.bounds hch
    rw [hag₃ a ⟨c, hkept ((hserved.blocks c hcal).mpr (.inr hch)) hcal hcs, hcal, hp⟩,
      ← hag₁ a ⟨c, hch, hcal, hp⟩]
    unfold Block.Payload at hp
    exact hcopy (by unfold Block.Payload; omega)
  · rw [hag₃ _ ⟨t, hkept hserved.mem hserved.alloc hne, hserved.alloc, by omega, by omega⟩,
      ← hag₁ _ ⟨s.block, s.mem, hal, by omega, by omega⟩]
    exact Memory.copy_apply (by omega)

/-- There is no place to move to. -/
private theorem relocate_fails (hr : Holds σ h) (hpos : 0 < size) (hsize : size ≤ 2 ^ 32 - 16)
    (hm : h.malloc (need size) (need_ok size).1 = none) :
    Fails (relocate (A.start + s.block.off) size s.block.size) σ (.segv 0) := by
  have hb := h.shape.bounds s.mem
  have hret := mmMalloc_ensures hr hpos hsize
  rw [hm] at hret
  obtain ⟨p, σ', hret, rfl, rfl⟩ := hret
  exact hret.bind_fails (memcpy_null (by omega) (by omega)).bind

/-- What `mm_realloc` does: resize the block, or refuse, or one of the two mistakes. -/
theorem mmRealloc_cases (hr : Holds σ h) (s : Spot h.blocks) (hal : s.block.alloc = true)
    (hpos : 0 < size) (hsize : size ≤ 2 ^ 32 - 16) :
    (¬ Overruns h s (need size) ∧ ¬ Cramped h s (need size) ∧ ¬ Stuck h s (need size) ∧
      ∃ b h' σ', Returns (mmRealloc (A.start + s.block.off) size) σ (A.start + b.off) σ' ∧
        Resized s (need size) σ σ' b h') ∨
    (Cramped h s (need size) ∧ Returns (mmRealloc (A.start + s.block.off) size) σ 0 σ) ∨
    (Overruns h s (need size) ∧ ∃ σ',
      Returns (mmRealloc (A.start + s.block.off) size) σ (A.start + s.block.off) σ' ∧
        HasTag σ'.storage (s.block.off - 4)
          (s.block.size + nextSize h s + reallocExtension h s (need size)) true ∧
        ∀ i < s.block.size - 8,
          σ'.storage (s.block.off + i) = σ.storage (s.block.off + i)) ∨
    (Stuck h s (need size) ∧
      Fails (mmRealloc (A.start + s.block.off) size) σ (.segv 0)) := by
  obtain ⟨-, hlt⟩ := newSizeOf_eq hsize
  obtain ⟨hn, -⟩ := need_ok size
  unfold Returns Fails
  rw [mmRealloc_apply hr hpos hsize]
  have hdone {x : Prog A Statics Nat} {Q : Nat → Machine A Statics → Prop}
      (hx : Ensures x σ Q)
      (hQ : ∀ p σ', Q p σ' → ∃ b h', p = A.start + b.off ∧ Resized s (need size) σ σ' b h') :
      ∃ b h' σ', x σ = .ok (A.start + b.off, σ') ∧ Resized s (need size) σ σ' b h' := by
    obtain ⟨p, σ', hret, hq⟩ := hx
    obtain ⟨b, h', rfl, hres⟩ := hQ p σ' hq
    exact ⟨b, h', σ', hret, hres⟩
  by_cases hkeep : need size ≤ s.block.size
  · rw [if_pos hkeep]
    refine .inl ⟨fun h => ?_, fun h => ?_, fun h => ?_, s.block, h, σ, rfl, keep hr hal hkeep⟩
    · have := h.2.2.1
      omega
    · have := h.2.1
      omega
    · have := h.2.1
      omega
  rw [if_neg hkeep]
  by_cases hopen : Open h s
  · rw [if_pos hopen]
    have hnot : ¬ Stuck h s (need size) := fun h => h.1 hopen
    by_cases hgrow : s.block.size + nextSize h s < need size
    · rw [if_pos hgrow]
      rcases Nat.lt_or_ge maxHeap (h.brk + reallocExtension h s (need size)) with hfull | hroom
      · exact .inr (.inl ⟨⟨hopen, hgrow, hfull⟩, extend_refused hr hn.1 hlt hfull⟩)
      · have hroomy : ¬ Cramped h s (need size) := fun h => absurd h.2.2 (by omega)
        rcases Nat.lt_or_ge s.post.length 2 with hlast | hlong
        · refine .inl ⟨fun h => absurd h.2.1 (by omega), hroomy, hnot, ?_⟩
          obtain ⟨-, hm⟩ := reallocExtension_ok (s := s) hr hn.1
          refine hdone (extendNext_ensures hr hal hopen (by omega) hm hroom) ?_
          rintro p σ' ⟨rfl, h', hgrown⟩
          refine ⟨⟨s.block.off, _, true⟩, h', rfl, hgrown.resized hal hopen (by omega) ?_⟩
          unfold reallocExtension
          omega
        · obtain ⟨p, σ', hret, rfl, hover⟩ := extend_overrun hr hal hn.1 hopen hlong hroom
          exact .inr (.inr (.inl ⟨⟨hopen, hlong, hgrow, hroom⟩, σ', hret, hover⟩))
    · rw [if_neg hgrow]
      refine .inl ⟨fun h => hgrow h.2.2.1, fun h => hgrow h.2.1, hnot, ?_⟩
      -- the block behind is there, since the block alone is too small
      match hpost : s.post with
      | [] =>
        simp only [nextSize, hpost, nextOf, List.head?_nil, Option.getD_none,
          Block.epilogue] at hgrow
        omega
      | y :: rest =>
        have hnext : nextSize h s = y.size := by simp [nextSize, hpost, nextOf]
        rw [hnext] at hgrow ⊢
        exact hdone (absorb_resized hr hal hpost (hopen y (by simp [hpost]))
          (Nat.not_lt.mp hgrow)) fun p σ' hq => ⟨Heap.joined s.block y, _, hq⟩
  · rw [if_neg hopen]
    have hlarge : s.block.size < need size := Nat.not_le.mp hkeep
    have hmove {t : Block} {h₁ : Heap} (hx : ∃ σ₁ σ₂ σ' h', Relocated s size σ σ₁ σ₂ σ' t h₁ h') :
        ∃ b h' σ', relocate (A.start + s.block.off) size s.block.size σ
            = .ok (A.start + b.off, σ') ∧ Resized s (need size) σ σ' b h' := by
      obtain ⟨σ₁, σ₂, σ', h', hmoved⟩ := hx
      exact ⟨t, h', σ', hmoved.returns, hmoved.resized⟩
    rcases h.malloc_cases (need size) hn with
      ⟨s', hal', hle', hfit, hm⟩ | ⟨hfit, hgrow, hm⟩ | ⟨hfit, hfull, hm⟩
    · refine .inl ⟨fun h => hopen h.1, fun h => hopen h.1, fun h => ?_,
        hmove (exists_relocated hr hal hpos hsize hlarge hm)⟩
      have := h.2.2.1
      rw [hfit] at this
      cases this
    · refine .inl ⟨fun h => hopen h.1, fun h => hopen h.1, fun h => ?_,
        hmove (exists_relocated hr hal hpos hsize hlarge hm)⟩
      have := h.2.2.2
      omega
    · exact .inr (.inr (.inr ⟨⟨hopen, hlarge, hfit, hfull⟩, relocate_fails hr hpos hsize hm⟩))

end

end CToys.Malloc.Segregated
