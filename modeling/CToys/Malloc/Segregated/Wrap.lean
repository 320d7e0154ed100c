import CToys.Malloc.Segregated.ReallocSafety

/-!
# Sizes that wrap

The block size of a request is computed modulo `2 ^ 32`.  For the last 15 sizes it comes
out as 0 or 8, less than any block.  `mm_malloc` then takes the first free block it finds
and `mm_realloc` keeps the block as it is, and both return a pointer to a block that is
far too small.  All other sizes are served with a block that is large enough or refused,
except where `mm_realloc` crashes.
-/

namespace CToys.Malloc.Segregated

variable {A : Arena}

/-- `mm_malloc(size)` returns `NULL` or a block with `size` payload bytes. -/
def MallocSound (σ : Machine A Statics) (size : Nat) : Prop :=
  ∃ p σ', Returns (mmMalloc size) σ p σ' ∧ (p = 0 ∨ size + 8 ≤ σ'.blockSize p)

/-- `mm_realloc(ptr, size)` returns `NULL` or a block with `size` payload bytes. -/
def ReallocSound (σ : Machine A Statics) (ptr size : Nat) : Prop :=
  ∃ p σ', Returns (mmRealloc ptr size) σ p σ' ∧ (p = 0 ∨ size + 8 ≤ σ'.blockSize p)

/-- The block size for a request that wraps. -/
theorem newSizeOf_wraps {size : Nat} (hsize : 2 ^ 32 - 16 < size) (hlt : size < 2 ^ 32) :
    newSizeOf size ≤ 8 := by
  unfold newSizeOf align add32 dsize
  rw [if_neg (by omega), and_size_mask (Nat.mod_lt _ (by decide))]
  omega

/-- No block has room for such a request. -/
theorem blockSize_lt_of_wraps {size : Nat} (σ : Machine A Statics) (p : Nat)
    (hsize : 2 ^ 32 - 16 < size) : σ.blockSize p < size + 8 := by
  have hw := Memory.word_lt σ.storage (p - A.start - 4)
  rw [Machine.blockSize, and_size_mask hw]
  omega

/-- A request below 96 bytes is placed at the front. -/
theorem place_yields {bp n : Nat} (hn : n < 96) :
    Yields (place bp n : Prog A Statics Nat) (· = bp) := by
  unfold place
  refine .bind fun oldSize => .bind fun _ => ?_
  split
  · exact .bind fun _ => .bind fun _ => .bind fun _ => .pure rfl
  · rw [if_neg (by omega)]
    refine .bind fun _ => .bind fun _ => .bind fun _ => .bind fun _ => .bind fun _ => ?_
    exact .bind fun _ => .bind fun _ => .bind fun _ => .bind fun _ => .bind fun _ => .pure rfl

section

variable {c : Client A Statics} {h : Heap} {size : Nat}

/-- Where a request that wraps is refused. -/
private theorem mallocSound_of_wraps (hr : Holds c.machine h) (hsize : 2 ^ 32 - 16 < size)
    (hlt : size < 2 ^ 32) : MallocSound c.machine size ↔
      (∀ b ∈ h.blocks, b.alloc = true) ∧ maxHeap < h.brk + chunksize := by
  have hA := A.pos
  have hchunk : chunksize = 4096 := rfl
  have hnew := newSizeOf_wraps hsize hlt
  have hmax : mmMax (newSizeOf size) chunksize = chunksize := if_neg (by omega)
  -- a placed block is not `NULL` and too small
  have hplace {ptr : Nat} (hptr : ptr ≠ 0) {σ : Machine A Statics} : ¬ ∃ p σ',
      Returns (place ptr (newSizeOf size)) σ p σ' ∧ (p = 0 ∨ size + 8 ≤ σ'.blockSize p) := by
    rintro ⟨p, σ', hret, hor⟩
    obtain rfl : p = ptr := place_yields (by omega) σ p σ' hret
    exact hor.elim hptr (Nat.not_le.mpr (blockSize_lt_of_wraps σ' p hsize))
  have hnone : fit h.bins (newSizeOf size) = none ↔ ∀ b ∈ h.blocks, b.alloc = true := by
    rw [h.filed.fit_eq_none (by omega)]
    refine forall₂_congr fun b hb => ?_
    have := (h.shape.size b hb).2
    cases b.alloc
    · simp
      omega
    · simp
  have happly : mmMalloc size c.machine
      = (if blockPtr A (fit h.bins (newSizeOf size)) ≠ 0 then
          place (blockPtr A (fit h.bins (newSizeOf size))) (newSizeOf size)
        else do
          let bp ← extendHeap (chunksize / wsize)
          if bp = 0 then return 0 else place bp (newSizeOf size) : Prog A Statics Nat)
        c.machine := by
    unfold mmMalloc
    rw [if_neg (by omega), (findFit_returns hr h.shape h.filed).bind_apply, hmax]
  unfold MallocSound Returns
  rw [happly]
  cases hfit : fit h.bins (newSizeOf size) with
  | some b =>
    rw [if_pos (by simp only [blockPtr, Option.map_some, ptrOf_some]; omega)]
    refine iff_of_false (hplace ?_) fun hfull => ?_
    · simp only [blockPtr, Option.map_some, ptrOf_some]
      omega
    · rw [hnone.mpr hfull.1] at hfit
      cases hfit
  | none =>
    rw [if_neg (by simp [blockPtr])]
    rcases Nat.lt_or_ge maxHeap (h.brk + chunksize) with hfull | hroom
    · refine iff_of_true ⟨0, c.machine, ?_, .inl rfl⟩ ⟨hnone.mp hfit, hfull⟩
      rw [(extendHeap_refused hr (by decide) (by decide) hfull).bind_apply, if_pos rfl]
      rfl
    · refine iff_of_false ?_ fun hfull => absurd hfull.2 (Nat.not_lt.mpr hroom)
      obtain ⟨p, σ₁, hret, rfl, -⟩ := extendHeap_ensures hr (by decide) hroom
      rw [hret.bind_apply, if_neg (by omega)]
      exact hplace (by omega)

/-- All other requests are served or refused. -/
private theorem mallocSound_of_le (hr : Holds c.machine h) (hpos : 0 < size)
    (hsize : size ≤ 2 ^ 32 - 16) : MallocSound c.machine size := by
  have hneed := (need_ok size).2
  obtain ⟨p, σ', hret, hq⟩ := mmMalloc_ensures hr hpos hsize
  refine ⟨p, σ', hret, ?_⟩
  cases hm : h.malloc (need size) (need_ok size).1 with
  | none =>
    rw [hm] at hq
    exact .inl hq.1
  | some res =>
    obtain ⟨b, h'⟩ := res
    rw [hm] at hq
    obtain ⟨rfl, hr', -⟩ := hq
    have hserved := Heap.malloc_served hm
    have henough := hserved.enough
    rw [blockSize_eq (A := A) (hr'.tagged.header b hserved.mem)]
    omega

/-- `mm_realloc` keeps the block as it is for a request that wraps. -/
private theorem not_reallocSound_of_wraps (hr : Holds c.machine h) (s : Spot h.blocks)
    (hsize : 2 ^ 32 - 16 < size) (hlt : size < 2 ^ 32) :
    ¬ ReallocSound c.machine (A.start + s.block.off) size := by
  have hA := A.pos
  have hb := h.shape.bounds s.mem
  have hnew := newSizeOf_wraps hsize hlt
  have hs := h.shape_at s
  have ht : Tagged c.machine.storage (s.pre ++ s.block :: s.post) h.brk := by
    rw [s.split]
    exact hr.tagged
  have hkeep : Returns (mmRealloc (A.start + s.block.off) size) c.machine
      (A.start + s.block.off) c.machine := by
    unfold mmRealloc
    rw [if_neg (by omega), if_neg (by omega)]
    refine (getSize_block ht hs).bind ((nextBlkp_block ht hs).bind ?_)
    refine (getAlloc_next ht hs).bind ((nextBlkp_block ht hs).bind ?_)
    refine (getSize_next ht hs).bind ?_
    rw [if_pos (by omega)]
    exact .pure _ _
  rintro ⟨p, σ', hret, hor⟩
  obtain ⟨rfl, rfl⟩ := hkeep.unique hret
  rcases hor with hp | hle
  · omega
  · exact absurd hle (Nat.not_le.mpr (blockSize_lt_of_wraps _ _ hsize))

private theorem reallocSound_of_le (hr : Holds c.machine h) (s : Spot h.blocks)
    (hal : s.block.alloc = true) (hpos : 0 < size) (hsize : size ≤ 2 ^ 32 - 16) :
    ReallocSound c.machine (A.start + s.block.off) size ↔ ¬ Stuck h s (need size) := by
  have hneed := (need_ok size).2
  rcases mmRealloc_cases hr s hal hpos hsize with
    ⟨-, -, hnot, b, h', σ', hret, hres⟩ | ⟨hcramped, hret⟩ | ⟨hover, σ', hret, htag, -⟩ |
      ⟨hstuck, hfail⟩
  · refine iff_of_true ⟨_, σ', hret, .inr ?_⟩ hnot
    have hmem : b ∈ h'.blocks := (hres.blocks b hres.alloc).mpr (.inl rfl)
    have henough := hres.enough
    rw [blockSize_eq (A := A) (hres.holds.tagged.header b hmem)]
    omega
  · exact iff_of_true ⟨0, _, hret, .inl rfl⟩ fun hstuck => hstuck.1 hcramped.1
  · refine iff_of_true ⟨_, σ', hret, .inr ?_⟩ fun hstuck => hstuck.1 hover.1
    have hsize : σ'.blockSize (A.start + s.block.off) = _ :=
      blockSize_eq (b := ⟨s.block.off, _, true⟩) htag
    rw [hsize]
    simp only [reallocExtension]
    omega
  · refine iff_of_false ?_ (not_not.mpr hstuck)
    rintro ⟨p, σ', hret, -⟩
    exact hret.not_fails hfail

end

/-- Which sizes are served with a block that is large enough or refused, by `mm_malloc` and by
`mm_realloc` of a live pointer. -/
theorem sound_iff {c : Client A Statics} {h : Heap} {size : Nat} (hc : Reachable c)
    (hr : Holds c.machine h) (hpos : 1 ≤ size) (hlt : size < 2 ^ 32) :
    (MallocSound c.machine size ↔ size ≤ 2 ^ 32 - 16 ∨
      ((∀ b ∈ h.blocks, b.alloc = true) ∧ maxHeap < h.brk + chunksize)) ∧
    ∀ (s : Spot h.blocks) (k : Nat) (g : Grant), c.ledger.live k = some g →
      g.ptr = A.start + s.block.off →
      (ReallocSound c.machine g.ptr size ↔ size ≤ 2 ^ 32 - 16 ∧ ¬ Stuck h s (need size)) := by
  obtain ⟨h', hs'⟩ := hc.sound
  have hs := hs'.of_holds hr
  rcases Nat.lt_or_ge (2 ^ 32 - 16) size with hwraps | hle
  · refine ⟨?_, fun s k g hk hg => ?_⟩
    · rw [mallocSound_of_wraps hr hwraps hlt]
      exact ⟨.inr, fun h => h.resolve_left (Nat.not_le.mpr hwraps)⟩
    · rw [hg]
      exact iff_of_false (not_reallocSound_of_wraps hr s hwraps hlt)
        fun h => absurd h.1 (Nat.not_le.mpr hwraps)
  · refine ⟨iff_of_true (mallocSound_of_le hr hpos hle) (.inl hle), fun s k g hk hg => ?_⟩
    rw [hg, reallocSound_of_le hr s (hs.alloc_of_live s hk hg) hpos hle]
    exact ⟨fun h => ⟨hle, h⟩, And.right⟩

/-- The first block of two has 24 bytes. -/
theorem paired_sound : MallocSound paired.machine 24 ∧ ReallocSound paired.machine 4112 24 := by
  obtain ⟨h, hs, hblocks⟩ := paired_blocks
  let s : Spot h.blocks :=
    ⟨[], ⟨16, 32, true⟩, [⟨48, 32, true⟩, ⟨80, 4032, false⟩], hblocks.symm⟩
  obtain ⟨hmalloc, hrealloc⟩ := sound_iff paired_reachable hs.holds
    (show 1 ≤ 24 by decide) (by decide)
  have hle : 24 ≤ 2 ^ 32 - 16 := by decide
  refine ⟨hmalloc.mpr (.inl hle), (hrealloc s 0 ⟨4112, 24⟩ rfl rfl).mpr ⟨hle, fun hstuck => ?_⟩⟩
  have hsmall : 32 < need 24 := hstuck.2.1
  revert hsmall
  decide

/-- A request for all of the address space is served with a block without payload. -/
theorem not_mallocSound_booted :
    Reachable booted ∧ ¬ MallocSound booted.machine (2 ^ 32 - 1) := by
  refine ⟨booted_started.reachable, ?_⟩
  rintro ⟨p, σ', hret, hor⟩
  have hserved : result (mmMalloc (2 ^ 32 - 1)) booted.machine = some 4112 := by decide +kernel
  obtain ⟨rfl, rfl⟩ := (Returns.of_result hserved).unique hret
  have hsize : (after (mmMalloc (2 ^ 32 - 1)) booted.machine).blockSize 4112 = 8 := by
    decide +kernel
  rw [hsize] at hor
  omega

end CToys.Malloc.Segregated
