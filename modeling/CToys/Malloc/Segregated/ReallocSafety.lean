import CToys.Malloc.Segregated.Realloc

/-!
# When reallocating is safe

`mm_realloc` should leave the blocks of other clients alone, and it should fail without
changing anything.  Each holds unless the call takes one of the two bad paths, and these
are taken exactly where `Overruns` and `Stuck` say.
-/

namespace CToys.Malloc.Segregated

variable {A : Arena} {c : Client A Statics} {h : Heap} {k : Nat} {g : Grant}

/-- After `mm_realloc` returned `p` for the block of call `k`, the heap is well formed, the
block at `p` is apart from all other live payloads, and these have their bytes. -/
structure Preserves (c : Client A Statics) (k p : Nat) (σ' : Machine A Statics) : Prop where
  wellFormed : ∃ h', Holds σ' h' ∧ ∃ b ∈ h'.blocks, b.alloc = true ∧ p = A.start + b.off
  apart : ∀ k' g, c.ledger.live k' = some g → k' ≠ k →
    p + (σ'.blockSize p - 8) ≤ g.ptr ∨ g.ptr + (c.machine.blockSize g.ptr - 8) ≤ p
  frame : ∀ k' g, c.ledger.live k' = some g → k' ≠ k →
    ∀ i < c.machine.blockSize g.ptr - 8,
      σ'.storage (g.ptr - A.start + i) = c.machine.storage (g.ptr - A.start + i)

/-- `mm_realloc` of the block of call `k` is safe for the rest of the heap. -/
def ReallocSafe (c : Client A Statics) (k ptr size : Nat) : Prop :=
  ∀ p σ', Returns (mmRealloc ptr size) c.machine p σ' → p ≠ 0 → Preserves c k p σ'

/-- The invariant holds with any heap that the machine holds. -/
theorem Sound.of_holds {h' : Heap} (hs : Sound c h') (hr : Holds c.machine h) : Sound c h :=
  ⟨hr, hs.serves.congr fun b _ => by rw [hr.blocks_eq hs.holds]⟩

/-- The block of another live pointer. -/
theorem Sound.other (hs : Sound c h) (s : Spot h.blocks) (hk : c.ledger.live k = some g)
    (hg : g.ptr = A.start + s.block.off) {k' : Nat} {g' : Grant}
    (hk' : c.ledger.live k' = some g') (hne : k' ≠ k) :
    ∃ b ∈ h.blocks, b.alloc = true ∧ b ≠ s.block ∧ g'.ptr = A.start + b.off ∧
      c.machine.blockSize g'.ptr = b.size := by
  obtain ⟨b, hb, hal, hg', -⟩ := hs.serves.block hk'
  refine ⟨b, hb, hal, ?_, hg', ?_⟩
  · rintro rfl
    exact hne (hs.serves.inj hk' hk (hg'.trans hg.symm))
  · rw [hg']
    exact blockSize_eq (hs.holds.tagged.header b hb)

/-- A block that was resized preserves the rest. -/
theorem Resized.preserves {s : Spot h.blocks} {n : Nat} {σ' : Machine A Statics} {b : Block}
    {h' : Heap} (hs : Sound c h) (hk : c.ledger.live k = some g)
    (hg : g.ptr = A.start + s.block.off) (hres : Resized s n c.machine σ' b h') :
    Preserves c k (A.start + b.off) σ' := by
  have hmem : b ∈ h'.blocks := (hres.blocks b hres.alloc).mpr (.inl rfl)
  have hb := h'.shape.bounds hmem
  refine ⟨⟨h', hres.holds, b, hmem, hres.alloc, rfl⟩, fun k' g' hk' hne => ?_,
    fun k' g' hk' hne i hi => ?_⟩
  · obtain ⟨d, hd, hdal, hdne, hg', hsize⟩ := hs.other s hk hg hk' hne
    have hd' : d ∈ h'.blocks := (hres.blocks d hdal).mpr (.inr ⟨hd, hdne⟩)
    have hdb := h.shape.bounds hd
    rw [hsize, hg', blockSize_eq (A := A) (hres.holds.tagged.header b hmem)]
    rcases h'.shape.apart hmem hd' with rfl | e | e
    · exact absurd (s.mem_sides hd hdne) hres.fresh
    · exact .inl (by omega)
    · exact .inr (by omega)
  · obtain ⟨d, hd, hdal, hdne, hg', hsize⟩ := hs.other s hk hg hk' hne
    rw [hsize] at hi
    rw [hg', Nat.add_sub_cancel_left]
    exact hres.frame _ ⟨d, s.mem_sides hd hdne, hdal, by omega, by omega⟩

/-- The new header after an overrun reaches over a live block. -/
private theorem Overruns.not_preserves {s : Spot h.blocks} {n : Nat} {σ' : Machine A Statics}
    (hover : Overruns h s n) (hs : Sound c h) (hk : c.ledger.live k = some g)
    (hg : g.ptr = A.start + s.block.off)
    (htag : HasTag σ'.storage (s.block.off - 4)
      (s.block.size + nextSize h s + reallocExtension h s n) true) :
    ¬ Preserves c k (A.start + s.block.off) σ' := by
  obtain ⟨hopen, hlong, -, -⟩ := hover
  intro hpres
  match hpost : s.post with
  | [] => simp [hpost] at hlong
  | [_] => simp [hpost] at hlong
  | y :: z :: rest =>
    have hb := h.shape.bounds s.mem
    have hzmem : z ∈ h.blocks := s.mem_of_sides (by simp [hpost])
    have hz := h.shape.bounds hzmem
    -- the block behind the free one is in use
    have hzal : z.alloc = true := by
      have hchain := (h.coalesced_at s).of_append.2
      rw [hpost] at hchain
      have hy := hopen y (by simp [hpost])
      simpa [hy] using (List.isChain_cons_cons.mp hchain).1
    have hzoff : z.off = s.block.off + s.block.size + nextSize h s := by
      have htiles := (h.shape_at s).tiles.split.2.2
      rw [hpost] at htiles
      obtain ⟨h1, -, h2, -⟩ := htiles
      simp only [nextSize, hpost, nextOf, List.head?_cons, Option.getD_some, Block.stop] at *
      omega
    obtain ⟨k', g', hk', hg'⟩ := hs.serves.owner z hzmem hzal
    have hne : k' ≠ k := by
      rintro rfl
      obtain rfl := Option.some.inj (hk'.symm.trans hk)
      omega
    have hapart := hpres.apart k' g' hk' hne
    have hext : chunksize ≤ reallocExtension h s n := Nat.le_max_right _ _
    have hchunk : chunksize = 4096 := rfl
    have hsize : σ'.blockSize (A.start + s.block.off) = _ :=
      blockSize_eq (b := ⟨s.block.off, _, true⟩) htag
    simp only [hsize, hg'] at hapart
    omega

theorem Sound.alloc_of_live (hs : Sound c h) (s : Spot h.blocks)
    (hk : c.ledger.live k = some g) (hg : g.ptr = A.start + s.block.off) :
    s.block.alloc = true := by
  obtain ⟨b, hb, hal, hg', -⟩ := hs.serves.block hk
  rwa [h.shape.eq_of_off hb s.mem (by omega)] at hal

/-- `mm_realloc` is safe for the other blocks unless it overruns: the heap is extended for a
block behind which there is a free block and then a block in use. -/
theorem reallocSafe_iff (hc : Reachable c) (hr : Holds c.machine h) (s : Spot h.blocks)
    (hk : c.ledger.live k = some g) (hg : g.ptr = A.start + s.block.off) (r : Request) :
    ReallocSafe c k g.ptr r.1 ↔ ¬ Overruns h s (need r.1) := by
  obtain ⟨h', hs'⟩ := hc.sound
  have hs := hs'.of_holds hr
  have hint : intMax = 2147483647 := rfl
  have hrange := r.2
  rw [hg]
  rcases mmRealloc_cases hr s (hs.alloc_of_live s hk hg) r.2.1 (by omega) with
    ⟨hover, -, -, b, h₁, σ₁, hret, hres⟩ | ⟨hcramped, hret⟩ | ⟨hover, σ₁, hret, htag, -⟩ |
      ⟨hstuck, hfail⟩
  · refine iff_of_true (fun p σ' hret' _ => ?_) hover
    obtain ⟨rfl, rfl⟩ := hret.unique hret'
    exact hres.preserves hs hk hg
  · refine iff_of_true (fun p σ' hret' hp => ?_) fun hover => ?_
    · exact absurd (hret.unique hret').1.symm hp
    · exact absurd hcramped.2.2 (Nat.not_lt.mpr hover.2.2.2)
  · refine iff_of_false (fun hsafe => ?_) (not_not.mpr hover)
    have hA := A.pos
    exact hover.not_preserves hs hk hg htag (hsafe _ _ hret (by omega))
  · refine iff_of_true (fun p σ' hret' _ => ?_) fun hover => hstuck.1 hover.1
    exact absurd hfail hret'.not_fails

/-- The first block of two moves away from the second one. -/
theorem paired_reallocSafe : ReallocSafe paired 0 4112 50 := by
  obtain ⟨h, hs, hblocks⟩ := paired_blocks
  let s : Spot h.blocks :=
    ⟨[], ⟨16, 32, true⟩, [⟨48, 32, true⟩, ⟨80, 4032, false⟩], hblocks.symm⟩
  refine (reallocSafe_iff paired_reachable hs.holds s (g := ⟨4112, 24⟩) rfl rfl
    ⟨50, by decide⟩).mpr fun hover => ?_
  cases hover.1 _ (rfl : s.post.head? = some ⟨48, 32, true⟩)

/-- After a third one, when the second was freed again. -/
def gapped : Client .low Statics := freeAt (mallocAt paired .small 4176) 1 4144

private theorem gapped_live :
    (mallocAt paired .small 4176).ledger.live 1 = some ⟨4144, 24⟩ := rfl

theorem gapped_reachable : Reachable gapped :=
  (paired_reachable.mallocAt (by decide +kernel)).freeAt gapped_live (by decide +kernel)

/-- The first block grows over the third. -/
theorem not_reallocSafe_gapped : Reachable gapped ∧
    gapped.ledger.live 0 = some ⟨4112, 24⟩ ∧ gapped.ledger.live 2 = some ⟨4176, 24⟩ ∧
      ¬ ReallocSafe gapped 0 4112 5000 := by
  refine ⟨gapped_reachable, rfl, rfl, fun hsafe => ?_⟩
  have hret : result (mmRealloc 4112 5000) gapped.machine = some 4112 := by decide +kernel
  have hapart := (hsafe _ _ (.of_result hret) (by decide)).apart 2 ⟨4176, 24⟩ rfl (by decide)
  have hsize : (after (mmRealloc 4112 5000) gapped.machine).blockSize 4112 = 5008 := by
    decide +kernel
  rw [hsize] at hapart
  simp only at hapart
  omega

/-! ## The data of the client -/

/-- A pointer that `mm_realloc` returns is to a block that is large enough and has the bytes
of the old one, also where the block overruns others. -/
theorem realloc_keeps_data (hc : Reachable c) (hk : c.ledger.live k = some g) (r : Request)
    {p : Nat} {σ' : Machine A Statics} (hret : Returns (mmRealloc g.ptr r.1) c.machine p σ')
    (hp : p ≠ 0) :
    r.1 ≤ σ'.blockSize p - 8 ∧ ∀ i < min (c.machine.blockSize g.ptr - 8) r.1,
      σ'.storage (p - A.start + i) = c.machine.storage (g.ptr - A.start + i) := by
  obtain ⟨h, hs⟩ := hc.sound
  obtain ⟨s, hal, hg, -⟩ := hs.spot hk
  have hint : intMax = 2147483647 := rfl
  have hrange := r.2
  have hneed := (need_ok r.1).2
  have hold : c.machine.blockSize g.ptr = s.block.size := by
    rw [hg]
    exact blockSize_eq (hs.holds.tagged.header _ s.mem)
  rw [hold, hg, Nat.add_sub_cancel_left]
  rw [hg] at hret
  rcases mmRealloc_cases hs.holds s hal r.2.1 (by omega) with
    ⟨-, -, -, b, h', σ₁, hret', hres⟩ | ⟨-, hret'⟩ | ⟨-, σ₁, hret', htag, hkept⟩ | ⟨-, hfail⟩
  · obtain ⟨rfl, rfl⟩ := hret'.unique hret
    have hmem : b ∈ h'.blocks := (hres.blocks b hres.alloc).mpr (.inl rfl)
    have henough := hres.enough
    rw [blockSize_eq (A := A) (hres.holds.tagged.header b hmem), Nat.add_sub_cancel_left]
    exact ⟨by omega, fun i hi => hres.contents i (by omega)⟩
  · exact absurd (hret'.unique hret).1.symm hp
  · obtain ⟨rfl, rfl⟩ := hret'.unique hret
    have hsize : σ₁.blockSize (A.start + s.block.off) = _ :=
      blockSize_eq (b := ⟨s.block.off, _, true⟩) htag
    rw [hsize, Nat.add_sub_cancel_left]
    simp only [reallocExtension]
    exact ⟨by omega, fun i hi => hkept i (by omega)⟩
  · exact absurd hfail hret.not_fails

/-- The first block of two moves to 50 bytes, with its 24 bytes. -/
theorem paired_keeps_data : ∃ σ', Returns (mmRealloc 4112 50) paired.machine 4176 σ' ∧
    50 ≤ σ'.blockSize 4176 - 8 ∧
      ∀ i < 24, σ'.storage (80 + i) = paired.machine.storage (16 + i) := by
  have hret : result (mmRealloc 4112 50) paired.machine = some 4176 := by decide +kernel
  obtain ⟨hlarge, hbytes⟩ := realloc_keeps_data paired_reachable (k := 0) (g := ⟨4112, 24⟩) rfl
    ⟨50, by decide⟩ (.of_result hret) (by decide)
  have hsize : paired.machine.blockSize 4112 = 32 := by decide +kernel
  rw [hsize] at hbytes
  exact ⟨_, .of_result hret, hlarge, hbytes⟩

/-! ## Failing -/

/-- If the heap cannot grow enough for the request, `mm_malloc` and `mm_realloc` return
`NULL` and the state is as it was. -/
structure FailsCleanly (c : Client A Statics) (h : Heap) (s : Spot h.blocks) (size : Nat) :
    Prop where
  malloc : Starved h (need size) → Returns (mmMalloc size) c.machine 0 c.machine
  realloc : Cramped h s (need size) ∨ Stuck h s (need size) →
    Returns (mmRealloc (A.start + s.block.off) size) c.machine 0 c.machine

/-- A request that cannot be served is refused. -/
theorem Starved.returns {size : Nat} (hr : Holds c.machine h) (hpos : 0 < size)
    (hsize : size ≤ 2 ^ 32 - 16) (hstarved : Starved h (need size)) :
    Returns (mmMalloc size) c.machine 0 c.machine := by
  have hret := mmMalloc_ensures hr hpos hsize
  rcases h.malloc_cases (need size) (need_ok size).1 with
    ⟨s, hal, hle, hfit, -⟩ | ⟨-, hgrow, -⟩ | ⟨-, -, hm⟩
  · rw [hstarved.1] at hfit
    cases hfit
  · exact absurd hstarved.2 (Nat.not_lt.mpr hgrow)
  · rw [hm] at hret
    obtain ⟨p, σ', hret, rfl, rfl⟩ := hret
    exact hret

/-- Failing is clean unless the block has to move and there is no place for it. -/
theorem failsCleanly_iff (hc : Reachable c) (hr : Holds c.machine h) (s : Spot h.blocks)
    (hk : c.ledger.live k = some g) (hg : g.ptr = A.start + s.block.off) (r : Request) :
    FailsCleanly c h s r.1 ↔ ¬ Stuck h s (need r.1) := by
  obtain ⟨h', hs'⟩ := hc.sound
  have hs := hs'.of_holds hr
  have hint : intMax = 2147483647 := rfl
  have hrange := r.2
  have hcases := mmRealloc_cases hr s (hs.alloc_of_live s hk hg) r.2.1 (by omega)
  constructor
  · intro hclean hstuck
    rcases hcases with ⟨-, -, hnot, -⟩ | ⟨hcramped, -⟩ | ⟨hover, -⟩ | ⟨-, hfail⟩
    · exact hnot hstuck
    · exact hstuck.1 hcramped.1
    · exact hstuck.1 hover.1
    · exact (hclean.realloc (.inr hstuck)).not_fails hfail
  · intro hnot
    refine ⟨fun hstarved => hstarved.returns hr (by omega) (by omega), fun hor => ?_⟩
    have hcramped := hor.resolve_right hnot
    rcases hcases with ⟨-, hnot', -⟩ | ⟨-, hret⟩ | ⟨hover, -⟩ | ⟨hstuck, -⟩
    · exact absurd hcramped hnot'
    · exact hret
    · exact absurd hcramped.2.2 (Nat.not_lt.mpr hover.2.2.2)
    · exact absurd hstuck hnot

/-- The second block of two cannot grow to `INT_MAX` bytes, and stays as it is. -/
theorem paired_failsCleanly : ∃ (h : Heap) (s : Spot h.blocks), Holds paired.machine h ∧
    Arena.low.start + s.block.off = 4144 ∧ Cramped h s (need intMax) ∧
      FailsCleanly paired h s intMax := by
  obtain ⟨h, hs, hblocks⟩ := paired_blocks
  let s : Spot h.blocks :=
    ⟨[⟨16, 32, true⟩], ⟨48, 32, true⟩, [⟨80, 4032, false⟩], hblocks.symm⟩
  have hopen : Open h s := fun y hy => by
    obtain rfl := Option.some.inj hy
    rfl
  have hlarge : 32 + 4032 + maxHeap < need intMax := by decide
  have hext : need intMax - (32 + 4032) ≤ reallocExtension h s (need intMax) :=
    Nat.le_max_left _ _
  refine ⟨h, s, hs.holds, rfl, ⟨hopen, ?_, by omega⟩, ?_⟩
  · exact lt_of_le_of_lt (Nat.le_add_right (32 + 4032) maxHeap) hlarge
  · exact (failsCleanly_iff paired_reachable hs.holds s (k := 1) (g := ⟨4144, 24⟩) rfl rfl
      ⟨intMax, by decide⟩).mpr fun hstuck => hstuck.1 hopen

/-- A block with another one behind it cannot move to where there is room for `INT_MAX`
bytes, and is copied to `NULL`. -/
theorem not_failsCleanly_paired : Reachable paired ∧ paired.ledger.live 0 = some ⟨4112, 24⟩ ∧
    ∃ (h : Heap) (s : Spot h.blocks), Holds paired.machine h ∧
      Arena.low.start + s.block.off = 4112 ∧ ¬ FailsCleanly paired h s intMax := by
  have hlive : paired.ledger.live 0 = some ⟨4112, 24⟩ := rfl
  obtain ⟨h, hs⟩ := paired_reachable.sound
  obtain ⟨s, hal, hg, -⟩ := hs.spot hlive
  have hg : Arena.low.start + s.block.off = 4112 := hg.symm
  refine ⟨paired_reachable, hlive, h, s, hs.holds, hg, fun hclean => ?_⟩
  have hfault : fault (mmRealloc 4112 intMax) paired.machine = some (.segv 0) := by
    decide +kernel
  have hfail := Fails.of_fault hfault
  rw [← hg] at hfail
  have hcases := mmRealloc_cases hs.holds s hal (show 0 < intMax by decide) (by decide)
  rcases hcases with ⟨-, -, -, b, h', σ', hret, -⟩ | ⟨-, hret⟩ | ⟨-, σ', hret, -⟩ | ⟨hstuck, -⟩
  · exact hret.not_fails hfail
  · exact hret.not_fails hfail
  · exact hret.not_fails hfail
  · exact (hclean.realloc (.inr hstuck)).not_fails hfail

end CToys.Malloc.Segregated
