import CToys.Lib.Runs
import CToys.Malloc.Client

/-!
# Freeing several blocks

Freeing blocks one after the other goes through different merges in different orders, but
the result depends on the set of blocks only.  A layout has no two free blocks in a row,
so its allocated blocks and its break determine it (`Layout.eq_of_alloc`), and a call of
`mm_free` takes one block out of the allocated ones and leaves the break alone.

`Freed A L ks l l'` says that `l'` is `l` without the blocks of the calls `ks`.  This is
what a row of frees leads to, in whatever order.

For the same reason freeing a block that was just allocated undoes the cut, whichever piece
of the free block it was (`Served.release_eq`).
-/

namespace CToys.Malloc

/-- The allocated blocks and the break determine a layout. -/
theorem Layout.eq_of_alloc {l l' : Layout} (hbrk : l.brk = l'.brk)
    (halloc : ∀ b, b.alloc = true → (b ∈ l.blocks ↔ b ∈ l'.blocks)) : l = l' := by
  obtain ⟨bs, e, hs, hc⟩ := l
  obtain ⟨bs', e', hs', hc'⟩ := l'
  obtain rfl : e = e' := hbrk
  have hblocks : bs = bs' := by
    refine hs.tiles.eq_of_solid hs'.tiles hc hc' halloc fun b _ c _ hb hc hoff hstop => ?_
    rw [Bool.not_eq_true] at hb hc
    cases b
    cases c
    simp only [Block.stop] at hoff hstop
    simp_all
  subst hblocks
  rfl

/-- Freeing the block that served a request leads back if the break did not move. -/
theorem Served.release_eq {l l' : Layout} {n : Nat} {b : Block} (hserved : Served l n b l')
    (hbrk : l'.brk = l.brk) (s : Spot l'.blocks) (hs : s.block = b) : l'.release s = l := by
  refine Layout.eq_of_alloc hbrk fun c hc => ?_
  rw [Layout.release_alloc hc, hserved.blocks c hc, hs]
  constructor
  · rintro ⟨hcb | hmem, hne⟩
    · exact absurd hcb hne
    · exact hmem
  · intro hmem
    refine ⟨.inr hmem, ?_⟩
    rintro rfl
    have := hserved.apart c hmem hc
    have := l.shape.bounds hmem
    omega

/-- The blocks of a heap up to `e` with `m` more free bytes, merged into the last block if
that is free. -/
def appendFree (bs : List Block) (e m : Nat) : List Block :=
  match bs.getLast? with
  | none => [⟨e, m, false⟩]
  | some y =>
      if y.alloc then bs ++ [⟨e, m, false⟩] else bs.dropLast ++ [⟨y.off, y.size + m, false⟩]

theorem Layout.grow_blocks (l : Layout) {m : Nat} (hm : 8 ∣ m ∧ 16 ≤ m)
    (hle : l.brk + m ≤ maxHeap) : (l.grow m hm hle).blocks = appendFree l.blocks l.brk m := by
  unfold Layout.grow
  rcases List.eq_nil_or_concat l.blocks with hnil | ⟨bs, y, hconcat⟩
  · simp [hnil, appendFree, merge, restBefore, restBehind, merged, mergeRun, fuse, freeBefore,
      freeBehind, prevOf, grown, Block.prologue]
  · rw [List.concat_eq_append] at hconcat
    cases hy : y.alloc <;>
      simp [hconcat, hy, appendFree, merge, restBefore, restBehind, merged, mergeRun, fuse,
        freeBefore, freeBehind, prevOf, grown]

/-- A layout without allocated blocks is one free block. -/
theorem Layout.blocks_of_free {l : Layout} (hne : l.blocks ≠ [])
    (hfree : ∀ b ∈ l.blocks, b.alloc = false) : l.blocks = [⟨16, l.brk - 16, false⟩] := by
  have hs := l.shape
  have hc := l.coalesced
  match hbs : l.blocks with
  | [] => exact absurd hbs hne
  | [b] =>
    rw [hbs] at hs
    obtain ⟨h1, h2, h3⟩ := hs.tiles
    simp only [Block.stop, tiles_nil] at h1 h2 h3
    have hal := hfree b (by simp [hbs])
    have hsize : b.size = l.brk - 16 := by omega
    obtain ⟨off, size, alloc⟩ := b
    obtain rfl : off = 16 := h1
    obtain rfl : alloc = false := hal
    obtain rfl : size = l.brk - 16 := hsize
    rfl
  | b :: c :: bs =>
    -- two free blocks in a row
    have hb := hfree b (by simp [hbs])
    have hcal := hfree c (by simp [hbs])
    rw [hbs] at hc
    have := (List.isChain_cons_cons.mp hc).1
    simp [hb, hcal] at this

/-- The layout without the blocks of the calls `ks`. -/
structure Freed (A : Arena) (L : Ledger) (ks : List Nat) (l l' : Layout) : Prop where
  brk : l'.brk = l.brk
  blocks : ∀ b, b.alloc = true → (b ∈ l'.blocks ↔
    b ∈ l.blocks ∧ ∀ k ∈ ks, ∀ g, L.live k = some g → g.ptr ≠ A.start + b.off)

namespace Freed

variable {A : Arena} {L : Ledger} {k : Nat} {ks ks' : List Nat} {l l₁ l₂ : Layout}

theorem nil : Freed A L [] l l := ⟨rfl, fun b _ => by simp⟩

/-- One block is freed first. -/
theorem cons {g : Grant} {s : Spot l.blocks} (hk : L.live k = some g)
    (hg : g.ptr = A.start + s.block.off) (hks : k ∉ ks)
    (h : Freed A (L.drop k) ks (l.release s) l₁) : Freed A L (k :: ks) l l₁ := by
  refine ⟨h.brk, fun b hb => ?_⟩
  have hne : b ∈ l.blocks → (b ≠ s.block ↔ g.ptr ≠ A.start + b.off) := fun hmem => by
    refine not_congr ⟨fun e => by rw [e, hg], fun e => ?_⟩
    exact l.shape.eq_of_off hmem s.mem (by omega)
  have hlive : (∀ j ∈ ks, ∀ g, (L.drop k).live j = some g → g.ptr ≠ A.start + b.off) ↔
      ∀ j ∈ ks, ∀ g, L.live j = some g → g.ptr ≠ A.start + b.off := by
    refine forall₂_congr fun j hj => ?_
    have hjk : j ≠ k := by
      rintro rfl
      exact hks hj
    rw [Ledger.drop_live_of_ne hjk]
  rw [h.blocks b hb, Layout.release_alloc hb, hlive, List.forall_mem_cons, hk]
  simp only [Option.some.injEq, forall_eq']
  constructor
  · rintro ⟨⟨hmem, hbs⟩, hrest⟩
    exact ⟨hmem, (hne hmem).mp hbs, hrest⟩
  · rintro ⟨hmem, hbs, hrest⟩
    exact ⟨⟨hmem, (hne hmem).mpr hbs⟩, hrest⟩

/-- The order does not matter. -/
theorem unique (h₁ : Freed A L ks l l₁) (h₂ : Freed A L ks' l l₂) (hks : ks.Perm ks') :
    l₁ = l₂ := by
  refine Layout.eq_of_alloc (h₁.brk.trans h₂.brk.symm) fun b hb => ?_
  rw [h₁.blocks b hb, h₂.blocks b hb]
  refine and_congr_right fun _ => forall_congr' fun k => ?_
  rw [hks.mem_iff]

/-- Without any live block there is one free block. -/
theorem all (h : Freed A L ks l l₁) (hs : Serves A L l) (hne : l₁.blocks ≠ [])
    (hks : ∀ k g, L.live k = some g → k ∈ ks) : l₁.blocks = [⟨16, l₁.brk - 16, false⟩] := by
  refine Layout.blocks_of_free hne fun b hb => ?_
  by_contra hal
  rw [Bool.not_eq_false] at hal
  obtain ⟨hmem, hnot⟩ := (h.blocks b hal).mp hb
  obtain ⟨k, g, hk, hg⟩ := hs.owner b hmem hal
  exact hnot k (hks k g hk) g hk hg

end Freed

/-! ## Rows of frees -/

/-- Clients can free any live blocks in any order, if they can free one. -/
theorem exists_frees {σ ε : Type} {step : σ → ε → σ → Prop} {free : Nat → ε} {ledger : σ → Ledger}
    {I : σ → Prop} (hfree : ∀ c k, I c → (ledger c).live k ≠ none →
      ∃ d, step c (free k) d ∧ I d ∧ ledger d = (ledger c).drop k)
    {c : σ} {ks : List Nat} (hc : I c) (hnd : ks.Nodup)
    (hlive : ∀ k ∈ ks, (ledger c).live k ≠ none) : ∃ d, Run step c (ks.map free) d := by
  induction ks generalizing c with
  | nil => exact ⟨c, .nil⟩
  | cons k ks ih =>
    obtain ⟨hk, hnd⟩ := List.nodup_cons.mp hnd
    obtain ⟨d, hstep, hd, hledger⟩ := hfree c k hc (hlive k List.mem_cons_self)
    obtain ⟨e, hrun⟩ := ih hd hnd fun j hj => by
      have hjk : j ≠ k := by
        rintro rfl
        exact hk hj
      rw [hledger, Ledger.drop_live_of_ne hjk]
      exact hlive j (List.mem_cons_of_mem _ hj)
    exact ⟨e, .cons hstep hrun⟩

end CToys.Malloc
