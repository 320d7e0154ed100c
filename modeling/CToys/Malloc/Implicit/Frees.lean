import CToys.Malloc.Frees
import CToys.Malloc.Implicit.Client

/-!
# Frees commute, with the rover

As for the segregated allocator, the order of a row of frees does not change the blocks
that are left.  The rover is moved on the way, by some of the merges, and ends at the same
block too.

The reason is that each merge keeps the address that the rover had at the start inside the
block where the rover is (`Covers.merge`), and in the end only one block contains that
address.
-/

namespace CToys.Malloc.Implicit

variable {A : Arena} {c d : Client A Statics} {h : Heap} {ks : List Nat}

/-- The block at offset `o`, which may be the prologue, contains offset `a`. -/
def Covers (bs : List Block) (o a : Nat) : Prop :=
  ∃ b ∈ Block.prologue :: bs, b.off = o ∧ b.off ≤ a ∧ a < b.stop

namespace Covers

variable {bs pre post : List Block} {b : Block} {e o o' a : Nat}

/-- The rover is inside its block. -/
theorem of_atBlock (h : AtBlock bs o) (hs : Shape bs e) : Covers bs o o := by
  obtain ⟨b, hb, rfl⟩ := h
  refine ⟨b, hb, rfl, le_rfl, ?_⟩
  rcases List.mem_cons.mp hb with rfl | hb
  · decide
  · have hpos := (hs.bounds hb).2.2.2.1
    exact Nat.lt_add_of_pos_right (by omega)

/-- Only one block contains an address. -/
theorem unique (h : Covers bs o a) (h' : Covers bs o' a) (hs : Shape bs e) : o = o' := by
  obtain ⟨b, hb, rfl, h1, h2⟩ := h
  obtain ⟨b', hb', rfl, h1', h2'⟩ := h'
  have ht : Tiles Block.off Block.stop 8 (Block.prologue :: bs) e :=
    ⟨rfl, by decide, hs.tiles⟩
  rcases ht.apart hb hb' with rfl | h | h <;> omega

/-- The rover follows the address into the merged block. -/
theorem merge (h : Covers (pre ++ b :: post) o a) (hs : Shape (pre ++ b :: post) e) :
    Covers (merge pre b post) (follow (merged pre b post) o) a := by
  have hmem : merged pre b post ∈ Block.prologue :: Malloc.merge pre b post := by
    simp [Malloc.merge]
  obtain ⟨c, hc, rfl, h1, h2⟩ := h
  have hside (hc : c ∈ Block.prologue :: Malloc.merge pre b post) :
      Covers (Malloc.merge pre b post) (follow (merged pre b post) c.off) a := by
    have hat : AtBlock (Malloc.merge pre b post) c.off := ⟨c, hc, rfl⟩
    have hfollow : follow (merged pre b post) c.off = c.off := hat.follow_eq hs.merge
    rw [hfollow]
    exact ⟨c, hc, rfl, h1, h2⟩
  rcases List.mem_cons.mp hc with rfl | hc
  · exact hside List.mem_cons_self
  · rw [← split_mergeRun] at hc
    simp only [List.append_assoc, List.mem_append] at hc
    rcases hc with hc | hc | hc
    · exact hside (by simp [Malloc.merge, hc])
    · -- a block of the run is swallowed, and the rover moves to the start
      have hcov := merged_covers_run hs hc
      simp only [Block.stop] at h2
      refine ⟨_, hmem, ?_, by omega, by simp only [Block.stop]; omega⟩
      unfold follow
      split <;> omega
    · exact hside (by simp [Malloc.merge, hc])

/-- So does `mm_free`. -/
theorem release (h : Heap) (s : Spot h.blocks) (hcov : Covers h.blocks h.rover a) :
    Covers (h.release s).blocks (h.release s).rover a := by
  refine Covers.merge ?_ (h.shape_freed s)
  obtain ⟨b, hb, hoff, h1, h2⟩ := hcov
  rw [← s.split] at hb
  by_cases hbs : b = s.block
  · subst hbs
    exact ⟨s.block.freed, by simp, hoff, h1, h2⟩
  · have hb' : b ∈ (.prologue :: s.pre) ++ s.block :: s.post := hb
    have hfreed : b ∈ (.prologue :: s.pre) ++ s.block.freed :: s.post := mem_replace hb' hbs
    exact ⟨b, hfreed, hoff, h1, h2⟩

end Covers

/-! ## Rows of frees -/

/-- The calls that free the blocks of the calls `ks`. -/
def frees (ks : List Nat) : List Event := ks.map Event.free

/-- Clients can free any live blocks in any order. -/
theorem Sound.frees_run (hs : Sound c h) (hnd : ks.Nodup)
    (hlive : ∀ k ∈ ks, c.ledger.live k ≠ none) : ∃ d, Run Step c (frees ks) d := by
  refine exists_frees (I := fun c => ∃ h, Sound c h) ?_ ⟨h, hs⟩ hnd hlive
  rintro c k ⟨h, hs⟩ hk
  obtain ⟨g, hg⟩ := Option.ne_none_iff_exists'.mp hk
  obtain ⟨s, -, hptr, -⟩ := hs.spot hg
  obtain ⟨σ, hret, hs', -⟩ := hs.free hg s hptr
  exact ⟨_, .free hg hret, ⟨_, hs'⟩, rfl⟩

/-- Freeing blocks takes them out of the heap, and the rover follows. -/
theorem Sound.frees {a : Nat} (hs : Sound c h) (hne : h.blocks ≠ [])
    (hcov : Covers h.blocks h.rover a) (hnd : ks.Nodup) (hrun : Run Step c (frees ks) d) :
    ∃ h', Sound d h' ∧ h'.blocks ≠ [] ∧ Covers h'.blocks h'.rover a ∧
      Freed A c.ledger ks h.toLayout h'.toLayout := by
  induction ks generalizing c h with
  | nil =>
    cases hrun
    exact ⟨h, hs, hne, hcov, .nil⟩
  | cons k ks ih =>
    obtain ⟨hk, hnd⟩ := List.nodup_cons.mp hnd
    cases hrun with | cons hstep hrun =>
    cases hstep with | @free _ g σ hlive hret =>
    obtain ⟨s, -, hg, -⟩ := hs.spot hlive
    obtain ⟨σ', hret', hs', -⟩ := hs.free hlive s hg
    obtain ⟨-, rfl⟩ := hret'.unique hret
    obtain ⟨h', hd, hne', hcov', hfreed⟩ :=
      ih hs' Layout.release_ne_nil (hcov.release h s) hnd hrun
    exact ⟨h', hd, hne', hcov', hfreed.cons hlive hg hk⟩

/-- A layout and a rover make a heap. -/
theorem Heap.eq_of_rover {h h' : Heap} (hl : h.toLayout = h'.toLayout)
    (hr : h.rover = h'.rover) : h = h' := by
  obtain ⟨l, o, ho⟩ := h
  obtain ⟨l', o', ho'⟩ := h'
  obtain rfl : l = l' := hl
  obtain rfl : o = o' := hr
  rfl

/-- Freeing live blocks works in every order, and every order leads to the same blocks and
the same rover, which is at the block that contains the old rover.  Without live blocks a
single free block is left. -/
theorem frees_follow {ks ks' : List Nat} (hc : Reachable c) (hnd : ks.Nodup)
    (hlive : ∀ k ∈ ks, c.ledger.live k ≠ none) (hperm : ks.Perm ks') :
    (∃ d, Run Step c (frees ks') d) ∧
      ∀ d d', Run Step c (frees ks) d → Run Step c (frees ks') d' →
        ∃ h, Sound d h ∧ Sound d' h ∧
          d'.machine.statics.prevBp = d.machine.statics.prevBp ∧
          (∃ b ∈ Block.prologue :: h.blocks, d.machine.statics.prevBp = A.start + b.off ∧
            A.start + b.off ≤ c.machine.statics.prevBp ∧
            c.machine.statics.prevBp < A.start + (b.off + b.size)) ∧
          ((∀ k, c.ledger.live k ≠ none → k ∈ ks) →
            h.blocks = [⟨16, h.brk - 16, false⟩]) := by
  obtain ⟨h₀, hs, hne⟩ := hc.nonempty
  have hnd' := hperm.nodup_iff.mp hnd
  have hcov := Covers.of_atBlock h₀.current h₀.shape
  refine ⟨hs.frees_run hnd' fun k hk => hlive k (hperm.mem_iff.mpr hk), fun d d' hrun hrun' => ?_⟩
  obtain ⟨h, hd, hne₁, hcov₁, hfreed⟩ := hs.frees hne hcov hnd hrun
  obtain ⟨h', hd', -, hcov', hfreed'⟩ := hs.frees hne hcov hnd' hrun'
  have heq : h' = h := by
    have hl : h'.toLayout = h.toLayout := hfreed'.unique hfreed hperm.symm
    rw [congrArg Layout.blocks hl] at hcov'
    exact Heap.eq_of_rover hl (hcov'.unique hcov₁ h.shape)
  subst heq
  have hold := hs.holds.prevBp
  have hnew := hd.holds.prevBp
  have hnew' := hd'.holds.prevBp
  refine ⟨h', hd, hd', hnew'.trans hnew.symm, ?_, fun hall => ?_⟩
  · obtain ⟨b, hb, hoff, h1, h2⟩ := hcov₁
    simp only [Block.stop] at h2
    exact ⟨b, hb, by rw [hnew, hoff], by omega, by omega⟩
  · exact hfreed.all hs.serves hne₁ fun k g hk => hall k (by rw [hk]; simp)

/-- After two requests of 24 bytes. -/
def double : Client .low Statics := mallocAt single .small 4144

theorem double_reachable : Reachable double :=
  single_reachable.step (step_mallocAt (by decide +kernel))

/-- Both blocks, freed in either order. -/
theorem double_frees_follow : ∃ d d' h, Run Step double (frees [0, 1]) d ∧
    Run Step double (frees [1, 0]) d' ∧ Sound d h ∧ Sound d' h ∧
      h.blocks = [⟨16, h.brk - 16, false⟩] := by
  have hlive : ∀ k ∈ [0, 1], double.ledger.live k ≠ none := by decide
  have hall : ∀ k, double.ledger.live k ≠ none → k ∈ [0, 1] := by
    intro k hk
    match k with
    | 0 => simp
    | 1 => simp
    | k + 2 => exact absurd (show double.ledger.live (k + 2) = none from rfl) hk
  have hnd : [0, 1].Nodup := by decide
  have hnd' : [1, 0].Nodup := by decide
  have hperm : [0, 1].Perm [1, 0] := .swap 1 0 []
  obtain ⟨⟨d, hrun⟩, -⟩ := frees_follow double_reachable hnd' (by decide) hperm.symm
  obtain ⟨⟨d', hrun'⟩, hcommute⟩ := frees_follow double_reachable hnd hlive hperm
  obtain ⟨h, hd, hd', -, -, hone⟩ := hcommute d d' hrun hrun'
  exact ⟨d, d', h, hrun, hrun', hd, hd', hone hall⟩

end CToys.Malloc.Implicit
