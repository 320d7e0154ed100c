import CToys.Malloc.Implicit.Coalesce

/-!
# Finding the next fit

`next_fit` looks at the blocks from the rover to the end of the heap and then from the
prologue to the rover, so it sees every block once, in the cyclic order `around`.  It
returns the first one that is free and large enough, and leaves the rover there.  A search
without a hit leaves the rover where it was.

The prologue is one of the blocks that the walks visit.  It is allocated and never fits.
-/

namespace CToys.Malloc

/-- The block is free and has `n` bytes. -/
def Block.fits (n : Nat) (b : Block) : Bool := !b.alloc && decide (n ≤ b.size)

namespace Implicit

variable {A : Arena}

/-- The prologue and the blocks, from offset `o` on and round to it again. -/
def around (bs : List Block) (o : Nat) : List Block :=
  (Block.prologue :: bs).dropWhile (·.off ≠ o) ++ (Block.prologue :: bs).takeWhile (·.off ≠ o)

/-- The block that a search from offset `o` finds. -/
def fit (bs : List Block) (o n : Nat) : Option Block := (around bs o).find? (Block.fits n)

/-! ## What is found -/

section

variable {bs : List Block} {b : Block} {e o n : Nat}

private theorem mem_around {c : Block} : c ∈ around bs o ↔ c ∈ Block.prologue :: bs := by
  conv_rhs => rw [← List.takeWhile_append_dropWhile (p := (·.off ≠ o)) (l := Block.prologue :: bs)]
  simp only [around, List.mem_append]
  exact or_comm

theorem fit_mem (h : fit bs o n = some b) : b ∈ bs ∧ b.alloc = false ∧ n ≤ b.size := by
  have hmem := mem_around.mp (List.mem_of_find?_eq_some h)
  have hfits := List.find?_some h
  simp only [Block.fits, Bool.and_eq_true, Bool.not_eq_true', decide_eq_true_eq] at hfits
  refine ⟨(List.mem_cons.mp hmem).resolve_left ?_, hfits⟩
  rintro rfl
  cases hfits.1

/-- The search misses no free block. -/
theorem fit_eq_none : fit bs o n = none ↔ ∀ b ∈ bs, b.alloc = false → b.size < n := by
  simp only [fit, List.find?_eq_none, mem_around, Block.fits, Bool.and_eq_true,
    Bool.not_eq_true', decide_eq_true_eq, not_and, Nat.not_le, List.mem_cons, forall_eq_or_imp]
  exact and_iff_right fun h => absurd h (by decide)

/-- The two parts of the search. -/
theorem AtBlock.around_eq (h : AtBlock bs o) (hs : Shape bs e) :
    ∃ before c behind, Block.prologue :: bs = before ++ c :: behind ∧ c.off = o ∧
      around bs o = c :: behind ++ before := by
  obtain ⟨c, hc, rfl⟩ := h
  obtain ⟨before, behind, hsplit⟩ := List.append_of_mem hc
  have ht : Tiles Block.off Block.stop 8 (before ++ c :: behind) e := by
    rw [← hsplit]
    exact ⟨rfl, by decide, hs.tiles⟩
  have hbefore : ∀ x ∈ before, decide (x.off ≠ c.off) = true := fun x hx => by
    have := ht.split.1.bounds hx
    rw [decide_eq_true_eq]
    omega
  refine ⟨before, c, behind, hsplit, rfl, ?_⟩
  rw [around, hsplit, List.dropWhile_append_of_pos hbefore, List.takeWhile_append_of_pos hbefore]
  simp

end

/-! ## The walks -/

section

variable {σ : Machine A Statics} {e n : Nat}

/-- The machine after a search with this result. -/
def roverTo (σ : Machine A Statics) : Option Block → Machine A Statics
  | some b => withRover σ b.off
  | none => σ

/-- The result of a walk. -/
def hit (A : Arena) (b : Option Block) : Option Nat := b.map (A.start + ·.off)

private theorem fits_returns {b : Block} (h4 : 4 ≤ b.off) (hle : b.off ≤ maxHeap)
    (h : HasTag σ.storage (b.off - 4) b.size b.alloc) :
    Returns (fits n (A.start + b.off)) σ (b.fits n) σ := by
  unfold fits
  refine (getAlloc_hdrp_returns h4 hle h).bind ?_
  simp only [toNat_eq_zero]
  cases hal : b.alloc
  · rw [if_pos rfl]
    refine (getSize_hdrp_returns h4 hle h).bind ?_
    simp only [Block.fits, hal, Bool.not_false, Bool.true_and, ge_iff_le]
    exact .pure _ _
  · rw [if_neg (by simp)]
    simp only [Block.fits, hal, Bool.not_true, Bool.false_and]
    exact .pure _ _

/-- One round of a walk: the block at `bp` is the result, or the walk goes on behind it. -/
private theorem look_returns {act : Prog A Statics Unit}
    {walk : Nat → Prog A Statics (Option Nat)} {T : Option Block → Machine A Statics}
    {b : Block} {l : List Block} (h8 : 8 ≤ b.off) (hle : b.off + b.size ≤ maxHeap)
    (h : HasTag σ.storage (b.off - 4) b.size b.alloc) (hact : Returns act σ () (T (some b)))
    (hwalk : Returns (walk (A.start + (b.off + b.size))) σ (hit A (l.find? (Block.fits n)))
      (T (l.find? (Block.fits n)))) :
    Returns (do
      if ← fits n (A.start + b.off) then
        act
        return some (A.start + b.off)
      else walk (← nextBlkp (A.start + b.off))) σ (hit A ((b :: l).find? (Block.fits n)))
        (T ((b :: l).find? (Block.fits n))) := by
  refine (fits_returns (by omega) (by omega) h).bind ?_
  cases hfits : b.fits n
  · rw [if_neg (by simp), List.find?_cons_of_neg (by simp [hfits])]
    exact (nextBlkp_returns (by omega) hle h).bind hwalk
  · rw [if_pos rfl, List.find?_cons_of_pos hfits]
    exact hact.bind (.pure _ _)

private theorem firstWalk_returns (hle : e ≤ maxHeap) (hend : HasTag σ.storage (e - 4) 0 true) :
    ∀ (l : List Block) (a fuel : Nat), l.length < fuel → 8 ≤ a →
      Tiles Block.off Block.stop a l e →
      (∀ b ∈ l, HasTag σ.storage (b.off - 4) b.size b.alloc) →
      Returns (firstWalk n fuel (A.start + a)) σ (hit A (l.find? (Block.fits n))) σ
  | _, _, 0, hfuel, _, _, _ => absurd hfuel (Nat.not_lt_zero _)
  | [], a, fuel + 1, _, h8, ht, _ => by
      obtain rfl : a = e := ht
      rw [firstWalk]
      refine (getSize_hdrp_returns (by omega) hle hend).bind ?_
      rw [if_neg (by decide)]
      exact .pure _ _
  | b :: l, a, fuel + 1, hfuel, h8, ht, hh => by
      obtain ⟨rfl, hpos, hrest⟩ := ht
      have hstop := hrest.le
      simp only [Block.stop] at hpos hstop hrest
      have htag := hh b (by simp)
      have ih := firstWalk_returns hle hend l (b.off + b.size) fuel
        (Nat.lt_of_succ_lt_succ hfuel) (by omega) hrest fun c hc => hh c (by simp [hc])
      rw [firstWalk]
      refine (getSize_hdrp_returns (by omega) (by omega) htag).bind ?_
      rw [if_pos (by omega)]
      exact look_returns (T := fun _ => σ) h8 (by omega) htag (.pure _ _) ih

private theorem walkToEnd_returns (hle : e ≤ maxHeap) (hend : HasTag σ.storage (e - 4) 0 true) :
    ∀ (l : List Block) (a fuel : Nat), l.length < fuel → 8 ≤ a →
      Tiles Block.off Block.stop a l e →
      (∀ b ∈ l, HasTag σ.storage (b.off - 4) b.size b.alloc) →
      Returns (walkToEnd n fuel (A.start + a)) σ (hit A (l.find? (Block.fits n)))
        (roverTo σ (l.find? (Block.fits n)))
  | _, _, 0, hfuel, _, _, _ => absurd hfuel (Nat.not_lt_zero _)
  | [], a, fuel + 1, _, h8, ht, _ => by
      obtain rfl : a = e := ht
      rw [walkToEnd]
      refine (getSize_hdrp_returns (by omega) hle hend).bind ?_
      rw [if_neg (by decide)]
      exact .pure _ _
  | b :: l, a, fuel + 1, hfuel, h8, ht, hh => by
      obtain ⟨rfl, hpos, hrest⟩ := ht
      have hstop := hrest.le
      simp only [Block.stop] at hpos hstop hrest
      have htag := hh b (by simp)
      have ih := walkToEnd_returns hle hend l (b.off + b.size) fuel
        (Nat.lt_of_succ_lt_succ hfuel) (by omega) hrest fun c hc => hh c (by simp [hc])
      rw [walkToEnd]
      refine (getSize_hdrp_returns (by omega) (by omega) htag).bind ?_
      rw [if_pos (by omega)]
      exact look_returns (T := roverTo σ) h8 (by omega) htag rfl ih

private theorem walkToRover_returns {o : Nat} (ho : σ.statics.prevBp = A.start + o)
    (hle : o ≤ maxHeap) :
    ∀ (l : List Block) (a fuel : Nat), l.length < fuel → 8 ≤ a →
      Tiles Block.off Block.stop a l o →
      (∀ b ∈ l, HasTag σ.storage (b.off - 4) b.size b.alloc) →
      Returns (walkToRover n fuel (A.start + a)) σ (hit A (l.find? (Block.fits n)))
        (roverTo σ (l.find? (Block.fits n)))
  | _, _, 0, hfuel, _, _, _ => absurd hfuel (Nat.not_lt_zero _)
  | [], a, fuel + 1, _, _, ht, _ => by
      obtain rfl : a = o := ht
      have hget : Returns getPrevBp σ (A.start + a) σ := by
        rw [← ho]
        rfl
      rw [walkToRover]
      refine hget.bind ?_
      rw [if_neg (by simp)]
      exact .pure _ _
  | b :: l, a, fuel + 1, hfuel, h8, ht, hh => by
      obtain ⟨rfl, hpos, hrest⟩ := ht
      have hstop := hrest.le
      simp only [Block.stop] at hpos hstop hrest
      have htag := hh b (by simp)
      have ih := walkToRover_returns ho hle l (b.off + b.size) fuel
        (Nat.lt_of_succ_lt_succ hfuel) (by omega) hrest fun c hc => hh c (by simp [hc])
      have hget : Returns getPrevBp σ (A.start + o) σ := by
        rw [← ho]
        rfl
      rw [walkToRover]
      refine hget.bind ?_
      rw [if_pos (by omega)]
      exact look_returns (T := roverTo σ) h8 (by omega) htag rfl ih

variable {bs : List Block} {o : Nat}

/-- `find_fit` is the search around the heap. -/
theorem findFit_returns (hr : Represents σ bs e o) (hs : Shape bs e) (ho : AtBlock bs o) :
    Returns (findFit n) σ ((hit A (fit bs o n)).getD 0) (roverTo σ (fit bs o n)) := by
  have hmax := maxHeap_eq
  obtain ⟨before, c, behind, hsplit, rfl, haround⟩ := ho.around_eq hs
  have ht : Tiles Block.off Block.stop 8 (before ++ c :: behind) e := by
    rw [← hsplit]
    exact ⟨rfl, by decide, hs.tiles⟩
  have hh : ∀ b ∈ before ++ c :: behind, HasTag σ.storage (b.off - 4) b.size b.alloc := by
    rw [← hsplit]
    exact List.forall_mem_cons.mpr ⟨hr.tagged.prologueHeader, hr.tagged.header⟩
  have hle := hs.le
  have hlen := ht.length_le
  rw [List.length_append] at hlen
  obtain ⟨htb, hc⟩ := ht.split
  have hcoff := htb.le
  have hce := hc.2.le
  have hgetp : Returns getPrevBp σ (A.start + c.off) σ := by
    rw [← hr.prevBp]
    rfl
  have hgetl : Returns getHeapListp σ (A.start + 8) σ := by
    rw [← hr.listp]
    rfl
  have hend := walkToEnd_returns (A := A) (n := n) hle hr.tagged.epilogue (c :: behind) c.off
    walkFuel (by unfold walkFuel; omega) hcoff ⟨rfl, hc⟩
    fun b hb => hh b (List.mem_append_right _ hb)
  have hrov := walkToRover_returns (n := n) hr.prevBp (by omega) before 8 walkFuel
    (by unfold walkFuel; omega) le_rfl htb fun b hb => hh b (List.mem_append_left _ hb)
  unfold findFit nextFit
  refine hgetp.bind (hend.bind ?_)
  rw [fit, haround, List.find?_append]
  cases hfind : (c :: behind).find? (Block.fits n) with
  | some b => exact .pure _ _
  | none =>
    refine hgetl.bind (hrov.bind ?_)
    rw [Option.none_or]
    exact .pure _ _

/-- `first_fit`, which nothing calls, would return the lowest block that fits and leave the
rover alone. -/
theorem firstFit_returns (hr : Represents σ bs e o) (hs : Shape bs e) :
    Returns (firstFit n) σ ((hit A (bs.find? (Block.fits n))).getD 0) σ := by
  have hmax := maxHeap_eq
  have ht : Tiles Block.off Block.stop 8 (Block.prologue :: bs) e :=
    ⟨rfl, by decide, hs.tiles⟩
  have hle := hs.le
  have hlen := ht.length_le
  have hgetl : Returns getHeapListp σ (A.start + 8) σ := by
    rw [← hr.listp]
    rfl
  have hwalk := firstWalk_returns (A := A) (n := n) hle hr.tagged.epilogue _ 8 walkFuel
    (by unfold walkFuel; omega) le_rfl ht
    (List.forall_mem_cons.mpr ⟨hr.tagged.prologueHeader, hr.tagged.header⟩)
  rw [List.find?_cons_of_neg (by simp [Block.fits, Block.prologue])] at hwalk
  unfold firstFit
  exact hgetl.bind (hwalk.bind (.pure _ _))

/-- It fails on the same requests. -/
theorem find_fits_eq_none : bs.find? (Block.fits n) = none ↔ fit bs o n = none := by
  rw [fit_eq_none]
  simp [Block.fits]

end

end Implicit

end CToys.Malloc
