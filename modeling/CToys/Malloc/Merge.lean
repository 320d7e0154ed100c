import CToys.Malloc.Blocks
import Mathlib.Data.List.Chain
import Mathlib.Algebra.BigOperators.Ring.List
import Mathlib.Algebra.Ring.Nat

/-!
# Merging and cutting blocks

What coalescing does to a block sequence, apart from any memory.  A block between `pre`
and `post` becomes free and is fused with the free block at the end of `pre` and the free
block at the start of `post`, if there are such.  `freeBefore` and `freeBehind` are these
neighbours as lists of at most one block, `restBefore` and `restBehind` are what is left
of the two sides, and `fuse` is the block over the bytes of a run.

The fused block takes part in no further merge, so the sequence has again no two free
blocks in a row (`merge_coalesced`), and no byte in use changes hands
(`inUse_merge`).
-/

namespace CToys.Malloc

/-- The free block at the end of `pre`, if it ends in one. -/
def freeBefore (pre : List Block) : List Block :=
  if (prevOf pre).alloc then [] else [prevOf pre]

/-- What is before the free block at the end of `pre`. -/
def restBefore (pre : List Block) : List Block :=
  if (prevOf pre).alloc then pre else pre.dropLast

/-- The free block at the start of `post`, if it starts with one. -/
def freeBehind : List Block → List Block
  | [] => []
  | y :: _ => if y.alloc then [] else [y]

/-- What is behind the free block at the start of `post`. -/
def restBehind : List Block → List Block
  | [] => []
  | y :: post => if y.alloc then y :: post else post

/-- The free block over the bytes of a run. -/
def fuse (run : List Block) : Block :=
  ⟨(run.head?.getD .prologue).off, (run.map Block.size).sum, false⟩

/-- The run that is merged when `b` between `pre` and `post` becomes free. -/
def mergeRun (pre : List Block) (b : Block) (post : List Block) : List Block :=
  freeBefore pre ++ b :: freeBehind post

/-- The block that results when `b` between `pre` and `post` becomes free. -/
def merged (pre : List Block) (b : Block) (post : List Block) : Block :=
  fuse (mergeRun pre b post)

/-- The blocks after `b` between `pre` and `post` became free. -/
def merge (pre : List Block) (b : Block) (post : List Block) : List Block :=
  restBefore pre ++ merged pre b post :: restBehind post

/-! ## The neighbours -/

variable {pre post : List Block} {b c : Block} {e : Nat}

theorem prevOf_concat (pre : List Block) (x : Block) : prevOf (pre ++ [x]) = x := by
  simp [prevOf]

theorem restBefore_append (pre : List Block) : restBefore pre ++ freeBefore pre = pre := by
  rcases List.eq_nil_or_concat pre with rfl | ⟨pre, x, rfl⟩
  · simp [restBefore, freeBefore, prevOf, Block.prologue]
  · simp only [restBefore, freeBefore, List.concat_eq_append, prevOf_concat]
    split <;> simp

theorem freeBehind_append (post : List Block) : freeBehind post ++ restBehind post = post := by
  cases post with
  | nil => rfl
  | cons y post =>
    simp only [restBehind, freeBehind]
    split <;> simp

theorem freeBefore_alloc (h : c ∈ freeBefore pre) : c.alloc = false := by
  unfold freeBefore at h
  split at h
  · simp at h
  · simp_all

theorem freeBehind_alloc (h : c ∈ freeBehind post) : c.alloc = false := by
  cases post with
  | nil => simp [freeBehind] at h
  | cons y post =>
    simp only [freeBehind] at h
    split at h <;> simp_all

/-- With an allocated block before, nothing is merged on that side. -/
theorem freeBefore_eq_nil (h : (prevOf pre).alloc = true) :
    freeBefore pre = [] ∧ restBefore pre = pre := by
  simp [freeBefore, restBefore, h]

/-- With a free block before, that block is merged. -/
theorem freeBefore_eq_singleton (h : (prevOf pre).alloc = false) :
    freeBefore pre = [prevOf pre] ∧ pre = restBefore pre ++ [prevOf pre] := by
  have hfree : freeBefore pre = [prevOf pre] := by simp [freeBefore, h]
  exact ⟨hfree, by rw [← hfree, restBefore_append]⟩

theorem freeBehind_eq_nil (h : (nextOf post e).alloc = true) :
    freeBehind post = [] ∧ restBehind post = post := by
  cases post with
  | nil => exact ⟨rfl, rfl⟩
  | cons y post =>
    have hy : y.alloc = true := by simpa [nextOf] using h
    simp [freeBehind, restBehind, hy]

theorem freeBehind_eq_singleton (h : (nextOf post e).alloc = false) :
    freeBehind post = [nextOf post e] ∧ post = nextOf post e :: restBehind post := by
  cases post with
  | nil => simp [nextOf, Block.epilogue] at h
  | cons y post =>
    have hy : y.alloc = false := by simpa [nextOf] using h
    simp [freeBehind, restBehind, nextOf, hy]

/-- The blocks before the merge, with the run that is merged in the middle. -/
theorem split_mergeRun (pre : List Block) (b : Block) (post : List Block) :
    restBefore pre ++ mergeRun pre b post ++ restBehind post = pre ++ b :: post := by
  conv_rhs => rw [← restBefore_append pre, ← freeBehind_append post]
  simp [mergeRun]

/-- A side consists of what is left and of the free neighbour. -/
theorem mem_sides :
    c ∈ pre ++ post ↔ c ∈ restBefore pre ++ restBehind post ∨
      c ∈ freeBefore pre ++ freeBehind post := by
  conv_lhs => rw [← restBefore_append pre, ← freeBehind_append post]
  simp only [List.mem_append]
  tauto

/-! ## The fused block -/

/-- A run of blocks may be fused into one. -/
theorem tiles_fuse {run : List Block} {a d : Nat} (hne : run ≠ [])
    (h : Tiles Block.off Block.stop a run d) : Tiles Block.off Block.stop a [fuse run] d := by
  have hsum : ∀ (run : List Block) (a : Nat), Tiles Block.off Block.stop a run d →
      a + (run.map Block.size).sum = d := by
    intro run
    induction run with
    | nil => intro a h; simpa using h
    | cons x run ih =>
      intro a h
      obtain ⟨rfl, -, h3⟩ := h
      have := ih _ h3
      simp only [Block.stop] at this
      simp only [List.map_cons, List.sum_cons]
      omega
  cases run with
  | nil => exact absurd rfl hne
  | cons x run =>
    have hd := hsum _ _ h
    obtain ⟨rfl, h2, h3⟩ := h
    have := h3.le
    refine ⟨rfl, ?_, ?_⟩
    · simp only [Block.stop, fuse, List.head?_cons, Option.getD_some] at *
      omega
    · simp only [Block.stop, fuse, List.head?_cons, Option.getD_some, tiles_nil] at *
      omega

theorem fuse_size {run : List Block} (hne : run ≠ [])
    (hs : ∀ x ∈ run, 8 ∣ x.size ∧ 16 ≤ x.size) : 8 ∣ (fuse run).size ∧ 16 ≤ (fuse run).size := by
  have hdvd : 8 ∣ (run.map Block.size).sum :=
    List.dvd_sum (by simpa using fun x hx => (hs x hx).1)
  cases run with
  | nil => exact absurd rfl hne
  | cons x run =>
    have hx := (hs x (by simp)).2
    refine ⟨hdvd, ?_⟩
    simp only [fuse, List.map_cons, List.sum_cons]
    omega

theorem mergeRun_ne_nil : mergeRun pre b post ≠ [] := by
  simp [mergeRun]

theorem mergeRun_sub (h : c ∈ mergeRun pre b post) : c ∈ pre ++ b :: post := by
  rw [← split_mergeRun]
  simp [h]

theorem Shape.merge (h : Shape (pre ++ b :: post) e) : Shape (merge pre b post) e := by
  rw [← split_mergeRun] at h
  have hr := h.replace [merged pre b post]
    (fun _ _ ht => tiles_fuse mergeRun_ne_nil ht) ?_
  · simpa [Malloc.merge] using hr
  · intro c hc
    rw [List.mem_singleton.mp hc]
    refine fuse_size mergeRun_ne_nil fun x hx => h.size x ?_
    simp [hx]

theorem merged_alloc : (merged pre b post).alloc = false := rfl

/-- Where the merged block starts. -/
theorem merged_off :
    (merged pre b post).off = if (prevOf pre).alloc then b.off else (prevOf pre).off := by
  simp only [merged, mergeRun, fuse, freeBefore]
  split <;> rfl

/-- How large it is. -/
theorem merged_size (pre : List Block) (b : Block) (post : List Block) (e : Nat) :
    (merged pre b post).size = (if (prevOf pre).alloc then 0 else (prevOf pre).size) + b.size
      + if (nextOf post e).alloc then 0 else (nextOf post e).size := by
  have hbehind : ((freeBehind post).map Block.size).sum
      = if (nextOf post e).alloc then 0 else (nextOf post e).size := by
    cases post with
    | nil => rfl
    | cons y post =>
      simp only [freeBehind, nextOf, List.head?_cons, Option.getD_some]
      by_cases hy : y.alloc <;> simp [hy]
  simp only [merged, mergeRun, fuse, freeBefore, List.map_append, List.sum_append, List.map_cons,
    List.sum_cons, hbehind]
  split
  · simp
  · simp
    omega

/-- The merged block covers the blocks of the run. -/
theorem merged_covers_run (h : Shape (pre ++ b :: post) e) (hc : c ∈ mergeRun pre b post) :
    (merged pre b post).off ≤ c.off ∧
      c.off + c.size ≤ (merged pre b post).off + (merged pre b post).size := by
  have ht := h.tiles
  rw [← split_mergeRun] at ht
  obtain ⟨d, ht, -⟩ := tiles_append.mp ht
  obtain ⟨a, -, hrun⟩ := tiles_append.mp ht
  have hc := hrun.bounds hc
  obtain ⟨h1, -, h2⟩ := tiles_fuse mergeRun_ne_nil hrun
  rw [tiles_nil] at h2
  simp only [Block.stop, merged] at *
  omega

/-- In particular the block that became free. -/
theorem merged_covers (h : Shape (pre ++ b :: post) e) :
    (merged pre b post).off ≤ b.off ∧
      b.off + b.size ≤ (merged pre b post).off + (merged pre b post).size :=
  merged_covers_run h (by simp [mergeRun])

theorem mem_merge : c ∈ merge pre b post ↔ c = merged pre b post ∨
    c ∈ restBefore pre ++ restBehind post :=
  mem_middle

/-- The free blocks after a merge. -/
theorem mem_merge_of_free (h : Shape (pre ++ b :: post) e) :
    c ∈ merge pre b post ↔ c = merged pre b post ∨
      c ∈ pre ++ post ∧ c ∉ freeBefore pre ++ freeBehind post := by
  have hnd := h.nodup
  rw [← split_mergeRun] at hnd
  have hdis : c ∈ restBefore pre ++ restBehind post →
      c ∉ freeBefore pre ++ freeBehind post := by
    intro h1 h2
    simp only [mergeRun, List.append_assoc, List.nodup_append, List.cons_append,
      List.nodup_cons] at hnd
    simp only [List.mem_append] at h1 h2
    grind
  rw [mem_merge]
  refine or_congr_right ⟨fun hrest => ⟨mem_sides.mpr (.inl hrest), hdis hrest⟩, ?_⟩
  rintro ⟨hc, hgone⟩
  exact (mem_sides.mp hc).resolve_right hgone

/-- A merge leaves the allocated blocks alone. -/
theorem mem_merge_of_alloc (hb : b.alloc = false) (hc : c.alloc = true) :
    c ∈ merge pre b post ↔ c ∈ pre ++ b :: post := by
  have h1 : c ∉ freeBefore pre := fun h => by simp [freeBefore_alloc h] at hc
  have h2 : c ∉ freeBehind post := fun h => by simp [freeBehind_alloc h] at hc
  have h3 : c ≠ merged pre b post := fun h => by simp [h, merged_alloc] at hc
  have h4 : c ≠ b := fun h => by simp [h, hb] at hc
  rw [← split_mergeRun]
  simp [merge, mergeRun, h1, h2, h3, h4]

theorem inUse_merge (hb : b.alloc = false) {a : Nat} :
    InUse (merge pre b post) a ↔ InUse (pre ++ b :: post) a := by
  constructor
  · rintro ⟨c, hc, hal, hp⟩
    exact ⟨c, (mem_merge_of_alloc hb hal).mp hc, hal, hp⟩
  · rintro ⟨c, hc, hal, hp⟩
    exact ⟨c, (mem_merge_of_alloc hb hal).mpr hc, hal, hp⟩

/-! ## No two free blocks in a row -/

namespace Coalesced

theorem of_append (h : Coalesced (pre ++ b :: post)) : Coalesced pre ∧ Coalesced post := by
  obtain ⟨h1, h2, -⟩ := List.isChain_append.mp h
  exact ⟨h1, h2.tail⟩

/-- A free block fits in where both neighbours are allocated. -/
theorem glue (h1 : Coalesced pre) (h2 : Coalesced post)
    (hp : (prevOf pre).alloc = true) (hn : (nextOf post e).alloc = true) :
    Coalesced (pre ++ b :: post) := by
  refine List.isChain_append.mpr ⟨h1, List.isChain_cons.mpr ⟨?_, h2⟩, ?_⟩
  · intro y hy
    rw [nextOf, Option.mem_def.mp hy] at hn
    exact .inr hn
  · intro x hx y hy
    rw [prevOf, Option.mem_def.mp hx] at hp
    exact .inl hp

/-- An allocated block fits in anywhere. -/
theorem insert_alloc (h1 : Coalesced pre) (h2 : Coalesced post) (hb : b.alloc = true) :
    Coalesced (pre ++ b :: post) := by
  refine List.isChain_append.mpr ⟨h1, List.isChain_cons.mpr ⟨?_, h2⟩, ?_⟩
  · exact fun y _ => .inl hb
  · intro x _ y hy
    have : y = b := by simpa using hy.symm
    exact .inr (this ▸ hb)

theorem restBefore (h : Coalesced pre) :
    Coalesced (restBefore pre) ∧ (prevOf (Malloc.restBefore pre)).alloc = true := by
  by_cases hal : (prevOf pre).alloc = true
  · rw [(freeBefore_eq_nil hal).2]
    exact ⟨h, hal⟩
  · rw [Bool.not_eq_true] at hal
    have hsplit := (freeBefore_eq_singleton hal).2
    rw [hsplit] at h
    obtain ⟨h1, -, hseam⟩ := List.isChain_append.mp h
    refine ⟨h1, ?_⟩
    rcases List.eq_nil_or_concat (Malloc.restBefore pre) with hnil | ⟨l, x, hx⟩
    · rw [hnil]; rfl
    · rw [hx, List.concat_eq_append] at hseam ⊢
      have := hseam x (by simp) (prevOf pre) (by simp)
      rw [prevOf_concat]
      simpa [hal] using this

theorem restBehind (h : Coalesced post) :
    Coalesced (restBehind post) ∧ (nextOf (Malloc.restBehind post) e).alloc = true := by
  cases post with
  | nil => exact ⟨h, rfl⟩
  | cons y post =>
    by_cases hy : y.alloc = true
    · simp [Malloc.restBehind, hy, nextOf, h]
    · simp only [Malloc.restBehind, if_neg hy]
      refine ⟨h.tail, ?_⟩
      cases post with
      | nil => rfl
      | cons z post =>
        have := (List.isChain_cons_cons.mp h).1
        simpa [nextOf, hy] using this

/-- Merging leaves no two free blocks in a row. -/
theorem merge (h1 : Coalesced pre) (h2 : Coalesced post) : Coalesced (merge pre b post) :=
  h1.restBefore.1.glue (h2.restBehind (e := 0)).1 h1.restBefore.2 (h2.restBehind (e := 0)).2

end Coalesced

end CToys.Malloc
