import CToys.Malloc.Cut
import CToys.Malloc.Grow

/-!
# Layouts

A `Layout` is a block sequence that an allocator may be in between two calls: the blocks
tile the heap and no two free ones are in a row.  Both allocators change it in three ways
only.

*Release.*  An allocated block becomes free and is merged with its free neighbours.
*Take.*  A free block is cut, and one piece of it becomes allocated.
*Grow.*  A free block is added at the end and merged with a free one before it.

Each is defined on valid input only and yields a layout again.  A layout determines which
bytes are in use, and the three lemmas `release_alloc`, `take_alloc` and `grow_alloc` say
which blocks are allocated afterwards.
-/

namespace CToys.Malloc

/-- A block of a sequence, with its two sides. -/
structure Spot (bs : List Block) where
  /-- The blocks before. -/
  pre : List Block
  /-- The block. -/
  block : Block
  /-- The blocks behind. -/
  post : List Block
  split : pre ++ block :: post = bs

namespace Spot

variable {bs : List Block}

/-- Where a block is. -/
def of : (bs : List Block) → (b : Block) → b ∈ bs → Spot bs
  | c :: bs, b, h =>
      if e : b = c then ⟨[], c, bs, rfl⟩
      else
        let s := of bs b ((List.mem_cons.mp h).resolve_left e)
        ⟨c :: s.pre, s.block, s.post, by rw [List.cons_append, s.split]⟩

@[simp] theorem of_block {b : Block} (h : b ∈ bs) : (of bs b h).block = b := by
  induction bs with
  | nil => cases h
  | cons c bs ih =>
    rw [of]
    split
    · next e => exact e.symm
    · exact ih _

theorem mem (s : Spot bs) : s.block ∈ bs := by
  have : s.block ∈ s.pre ++ s.block :: s.post := by simp
  rwa [s.split] at this

/-- The other blocks are on the two sides. -/
theorem mem_sides (s : Spot bs) {c : Block} (hc : c ∈ bs) (hne : c ≠ s.block) :
    c ∈ s.pre ++ s.post := by
  rw [← s.split] at hc
  exact (mem_middle.mp hc).resolve_left hne

theorem mem_of_sides (s : Spot bs) {c : Block} (hc : c ∈ s.pre ++ s.post) : c ∈ bs := by
  rw [← s.split]
  exact mem_middle.mpr (.inr hc)

end Spot

/-- The blocks between two calls. -/
structure Layout where
  /-- The blocks between prologue and epilogue. -/
  blocks : List Block
  /-- The offset of the break. -/
  brk : Nat
  shape : Shape blocks brk
  coalesced : Coalesced blocks

/-- The bytes by which `mm_malloc` extends the heap for a block of `n` bytes. -/
def extension (n : Nat) : Nat := max n chunksize

theorem extension_ok {n : Nat} (hn : 8 ∣ n ∧ 16 ≤ n) :
    8 ∣ extension n ∧ 16 ≤ extension n := by
  have hchunk : chunksize = 4096 := rfl
  unfold extension
  omega

theorem chunksize_ok : 8 ∣ chunksize ∧ 16 ≤ chunksize := by decide

/-- `MAX(new_size, CHUNKSIZE)`. -/
theorem mmMax_chunksize (n : Nat) : mmMax n chunksize = extension n := by
  unfold mmMax extension
  split <;> omega

/-- The block as a free one. -/
def Block.freed (b : Block) : Block := ⟨b.off, b.size, false⟩

namespace Layout

/-- The heap that `mm_init` starts from. -/
def empty : Layout := ⟨[], 16, .nil, .nil⟩

theorem empty_room : empty.brk + chunksize ≤ maxHeap := by decide

section

variable (l : Layout) (s : Spot l.blocks)

theorem shape_at : Shape (s.pre ++ s.block :: s.post) l.brk := by
  rw [s.split]
  exact l.shape

theorem coalesced_at : Coalesced (s.pre ++ s.block :: s.post) := by
  rw [s.split]
  exact l.coalesced

theorem shape_freed : Shape (s.pre ++ s.block.freed :: s.post) l.brk := by
  have h := l.shape_at s
  rw [← List.singleton_append, ← List.append_assoc] at h ⊢
  refine h.replace _ (fun _ _ h => h) fun b hb => ?_
  rw [List.mem_singleton.mp hb]
  exact h.size s.block (by simp)

/-- Free a block. -/
def release : Layout where
  blocks := merge s.pre s.block.freed s.post
  brk := l.brk
  shape := (l.shape_freed s).merge
  coalesced := .merge (l.coalesced_at s).of_append.1 (l.coalesced_at s).of_append.2

/-- Cut a free block. -/
def take (hal : s.block.alloc = false) {n : Nat} (c : Cut s.block n) : Layout where
  blocks := s.pre ++ c.pieces ++ s.post
  brk := l.brk
  shape := c.shape (l.shape_at s)
  coalesced := (l.coalesced_at s).cut hal c

/-- Add a free block at the end. -/
def grow (n : Nat) (hn : 8 ∣ n ∧ 16 ≤ n) (hle : l.brk + n ≤ maxHeap) : Layout where
  blocks := merge l.blocks (grown l.brk n) []
  brk := l.brk + n
  shape := (l.shape.grow hn hle).merge
  coalesced := .merge l.coalesced .nil

/-- The free block at the end after growing. -/
def top (n : Nat) : Block := merged l.blocks (grown l.brk n) []

/-- Where that block is. -/
def topSpot (n : Nat) (hn : 8 ∣ n ∧ 16 ≤ n) (hle : l.brk + n ≤ maxHeap) :
    Spot (l.grow n hn hle).blocks :=
  ⟨restBefore l.blocks, l.top n, [], rfl⟩

variable {l s}

theorem top_size {n : Nat} (hn : 8 ∣ n ∧ 16 ≤ n) (hle : l.brk + n ≤ maxHeap) :
    n ≤ (l.top n).size := by
  have hcov := merged_covers (l.shape.grow hn hle)
  have hbd := (l.grow n hn hle).shape.bounds (l.topSpot n hn hle).mem
  simp only [topSpot, top, grow, grown] at *
  omega

/-- The free block at the end after an extension for `n` bytes is large enough. -/
theorem top_fits {n : Nat} (hn : 8 ∣ n ∧ 16 ≤ n) (hgrow : l.brk + extension n ≤ maxHeap) :
    n ≤ (l.topSpot (extension n) (extension_ok hn) hgrow).block.size :=
  (Nat.le_max_left _ _).trans (top_size (extension_ok hn) hgrow)

/-! ## Allocated blocks -/

/-- The allocated blocks after a block became free. -/
theorem release_alloc {c : Block} (hc : c.alloc = true) :
    c ∈ (l.release s).blocks ↔ c ∈ l.blocks ∧ c ≠ s.block := by
  have hfreed : c ≠ s.block.freed := fun h => by
    rw [h] at hc
    cases hc
  have hblocks : c ∈ l.blocks ↔ c ∈ s.pre ++ s.block :: s.post := by rw [s.split]
  rw [release, mem_merge_of_alloc rfl hc, hblocks, mem_middle, or_iff_right hfreed]
  exact (l.shape_at s).mem_around_iff

theorem release_ne_nil : (l.release s).blocks ≠ [] := by
  simp [release, merge]

/-- The allocated blocks after a cut. -/
theorem take_alloc {hal : s.block.alloc = false} {n : Nat} {cut : Cut s.block n} {c : Block}
    (hc : c.alloc = true) :
    c ∈ (l.take s hal cut).blocks ↔ c = cut.taken ∨ c ∈ l.blocks := by
  rw [take, cut.mem_alloc hal hc, s.split]

/-- Growing leaves the allocated blocks alone. -/
theorem grow_alloc {n : Nat} (hn : 8 ∣ n ∧ 16 ≤ n) (hle : l.brk + n ≤ maxHeap) {c : Block}
    (hc : c.alloc = true) : c ∈ (l.grow n hn hle).blocks ↔ c ∈ l.blocks := by
  have hgrown : c ≠ grown l.brk n := fun h => by
    rw [h] at hc
    cases hc
  rw [grow, mem_merge_of_alloc rfl hc]
  simp [hgrown]

theorem grow_inUse {n : Nat} (hn : 8 ∣ n ∧ 16 ≤ n) (hle : l.brk + n ≤ maxHeap) {a : Nat}
    (h : InUse l.blocks a) : InUse (l.grow n hn hle).blocks a := by
  obtain ⟨b, hb, hal, hp⟩ := h
  exact ⟨b, (grow_alloc hn hle hal).mpr hb, hal, hp⟩

/-- The piece that is taken lies where the free block was. -/
theorem taken_bounds {n : Nat} (cut : Cut s.block n) :
    s.block.off ≤ cut.taken.off ∧
      cut.taken.off + cut.taken.size ≤ s.block.off + s.block.size :=
  cut.bounds (by simp [Cut.pieces]) (l.shape.bounds s.mem).2.2.2.1

end

end Layout

end CToys.Malloc
