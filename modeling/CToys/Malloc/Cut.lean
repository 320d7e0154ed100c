import CToys.Malloc.Merge

/-!
# Cutting blocks

`place` takes a free block for a request of `n` bytes and may give a part of it back.  A
`Cut b n` is a way to do so: an allocated piece of size `n` or `n + 8` and at most one free
piece beside it, which together cover `b`.  The fields carry all that callers need, so the
allocators only have to say which cut they make.

Neither neighbour of a free block is free, so a cut leaves no two free blocks in a row
(`Cut.coalesced`), and no byte in use changes hands (`Cut.inUse`).
-/

namespace CToys.Malloc

/-- A way to take `n` bytes from the block `b`. -/
structure Cut (b : Block) (n : Nat) where
  /-- The free piece in front, if any. -/
  before : List Block
  /-- The allocated piece. -/
  taken : Block
  /-- The free piece at the back, if any. -/
  behind : List Block
  tiles : ∀ {lo hi}, Tiles Block.off Block.stop lo [b] hi →
    Tiles Block.off Block.stop lo (before ++ taken :: behind) hi
  size : ∀ x ∈ before ++ taken :: behind, 8 ∣ x.size ∧ 16 ≤ x.size
  alloc : taken.alloc = true
  free : ∀ x ∈ before ++ behind, x.alloc = false
  few : (before ++ behind).length ≤ 1
  enough : taken.size = n ∨ taken.size = n + 8

namespace Cut

variable {b : Block} {n : Nat}

/-- All pieces in order. -/
def pieces (c : Cut b n) : List Block := c.before ++ c.taken :: c.behind

/-- The free pieces. -/
def rest (c : Cut b n) : List Block := c.before ++ c.behind

/-! ## The cuts there are -/

section

variable {lo hi : Nat}

theorem whole_enough (hb : 8 ∣ b.size) (hn : 8 ∣ n) (hle : n ≤ b.size)
    (hlt : b.size - n < 16) : b.size = n ∨ b.size = n + 8 := by
  omega

/-- What is left is a block. -/
theorem rest_size (hb : 8 ∣ b.size) (hn : 8 ∣ n) (hge : ¬ b.size - n < 16) :
    8 ∣ b.size - n ∧ 16 ≤ b.size - n := by
  omega

theorem front_tiles (hn : 16 ≤ n) (hge : ¬ b.size - n < 16)
    (h : Tiles Block.off Block.stop lo [b] hi) :
    Tiles Block.off Block.stop lo [⟨b.off, n, true⟩, ⟨b.off + n, b.size - n, false⟩] hi := by
  obtain ⟨rfl, h1, h2⟩ := h
  simp only [Block.stop, tiles_nil] at h1 h2
  simp only [tiles_cons, Block.stop, tiles_nil, true_and]
  omega

theorem back_tiles (hn : 16 ≤ n) (hge : ¬ b.size - n < 16)
    (h : Tiles Block.off Block.stop lo [b] hi) :
    Tiles Block.off Block.stop lo
      [⟨b.off, b.size - n, false⟩, ⟨b.off + (b.size - n), n, true⟩] hi := by
  obtain ⟨rfl, h1, h2⟩ := h
  simp only [Block.stop, tiles_nil] at h1 h2
  simp only [tiles_cons, Block.stop, tiles_nil, true_and]
  omega

end

section

variable (hb : 8 ∣ b.size ∧ 16 ≤ b.size) (hn : 8 ∣ n ∧ 16 ≤ n)

/-- Take the whole block, since what would be left is too small for a block. -/
def whole (hle : n ≤ b.size) (hlt : b.size - n < 16) : Cut b n where
  before := []
  taken := ⟨b.off, b.size, true⟩
  behind := []
  tiles h := h
  size := List.forall_mem_singleton.mpr hb
  alloc := rfl
  free := by simp
  few := by simp
  enough := whole_enough hb.1 hn.1 hle hlt

/-- Take the front and leave the back. -/
def front (hge : ¬ b.size - n < 16) : Cut b n where
  before := []
  taken := ⟨b.off, n, true⟩
  behind := [⟨b.off + n, b.size - n, false⟩]
  tiles := front_tiles hn.2 hge
  size := List.forall_mem_cons.mpr ⟨hn, List.forall_mem_singleton.mpr (rest_size hb.1 hn.1 hge)⟩
  alloc := rfl
  free := by simp
  few := by simp
  enough := .inl rfl

/-- Take the back and leave the front. -/
def back (hge : ¬ b.size - n < 16) : Cut b n where
  before := [⟨b.off, b.size - n, false⟩]
  taken := ⟨b.off + (b.size - n), n, true⟩
  behind := []
  tiles := back_tiles hn.2 hge
  size := List.forall_mem_cons.mpr ⟨rest_size hb.1 hn.1 hge, List.forall_mem_singleton.mpr hn⟩
  alloc := rfl
  free := by simp
  few := by simp
  enough := .inl rfl

end

/-! ## Making a cut -/

variable (c : Cut b n) {pre post : List Block} {e : Nat} {x : Block}

/-- Either the whole block is taken or there is one free piece, on one side. -/
theorem cases : c.before = [] ∧ c.behind = [] ∨
    (∃ x, c.before = [x] ∧ c.behind = [] ∧ x.alloc = false) ∨
    ∃ x, c.before = [] ∧ c.behind = [x] ∧ x.alloc = false := by
  have hfew := c.few
  have hfree := c.free
  match hl : c.before, hr : c.behind with
  | [], [] => exact .inl ⟨rfl, rfl⟩
  | [x], [] => exact .inr (.inl ⟨x, rfl, rfl, hfree x (by simp [hl])⟩)
  | [], [x] => exact .inr (.inr ⟨x, rfl, rfl, hfree x (by simp [hr])⟩)
  | _ :: _ :: _, _ => simp [hl] at hfew
  | _ :: _, _ :: _ => simp [hl, hr] at hfew
  | _, _ :: _ :: _ =>
    simp only [hr, List.length_append, List.length_cons] at hfew
    omega

theorem shape (h : Shape (pre ++ b :: post) e) : Shape (pre ++ c.pieces ++ post) e := by
  rw [← List.singleton_append, ← List.append_assoc] at h
  exact h.replace _ (fun _ _ => c.tiles) c.size

theorem taken_mem : c.taken ∈ pre ++ c.pieces ++ post := by simp [pieces]

theorem inHeap (h : Shape (pre ++ b :: post) e) (hx : x ∈ c.pieces) : x.InHeap :=
  (c.shape h).inHeap (by simp [hx])

/-- The pieces lie where the block was. -/
theorem bounds (hx : x ∈ c.pieces) (h16 : 16 ≤ b.size) :
    b.off ≤ x.off ∧ x.off + x.size ≤ b.off + b.size := by
  have hb : Tiles Block.off Block.stop b.off [b] (b.off + b.size) := by
    simp only [tiles_cons, Block.stop, tiles_nil, true_and, and_true]
    omega
  have := (c.tiles hb).bounds hx
  simp only [Block.stop] at this
  omega

/-- The free blocks after the cut. -/
theorem mem_free (pre post : List Block) (hx : x.alloc = false) :
    x ∈ pre ++ c.pieces ++ post ↔ x ∈ c.rest ∨ x ∈ pre ++ post := by
  have hne : x ≠ c.taken := fun h => by
    rw [h, c.alloc] at hx
    cases hx
  simp only [pieces, rest, List.mem_append, List.mem_cons, hne, false_or]
  tauto

/-- The allocated blocks after the cut. -/
theorem mem_alloc (hb : b.alloc = false) (hx : x.alloc = true) :
    x ∈ pre ++ c.pieces ++ post ↔ x = c.taken ∨ x ∈ pre ++ b :: post := by
  have hne : x ≠ b := fun h => by
    rw [h, hb] at hx
    cases hx
  have hrest : x ∉ c.rest := fun h => by
    rw [c.free x h] at hx
    cases hx
  simp only [rest, List.mem_append, not_or] at hrest
  simp only [pieces, List.mem_append, List.mem_cons, hrest, hne, false_or, or_false]
  tauto

/-- A free piece is none of the other blocks. -/
theorem rest_notMem (h : Shape (pre ++ b :: post) e) (hx : x ∈ c.rest) : x ∉ pre ++ post := by
  intro hm
  have hmem : x ∈ c.pieces := by
    simp only [rest, pieces, List.mem_append, List.mem_cons] at hx ⊢
    tauto
  have hb := h.bounds (b := b) (by simp)
  have := c.bounds hmem hb.2.2.2.1
  have := (c.size x hmem).2
  have := h.others hm
  omega

theorem inUse (hb : b.alloc = false) {a : Nat} (h : InUse (pre ++ b :: post) a) :
    InUse (pre ++ c.pieces ++ post) a := by
  obtain ⟨x, hx, hal, hp⟩ := h
  exact ⟨x, (c.mem_alloc hb hal).mpr (.inr hx), hal, hp⟩

end Cut

namespace Coalesced

variable {pre post : List Block} {b : Block} {e : Nat}

/-- The neighbours of a free block are allocated. -/
theorem sides (h : Coalesced (pre ++ b :: post)) (hb : b.alloc = false) :
    (prevOf pre).alloc = true ∧ (nextOf post e).alloc = true := by
  obtain ⟨-, h2, hseam⟩ := List.isChain_append.mp h
  constructor
  · rcases List.eq_nil_or_concat pre with rfl | ⟨l, x, rfl⟩
    · rfl
    · rw [List.concat_eq_append] at hseam ⊢
      rw [prevOf_concat]
      simpa [hb] using hseam x (by simp) b (by simp)
  · cases post with
    | nil => rfl
    | cons y post => simpa [hb, nextOf] using (List.isChain_cons_cons.mp h2).1

/-- A cut leaves no two free blocks in a row. -/
theorem cut (h : Coalesced (pre ++ b :: post)) (hb : b.alloc = false) {n : Nat}
    (c : Cut b n) : Coalesced (pre ++ c.pieces ++ post) := by
  obtain ⟨hp, hn⟩ := h.sides (e := 0) hb
  obtain ⟨h1, h2⟩ := h.of_append
  rcases c.cases with ⟨hl, hr⟩ | ⟨x, hl, hr, -⟩ | ⟨x, hl, hr, -⟩
  · simp only [Cut.pieces, hl, hr, List.nil_append, List.append_assoc, List.cons_append]
    exact h1.insert_alloc h2 c.alloc
  · have hfront : Coalesced (pre ++ [x]) := h1.glue (e := 0) .nil hp rfl
    have := hfront.insert_alloc h2 c.alloc
    simpa [Cut.pieces, hl, hr] using this
  · have hback : Coalesced (x :: post) := .glue (e := 0) .nil h2 rfl hn
    have := h1.insert_alloc hback c.alloc
    simpa [Cut.pieces, hl, hr] using this

end Coalesced

end CToys.Malloc
