import CToys.Malloc.Memlib
import Mathlib.Data.Nat.Bitwise

/-!
# The macros of `mm.h`

`size_t` and pointer arithmetic are modulo `2 ^ 32`.  A block pointer `bp` points at the
payload.  The header is the word before it, the footer the last word of the block, and
both hold the block size with the allocated bit, which is free since sizes are multiples
of 8.  In a free block the first two payload words are the list links.

`HasTag` says that a word holds the tag of a block.  The lemmas at the end compute every
macro from the one tag it reads.
-/

namespace CToys.Malloc

variable {A : Arena} {ρ : Type}

/-! ## 32-bit arithmetic -/

/-- `a + b` on `size_t` or a pointer. -/
def add32 (a b : Nat) : Nat := (a + b) % 2 ^ 32

/-- `a - b` on `size_t` or a pointer. -/
def sub32 (a b : Nat) : Nat := (a + (2 ^ 32 - b % 2 ^ 32)) % 2 ^ 32

/-- `a * b` on `size_t`. -/
def mul32 (a b : Nat) : Nat := (a * b) % 2 ^ 32

theorem add32_of_lt {a b : Nat} (h : a + b < 2 ^ 32) : add32 a b = a + b :=
  Nat.mod_eq_of_lt h

theorem sub32_of_le {a b : Nat} (h : b ≤ a) (ha : a < 2 ^ 32) : sub32 a b = a - b := by
  unfold sub32
  omega

theorem mul32_of_lt {a b : Nat} (h : a * b < 2 ^ 32) : mul32 a b = a * b :=
  Nat.mod_eq_of_lt h

/-! ## The macros -/

/-- `WSIZE`. -/
def wsize : Nat := 4

/-- `DSIZE`. -/
def dsize : Nat := 8

/-- `CHUNKSIZE`. -/
def chunksize : Nat := 1 <<< 12

/-- `MAX(x, y)`. -/
def mmMax (x y : Nat) : Nat := if x > y then x else y

/-- `PACK(size, alloc)`. -/
def pack (size alloc : Nat) : Nat := size ||| alloc

/-- `GET(p)`. -/
def mmGet (p : Nat) : Prog A ρ Nat := loadWord p

/-- `PUT(p, val)`. -/
def mmPut (p val : Nat) : Prog A ρ Unit := storeWord p val

/-- `GET_SIZE(p)`, with `~0x7` converted to `unsigned int`. -/
def getSize (p : Nat) : Prog A ρ Nat := do
  return (← mmGet p) &&& 0xFFFFFFF8

/-- `GET_ALLOC(p)`. -/
def getAlloc (p : Nat) : Prog A ρ Nat := do
  return (← mmGet p) &&& 0x1

/-- `HDRP(bp)`. -/
def hdrp (bp : Nat) : Nat := sub32 bp wsize

/-- `FTRP(bp)`. -/
def ftrp (bp : Nat) : Prog A ρ Nat := do
  return sub32 (add32 bp (← getSize (hdrp bp))) dsize

/-- `NEXT_BLKP(bp)`. -/
def nextBlkp (bp : Nat) : Prog A ρ Nat := do
  return add32 bp (← getSize (sub32 bp wsize))

/-- `PREV_BLKP(bp)`. -/
def prevBlkp (bp : Nat) : Prog A ρ Nat := do
  return sub32 bp (← getSize (sub32 bp dsize))

/-- `PRED_PTR(p)`. -/
def predPtr (p : Nat) : Nat := p

/-- `SUCC_PTR(p)`. -/
def succPtr (p : Nat) : Nat := add32 p wsize

/-- `PRED_NODE(p)`. -/
def predNode (p : Nat) : Prog A ρ Nat := loadWord p

/-- `SUCC_NODE(p)`. -/
def succNode (p : Nat) : Prog A ρ Nat := loadWord (succPtr p)

/-- `SET_PTR(p, val)`. -/
def setPtr (p val : Nat) : Prog A ρ Unit := storeWord p val

/-! ## Tags -/

theorem toNat_ne_zero {a : Bool} : a.toNat ≠ 0 ↔ a = true := by
  cases a <;> decide

theorem toNat_eq_zero {a : Bool} : a.toNat = 0 ↔ a = false := by
  cases a <;> decide

/-- The word in the header and the footer of a block. -/
def tag (size : Nat) (alloc : Bool) : Nat := pack size alloc.toNat

theorem tag_eq {size : Nat} (h : 8 ∣ size) (alloc : Bool) :
    tag size alloc = size + alloc.toNat := by
  obtain ⟨k, rfl⟩ := h
  have hlt : alloc.toNat < 2 ^ 3 := by cases alloc <;> decide
  have := Nat.two_pow_add_eq_or_of_lt hlt k
  simpa [tag, pack] using this.symm

theorem and_size_mask {w : Nat} (h : w < 2 ^ 32) : w &&& 0xFFFFFFF8 = 8 * (w / 8) := by
  have hmask : 0xFFFFFFF8 = 2 ^ 3 * (2 ^ 29 - 1) := by decide
  rw [hmask, show 8 * (w / 8) = 2 ^ 3 * (w / 2 ^ 3) from rfl]
  refine Nat.eq_of_testBit_eq fun i => ?_
  rw [Nat.testBit_and, Nat.testBit_two_pow_mul, Nat.testBit_two_pow_mul,
    Nat.testBit_two_pow_sub_one, Nat.testBit_div_two_pow]
  by_cases h3 : i ≥ 3
  · rw [Nat.sub_add_cancel h3]
    by_cases h29 : i - 3 < 29
    · simp [h3, h29]
    · have hbit : w.testBit i = false :=
        Nat.testBit_lt_two_pow (lt_of_lt_of_le h (Nat.pow_le_pow_right (by decide) (by omega)))
      simp [hbit]
  · simp [h3]

theorem tag_and_size {size : Nat} (h : 8 ∣ size) (hlt : size < 2 ^ 32) (alloc : Bool) :
    tag size alloc &&& 0xFFFFFFF8 = size := by
  rw [tag_eq h]
  have ha : alloc.toNat < 8 := by cases alloc <;> decide
  rw [and_size_mask (by omega)]
  omega

theorem tag_and_alloc {size : Nat} (h : 8 ∣ size) (alloc : Bool) :
    tag size alloc &&& 0x1 = alloc.toNat := by
  rw [tag_eq h, Nat.and_one_is_mod]
  cases alloc <;> simp <;> omega

theorem tag_lt {size : Nat} (h : 8 ∣ size) (hlt : size < 2 ^ 32) (alloc : Bool) :
    tag size alloc < 2 ^ 32 := by
  rw [tag_eq h]
  have ha : alloc.toNat < 8 := by cases alloc <;> decide
  omega

/-- The word at offset `o` is the tag of a block of the given size and status. -/
structure HasTag (m : Memory) (o size : Nat) (alloc : Bool) : Prop where
  word : m.word o = tag size alloc
  dvd : 8 ∣ size
  le : size ≤ maxHeap

namespace HasTag

variable {m m' : Memory} {o size : Nat} {alloc : Bool}

theorem congr (h : HasTag m o size alloc) (hm : ∀ b, o ≤ b → b < o + 4 → m' b = m b) :
    HasTag m' o size alloc :=
  ⟨(Memory.word_congr hm).trans h.word, h.dvd, h.le⟩

theorem setWord_same (hd : 8 ∣ size) (hle : size ≤ maxHeap) :
    HasTag (m.setWord o (tag size alloc)) o size alloc := by
  have := maxHeap_eq
  refine ⟨?_, hd, hle⟩
  rw [Memory.word_setWord, Nat.mod_eq_of_lt (tag_lt hd (by omega) alloc)]

theorem setWord_of_disjoint {q v : Nat} (h : HasTag m o size alloc)
    (hd : o + 4 ≤ q ∨ q + 4 ≤ o) : HasTag (m.setWord q v) o size alloc :=
  h.congr fun _ _ _ => Memory.setWord_apply_of_ne (by omega)

end HasTag

/-! ## What the macros compute -/

section

variable {σ : Machine A ρ} {o s v : Nat} {a : Bool}

theorem hdrp_ptr (h4 : 4 ≤ o) (ho : o ≤ maxHeap) : hdrp (A.start + o) = A.start + (o - 4) := by
  have := A.fits
  rw [hdrp, wsize, sub32_of_le (by omega) (by omega)]
  omega

theorem succPtr_ptr (ho : o + 4 ≤ maxHeap) : succPtr (A.start + o) = A.start + (o + 4) := by
  have := A.fits
  rw [succPtr, wsize, add32_of_lt (by omega)]
  omega

theorem mmGet_returns (ho : o + 4 ≤ maxHeap) :
    Returns (mmGet (A.start + o)) σ (σ.storage.word o) σ :=
  loadWord_returns ho

theorem mmPut_returns (ho : o + 4 ≤ maxHeap) :
    Returns (mmPut (A.start + o) v) σ () (σ.withStorage (σ.storage.setWord o v)) :=
  storeWord_returns ho

theorem getSize_returns (ho : o + 4 ≤ maxHeap) (h : HasTag σ.storage o s a) :
    Returns (getSize (A.start + o)) σ s σ := by
  have hw := mmGet_returns (σ := σ) ho
  rw [h.word] at hw
  have := h.le
  have := maxHeap_eq
  have hs := tag_and_size h.dvd (by omega) a
  exact hw.bind (by rw [hs]; exact .pure _ _)

theorem getAlloc_returns (ho : o + 4 ≤ maxHeap) (h : HasTag σ.storage o s a) :
    Returns (getAlloc (A.start + o)) σ a.toNat σ := by
  have hw := mmGet_returns (σ := σ) ho
  rw [h.word] at hw
  exact hw.bind (by rw [tag_and_alloc h.dvd a]; exact .pure _ _)

/-- `GET_SIZE(HDRP(bp))`. -/
theorem getSize_hdrp_returns (h4 : 4 ≤ o) (ho : o ≤ maxHeap)
    (h : HasTag σ.storage (o - 4) s a) :
    Returns (getSize (hdrp (A.start + o))) σ s σ := by
  rw [hdrp_ptr h4 ho]
  exact getSize_returns (by omega) h

/-- `GET_ALLOC(HDRP(bp))`. -/
theorem getAlloc_hdrp_returns (h4 : 4 ≤ o) (ho : o ≤ maxHeap)
    (h : HasTag σ.storage (o - 4) s a) :
    Returns (getAlloc (hdrp (A.start + o))) σ a.toNat σ := by
  rw [hdrp_ptr h4 ho]
  exact getAlloc_returns (by omega) h

/-- `FTRP` reads the header to find the footer. -/
theorem ftrp_returns (h4 : 4 ≤ o) (hos : 8 ≤ o + s) (ho : o + s ≤ maxHeap)
    (h : HasTag σ.storage (o - 4) s a) :
    Returns (ftrp (A.start + o)) σ (A.start + (o + s - 8)) σ := by
  have := A.fits
  have hptr : sub32 (add32 (A.start + o) s) dsize = A.start + (o + s - 8) := by
    rw [dsize, add32_of_lt (by omega), sub32_of_le (by omega) (by omega)]
    omega
  exact (getSize_hdrp_returns h4 (by omega) h).bind (by rw [hptr]; exact .pure _ _)

/-- `NEXT_BLKP` reads the header. -/
theorem nextBlkp_returns (h4 : 4 ≤ o) (ho : o + s ≤ maxHeap)
    (h : HasTag σ.storage (o - 4) s a) :
    Returns (nextBlkp (A.start + o)) σ (A.start + (o + s)) σ := by
  have := A.fits
  have hptr : add32 (A.start + o) s = A.start + (o + s) := by
    rw [add32_of_lt (by omega)]
    omega
  exact (getSize_hdrp_returns h4 (by omega) h).bind (by rw [hptr]; exact .pure _ _)

/-- `PREV_BLKP` reads the footer of the block before. -/
theorem prevBlkp_returns (h8 : 8 ≤ o) (ho : o ≤ maxHeap) (hso : s ≤ o)
    (h : HasTag σ.storage (o - 8) s a) :
    Returns (prevBlkp (A.start + o)) σ (A.start + (o - s)) σ := by
  have := A.fits
  have hftr : sub32 (A.start + o) dsize = A.start + (o - 8) := by
    rw [dsize, sub32_of_le (by omega) (by omega)]
    omega
  have hptr : sub32 (A.start + o) s = A.start + (o - s) := by
    rw [sub32_of_le (by omega) (by omega)]
    omega
  have hsize : Returns (getSize (sub32 (A.start + o) dsize)) σ s σ := by
    rw [hftr]
    exact getSize_returns (by omega) h
  exact hsize.bind (by rw [hptr]; exact .pure _ _)

end

end CToys.Malloc
