import CToys.Malloc.Macros

/-!
# The implicit-list allocator

`mm_implicit.c`, function by function.  There are no lists: a search walks over all blocks
of the heap.  `next_fit` starts at the block where the last search ended, the *rover*
`prev_bp`, and `coalesce` moves the rover when the block it points to is merged away.

The walks read block sizes from memory and carry a fuel of `walkFuel` steps like the walks
over the lists of the segregated allocator.  A walk that ends without a hit is `none`.
-/

namespace CToys.Malloc.Implicit

/-- The static variables. -/
structure Statics where
  /-- `heap_listp`. -/
  heapListp : Nat
  /-- `prev_bp`. -/
  prevBp : Nat

variable {A : Arena}

/-- `heap_listp`. -/
def getHeapListp : Prog A Statics Nat := fun σ => .ok (σ.statics.heapListp, σ)

/-- `prev_bp`. -/
def getPrevBp : Prog A Statics Nat := fun σ => .ok (σ.statics.prevBp, σ)

/-- `heap_listp = p`. -/
def setHeapListp (p : Nat) : Prog A Statics Unit := fun σ =>
  .ok ((), { σ with statics := { σ.statics with heapListp := p } })

/-- `prev_bp = p`. -/
def setPrevBp (p : Nat) : Prog A Statics Unit := fun σ =>
  .ok ((), { σ with statics := { σ.statics with prevBp := p } })

/-! ## Blocks -/

/-- The end of `coalesce`: `if (prev_bp > (char *)bp && prev_bp < NEXT_BLKP(bp))
prev_bp = bp; return bp;`. -/
def moveRover (bp : Nat) : Prog A Statics Nat := do
  let prevBp ← getPrevBp
  if prevBp > bp then
    if prevBp < (← nextBlkp bp) then setPrevBp bp
  return bp

/-- `coalesce`. -/
def coalesce (bp : Nat) : Prog A Statics Nat := do
  let prevAlloc ← getAlloc (← ftrp (← prevBlkp bp))
  let nextAlloc ← getAlloc (hdrp (← nextBlkp bp))
  let size ← getSize (hdrp bp)
  if prevAlloc ≠ 0 ∧ nextAlloc ≠ 0 then return bp
  else if prevAlloc ≠ 0 ∧ nextAlloc = 0 then
    let size := add32 size (← getSize (hdrp (← nextBlkp bp)))
    mmPut (hdrp bp) (pack size 0)
    mmPut (← ftrp bp) (pack size 0)
    moveRover bp
  else if prevAlloc = 0 ∧ nextAlloc ≠ 0 then
    let size := add32 size (← getSize (hdrp (← prevBlkp bp)))
    mmPut (hdrp (← prevBlkp bp)) (pack size 0)
    mmPut (← ftrp bp) (pack size 0)
    moveRover (← prevBlkp bp)
  else
    let size := add32 (add32 size (← getSize (hdrp (← prevBlkp bp))))
      (← getSize (hdrp (← nextBlkp bp)))
    mmPut (hdrp (← prevBlkp bp)) (pack size 0)
    mmPut (← ftrp (← nextBlkp bp)) (pack size 0)
    moveRover (← prevBlkp bp)

/-- `extend_heap`. -/
def extendHeap (words : Nat) : Prog A Statics Nat := do
  let size := if words % 2 ≠ 0 then mul32 (add32 words 1) wsize else mul32 words wsize
  let bp ← memSbrk (toInt32 size)
  if bp = sbrkFailed then return 0
  else
    mmPut (hdrp bp) (pack size 0)
    mmPut (← ftrp bp) (pack size 0)
    mmPut (hdrp (← nextBlkp bp)) (pack 0 1)
    coalesce bp

/-- `!GET_ALLOC(HDRP(bp)) && GET_SIZE(HDRP(bp)) >= new_size`. -/
def fits (newSize bp : Nat) : Prog A Statics Bool := do
  if (← getAlloc (hdrp bp)) = 0 then return decide ((← getSize (hdrp bp)) ≥ newSize)
  else return false

/-- The loop of `first_fit`. -/
def firstWalk (newSize : Nat) : (fuel bp : Nat) → Prog A Statics (Option Nat)
  | 0, _ => throw .diverges
  | fuel + 1, bp => do
      if (← getSize (hdrp bp)) > 0 then
        if ← fits newSize bp then return some bp
        else firstWalk newSize fuel (← nextBlkp bp)
      else return none

/-- `first_fit`. -/
def firstFit (newSize : Nat) : Prog A Statics Nat := do
  return (← firstWalk newSize walkFuel (← getHeapListp)).getD 0

/-- The first loop of `next_fit`: up to the epilogue. -/
def walkToEnd (newSize : Nat) : (fuel bp : Nat) → Prog A Statics (Option Nat)
  | 0, _ => throw .diverges
  | fuel + 1, bp => do
      if (← getSize (hdrp bp)) > 0 then
        if ← fits newSize bp then
          setPrevBp bp
          return some bp
        else walkToEnd newSize fuel (← nextBlkp bp)
      else return none

/-- The second loop of `next_fit`: up to the rover. -/
def walkToRover (newSize : Nat) : (fuel bp : Nat) → Prog A Statics (Option Nat)
  | 0, _ => throw .diverges
  | fuel + 1, bp => do
      if bp ≠ (← getPrevBp) then
        if ← fits newSize bp then
          setPrevBp bp
          return some bp
        else walkToRover newSize fuel (← nextBlkp bp)
      else return none

/-- `next_fit`. -/
def nextFit (newSize : Nat) : Prog A Statics Nat := do
  match ← walkToEnd newSize walkFuel (← getPrevBp) with
  | some bp => return bp
  | none => return (← walkToRover newSize walkFuel (← getHeapListp)).getD 0

/-- `find_fit`. -/
def findFit (newSize : Nat) : Prog A Statics Nat := nextFit newSize

/-- `place`. -/
def place (bp newSize : Nat) : Prog A Statics Unit := do
  let oldSize ← getSize (hdrp bp)
  let diffSize := sub32 oldSize newSize
  if diffSize < 2 * dsize then
    mmPut (hdrp bp) (pack oldSize 1)
    mmPut (← ftrp bp) (pack oldSize 1)
  else
    mmPut (hdrp bp) (pack newSize 1)
    mmPut (← ftrp bp) (pack newSize 1)
    mmPut (hdrp (← nextBlkp bp)) (pack diffSize 0)
    mmPut (← ftrp (← nextBlkp bp)) (pack diffSize 0)

/-! ## The allocator -/

/-- `mm_init`. -/
def mmInit : Prog A Statics Int := do
  let heapListp ← memSbrk (toInt32 (4 * wsize))
  setHeapListp heapListp
  if heapListp = sbrkFailed then return -1
  else
    mmPut heapListp 0
    mmPut (add32 heapListp (1 * wsize)) (pack dsize 1)
    mmPut (add32 heapListp (2 * wsize)) (pack dsize 1)
    mmPut (add32 heapListp (3 * wsize)) (pack 0 1)
    let heapListp := add32 heapListp (2 * wsize)
    setHeapListp heapListp
    setPrevBp heapListp
    let bp ← extendHeap (chunksize / wsize)
    if bp = 0 then return -1
    else return 0

/-- The block size for a request of `size` bytes. -/
def newSizeOf (size : Nat) : Nat :=
  if size ≤ dsize then 2 * dsize
  else mul32 dsize (add32 (add32 size dsize) (dsize - 1) / dsize)

/-- `mm_malloc`. -/
def mmMalloc (size : Nat) : Prog A Statics Nat := do
  if size = 0 then return 0
  else
    let newSize := newSizeOf size
    let bp ← findFit newSize
    if bp ≠ 0 then
      place bp newSize
      return bp
    else
      let extendSize := mmMax newSize chunksize
      let bp ← extendHeap (extendSize / wsize)
      if bp = 0 then return 0
      else
        place bp newSize
        return bp

/-- `mm_free`. -/
def mmFree (ptr : Nat) : Prog A Statics Unit := do
  let size ← getSize (hdrp ptr)
  mmPut (hdrp ptr) (pack size 0)
  mmPut (← ftrp ptr) (pack size 0)
  let _ ← coalesce ptr

/-- `mm_realloc`. -/
def mmRealloc (ptr size : Nat) : Prog A Statics Nat := do
  if ptr = 0 then mmMalloc size
  else if size = 0 then
    mmFree ptr
    return 0
  else
    let newPtr ← mmMalloc size
    if newPtr = 0 then return 0
    else
      let copySize ← getSize (hdrp ptr)
      let copySize := if size < copySize then size else copySize
      memcpy newPtr ptr copySize
      mmFree ptr
      return newPtr

end CToys.Malloc.Implicit
