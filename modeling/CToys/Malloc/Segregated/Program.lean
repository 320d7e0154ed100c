import CToys.Malloc.Macros

/-!
# The segregated-fit allocator

`mm_segregated.c`, function by function.  Free blocks are filed in 16 lists by the
position of their size's highest bit, each list sorted by size.

The `while` loops over a list follow links in memory, and on a corrupt list they need not
end.  They carry a fuel of `2 ^ 32` steps: a loop that goes on longer visits a pointer
twice in an unchanged memory, so running out is `Fault.diverges`.  The loops over list
positions are bounded by `LIST_MAX` and recurse on the positions left.
-/

namespace CToys.Malloc.Segregated

/-- `LIST_MAX`. -/
def listMax : Nat := 16

/-- The static variables. -/
structure Statics where
  /-- `heap_listp`. -/
  heapListp : Nat
  /-- `free_lists`. -/
  freeLists : Nat → Nat

variable {A : Arena}

/-- `ALIGN(size)`. -/
def align (size : Nat) : Nat := add32 size 7 &&& 0xFFFFFFF8

/-- `free_lists[pos]`. -/
def freeList (pos : Nat) : Prog A Statics Nat := fun σ =>
  if pos < listMax then .ok (σ.statics.freeLists pos, σ) else .error (.index pos)

/-- `free_lists[pos] = bp`. -/
def setFreeList (pos bp : Nat) : Prog A Statics Unit := fun σ =>
  if pos < listMax then
    .ok ((), { σ with statics :=
      { σ.statics with freeLists := Function.update σ.statics.freeLists pos bp } })
  else .error (.index pos)

/-- `while (pos < LIST_MAX - 1 && size > 1) { size >>= 1; pos++; }`, where `left` is
`LIST_MAX - 1 - pos`. -/
def listPos : (left pos size : Nat) → Nat
  | 0, pos, _ => pos
  | left + 1, pos, size => if size > 1 then listPos left (pos + 1) (size >>> 1) else pos

/-! ## The free lists -/

/-- `while (succ_bp != NULL && GET_SIZE(HDRP(succ_bp)) < size)`. -/
def insertWalk (size : Nat) : (fuel predBp succBp : Nat) → Prog A Statics (Nat × Nat)
  | 0, _, _ => throw .diverges
  | fuel + 1, predBp, succBp => do
      if succBp = 0 then return (predBp, succBp)
      else
        let succSize ← getSize (hdrp succBp)
        if succSize < size then
          let next ← succNode succBp
          insertWalk size fuel succBp next
        else return (predBp, succBp)

/-- `insert_node`. -/
def insertNode (bp size : Nat) : Prog A Statics Unit := do
  let pos := listPos (listMax - 1) 0 size
  let succBp ← freeList pos
  if succBp = 0 then
    setPtr (predPtr bp) 0
    setPtr (succPtr bp) 0
    setFreeList pos bp
  else
    let (predBp, succBp) ← insertWalk size walkFuel 0 succBp
    if predBp = 0 then
      setPtr (predPtr bp) 0
      setPtr (succPtr bp) succBp
      setPtr (predPtr succBp) bp
      setFreeList pos bp
    else if succBp = 0 then
      setPtr (predPtr bp) predBp
      setPtr (succPtr bp) 0
      setPtr (succPtr predBp) bp
    else
      setPtr (predPtr bp) predBp
      setPtr (succPtr bp) succBp
      setPtr (succPtr predBp) bp
      setPtr (predPtr succBp) bp

/-- `delete_node`. -/
def deleteNode (bp : Nat) : Prog A Statics Unit := do
  let size ← getSize (hdrp bp)
  let pos := listPos (listMax - 1) 0 size
  let pred ← predNode bp
  if pred = 0 then
    setFreeList pos (← succNode bp)
    let succ ← succNode bp
    if succ ≠ 0 then
      setPtr (predPtr (← succNode bp)) 0
  else
    let succ ← succNode bp
    if succ = 0 then
      setPtr (succPtr (← predNode bp)) 0
    else
      setPtr (succPtr (← predNode bp)) (← succNode bp)
      setPtr (predPtr (← succNode bp)) (← predNode bp)

/-! ## Blocks -/

/-- `coalesce`. -/
def coalesce (bp : Nat) : Prog A Statics Nat := do
  let prevAlloc ← getAlloc (hdrp (← prevBlkp bp))
  let nextAlloc ← getAlloc (hdrp (← nextBlkp bp))
  let size ← getSize (hdrp bp)
  if prevAlloc ≠ 0 ∧ nextAlloc ≠ 0 then
    insertNode bp size
    return bp
  else if prevAlloc ≠ 0 ∧ nextAlloc = 0 then
    let size := add32 size (← getSize (hdrp (← nextBlkp bp)))
    deleteNode (← nextBlkp bp)
    mmPut (hdrp bp) (pack size 0)
    mmPut (← ftrp bp) (pack size 0)
    insertNode bp size
    return bp
  else if prevAlloc = 0 ∧ nextAlloc ≠ 0 then
    let size := add32 size (← getSize (hdrp (← prevBlkp bp)))
    deleteNode (← prevBlkp bp)
    mmPut (hdrp (← prevBlkp bp)) (pack size 0)
    mmPut (← ftrp bp) (pack size 0)
    let bp ← prevBlkp bp
    insertNode bp size
    return bp
  else
    let size := add32 (add32 size (← getSize (hdrp (← prevBlkp bp))))
      (← getSize (hdrp (← nextBlkp bp)))
    deleteNode (← prevBlkp bp)
    deleteNode (← nextBlkp bp)
    mmPut (hdrp (← prevBlkp bp)) (pack size 0)
    mmPut (← ftrp (← nextBlkp bp)) (pack size 0)
    let bp ← prevBlkp bp
    insertNode bp size
    return bp

/-- `extend_heap`. -/
def extendHeap (words : Nat) : Prog A Statics Nat := do
  let size := if words % 2 ≠ 0 then mul32 (add32 words 1) wsize else mul32 words wsize
  let bp ← memSbrk (toInt32 size)
  if bp = sbrkFailed then return 0
  else
    mmPut (hdrp bp) (pack size 0)
    mmPut (← ftrp bp) (pack size 0)
    mmPut (hdrp (← nextBlkp bp)) (pack 0 1)
    coalesce bp

/-- `while (target_bp != NULL && GET_SIZE(HDRP(target_bp)) < new_size)`. -/
def fitWalk (newSize : Nat) : (fuel targetBp : Nat) → Prog A Statics Nat
  | 0, _ => throw .diverges
  | fuel + 1, targetBp => do
      if targetBp = 0 then return targetBp
      else
        let size ← getSize (hdrp targetBp)
        if size < newSize then
          let next ← succNode targetBp
          fitWalk newSize fuel next
        else return targetBp

/-- `while (pos < LIST_MAX)`, where `left` is `LIST_MAX - pos`.  `target_bp` is `NULL`
whenever the loop goes on. -/
def fitSearch (newSize : Nat) : (left pos searchSize : Nat) → Prog A Statics Nat
  | 0, _, _ => return 0
  | left + 1, pos, searchSize => do
      let head ← freeList pos
      if searchSize ≤ 1 ∧ head ≠ 0 then
        let targetBp ← fitWalk newSize walkFuel head
        if targetBp ≠ 0 then return targetBp
        else fitSearch newSize left (pos + 1) (searchSize >>> 1)
      else fitSearch newSize left (pos + 1) (searchSize >>> 1)

/-- `find_fit`. -/
def findFit (newSize : Nat) : Prog A Statics Nat := fitSearch newSize listMax 0 newSize

/-- `place`. -/
def place (bp newSize : Nat) : Prog A Statics Nat := do
  let oldSize ← getSize (hdrp bp)
  let diffSize := sub32 oldSize newSize
  deleteNode bp
  if diffSize < 2 * dsize then
    mmPut (hdrp bp) (pack oldSize 1)
    mmPut (← ftrp bp) (pack oldSize 1)
    return bp
  else if newSize ≥ 96 then
    mmPut (hdrp bp) (pack diffSize 0)
    mmPut (← ftrp bp) (pack diffSize 0)
    mmPut (hdrp (← nextBlkp bp)) (pack newSize 1)
    mmPut (← ftrp (← nextBlkp bp)) (pack newSize 1)
    insertNode bp diffSize
    nextBlkp bp
  else
    mmPut (hdrp bp) (pack newSize 1)
    mmPut (← ftrp bp) (pack newSize 1)
    mmPut (hdrp (← nextBlkp bp)) (pack diffSize 0)
    mmPut (← ftrp (← nextBlkp bp)) (pack diffSize 0)
    insertNode (← nextBlkp bp) diffSize
    return bp

/-! ## The allocator -/

/-- `heap_listp = p`. -/
def setHeapListp (p : Nat) : Prog A Statics Unit := fun σ =>
  .ok ((), { σ with statics := { σ.statics with heapListp := p } })

/-- `for (i = 0; i < LIST_MAX; i++) free_lists[i] = NULL`. -/
def clearLists : (n : Nat) → Prog A Statics Unit
  | 0 => return ()
  | n + 1 => do
      clearLists n
      setFreeList n 0

/-- `mm_init`. -/
def mmInit : Prog A Statics Int := do
  let heapListp ← memSbrk (toInt32 (4 * wsize))
  setHeapListp heapListp
  if heapListp = sbrkFailed then return -1
  else
    mmPut heapListp 0
    mmPut (add32 heapListp (1 * wsize)) (pack dsize 1)
    mmPut (add32 heapListp (2 * wsize)) (pack dsize 1)
    mmPut (add32 heapListp (3 * wsize)) (pack 0 1)
    setHeapListp (add32 heapListp (2 * wsize))
    clearLists listMax
    let bp ← extendHeap (chunksize / wsize)
    if bp = 0 then return -1
    else return 0

/-- The block size for a request of `size` bytes. -/
def newSizeOf (size : Nat) : Nat :=
  if size ≤ dsize then 2 * dsize else align (add32 size dsize)

/-- `mm_malloc`. -/
def mmMalloc (size : Nat) : Prog A Statics Nat := do
  if size = 0 then return 0
  else
    let newSize := newSizeOf size
    let bp ← findFit newSize
    if bp ≠ 0 then place bp newSize
    else
      let extendSize := mmMax newSize chunksize
      let bp ← extendHeap (extendSize / wsize)
      if bp = 0 then return 0
      else place bp newSize

/-- `mm_free`. -/
def mmFree (ptr : Nat) : Prog A Statics Unit := do
  let size ← getSize (hdrp ptr)
  mmPut (hdrp ptr) (pack size 0)
  mmPut (← ftrp ptr) (pack size 0)
  let _ ← coalesce ptr

/-- The end of the growing path of `mm_realloc`: take the next block in. -/
def absorbNext (ptr availableSize : Nat) : Prog A Statics Nat := do
  deleteNode (← nextBlkp ptr)
  mmPut (hdrp ptr) (pack availableSize 1)
  mmPut (← ftrp ptr) (pack availableSize 1)
  return ptr

/-- `mm_realloc`. -/
def mmRealloc (ptr size : Nat) : Prog A Statics Nat := do
  if ptr = 0 then mmMalloc size
  else if size = 0 then
    mmFree ptr
    return 0
  else
    let oldSize ← getSize (hdrp ptr)
    let nextAlloc ← getAlloc (hdrp (← nextBlkp ptr))
    let nextSize ← getSize (hdrp (← nextBlkp ptr))
    let availableSize := add32 oldSize nextSize
    let newSize := newSizeOf size
    if oldSize ≥ newSize then return ptr
    else if nextAlloc = 0 ∨ nextSize = 0 then
      if availableSize < newSize then
        let extension := mmMax (sub32 newSize availableSize) chunksize
        let bp ← extendHeap (extension / wsize)
        if bp = 0 then return 0
        else absorbNext ptr (add32 availableSize extension)
      else absorbNext ptr availableSize
    else
      let newPtr ← mmMalloc size
      memcpy newPtr ptr oldSize
      mmFree ptr
      return newPtr

end CToys.Malloc.Segregated
