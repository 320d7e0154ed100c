import CToys.Lib.MachineInt
import CToys.Lib.Process
import CToys.Malloc.Macros

/-!
# The driver

`mdriver.c` runs an allocator on traces of requests.  A `Package` is the four functions that
are linked to it.  `eval_mm_valid` checks every answer of the package, `eval_mm_util` measures
how much of the heap the payloads fill, and `eval_mm_speed` only makes the calls.

The checks are about the *range list*, which has the extent of each payload that was handed
out and not taken back.  Payloads are filled with the low byte of their index, so a
reallocation can be checked too.

An `int` is an integer and a `size_t` a number below `2 ^ 32`; pointers are as in the model of
the memory system.  A failed `assert` ends the driver as `abort` does.

The driver takes memory of its own from the C library.  A `Supply` says which calls of `malloc`
are served, by their number, so that a theorem for every supply is one for every way in which
memory may run out.
-/

namespace CToys.Malloc

variable {A : Arena} {ρ : Type}

/-! ## Bytes -/

/-- `*(char *)p`.  A `char` is signed. -/
def loadChar (p : Nat) : Prog A ρ Int := fun σ =>
  if A.InStorage p 1 then
    let v := (σ.storage (p - A.start)).toNat
    .ok (if v < 128 then v else (v : Int) - 256, σ)
  else .error (.segv p)

/-- The memory with `n` times the byte `v` at `a`. -/
def fill (m : Memory) (a n : Nat) (v : UInt8) : Memory := fun b =>
  if a ≤ b ∧ b < a + n then v else m b

/-- `memset`. -/
def memset (p : Nat) (v : UInt8) (n : Nat) : Prog A ρ Unit := fun σ =>
  if n = 0 then .ok ((), σ)
  else if A.InStorage p n then
    .ok ((), σ.withStorage (fill σ.storage (p - A.start) n v))
  else .error (.segv p)

/-- The conversion of an `int` to a `size_t`. -/
def sizeT (n : Int) : Nat := (n % 2 ^ 32).toNat

namespace Driver

/-! ## State -/

/-- An allocator. -/
structure Package (A : Arena) (ρ : Type) where
  mmInit : Prog A ρ Int
  mmMalloc : (size : Nat) → Prog A ρ Nat
  mmFree : (ptr : Nat) → Prog A ρ Unit
  mmRealloc : (ptr size : Nat) → Prog A ρ Nat

/-- `range_t`: the extent of a payload. -/
structure Range where
  /-- The address of the first byte. -/
  lo : Nat
  /-- The address of the last byte. -/
  hi : Nat
deriving DecidableEq, Repr

/-- The kinds of requests. -/
inductive Kind where
  | alloc
  | free
  | realloc
deriving DecidableEq, Repr

/-- `traceop_t`.  The index is an `int` that is negative from `2 ^ 31` on. -/
structure TraceOp where
  kind : Kind
  index : Nat
  size : Int
deriving DecidableEq, Repr

/-- `trace_t`, without the two arrays that the evaluation writes.  There are `num_ops`
requests in the array `ops`. -/
structure Trace where
  suggHeapsize : Int
  numIds : Int
  weight : Int
  ops : List TraceOp
deriving DecidableEq, Repr

/-- The messages of `malloc_error`. -/
inductive Complaint where
  /-- `Payload address (%p) not aligned to %d bytes`. -/
  | misaligned (lo : Nat)
  /-- `Payload (%p:%p) lies outside heap (%p:%p)`. -/
  | outside (lo hi heapLo heapHi : Nat)
  /-- `Payload (%p:%p) overlaps another payload (%p:%p)`. -/
  | overlaps (lo hi lo' hi' : Nat)
  /-- `mm_init failed.` -/
  | initFailed
  /-- `mm_malloc failed.` -/
  | mallocFailed
  /-- `mm_realloc failed.` -/
  | reallocFailed
  /-- `mm_realloc did not preserve the data from old block`. -/
  | notPreserved
deriving DecidableEq, Repr

/-- `ERROR [trace %d, line %d]: %s`. -/
structure Report where
  tracenum : Nat
  line : Nat
  complaint : Complaint
deriving DecidableEq, Repr

/-- The memory system and the variables of the driver. -/
structure State (A : Arena) (ρ : Type) where
  machine : Machine A ρ
  /-- `ranges`. -/
  ranges : List Range
  /-- `trace->blocks`. -/
  blocks : Nat → Nat
  /-- `trace->block_sizes`. -/
  blockSizes : Nat → Nat
  /-- The errors that were printed, which `errors` counts. -/
  errors : List Report

/-- What the driver does. -/
abbrev Eval (A : Arena) (ρ : Type) : Type → Type := Process (State A ρ)

/-- A call into the package or the memory system. -/
def call {α : Type} (x : Prog A ρ α) : Eval A ρ α := fun d =>
  match x d.machine with
  | .ok (a, σ) => .ok (a, { d with machine := σ })
  | .error .diverges => .error .diverges
  | .error _ => .error .bounds

/-- `malloc_error`. -/
def mallocError (tracenum opnum : Nat) (msg : Complaint) : Eval A ρ Unit := fun d =>
  .ok ((), { d with errors := d.errors ++ [⟨tracenum, opnum + 5, msg⟩] })

/-- `app_error`. -/
def appError {α : Type} : Eval A ρ α := exit 1

/-- `unix_error`. -/
def unixError {σ α : Type} : Process σ α := exit 1

/-- Which calls of `malloc` are served. -/
abbrev Supply := (call size : Nat) → Bool

/-- All of them are. -/
def plenty : Supply := fun _ _ => true

/-- A call of `malloc`, and the test of its result. -/
def reserve {σ : Type} (supply : Supply) (call size : Nat) : Process σ Unit :=
  if supply call size then return () else unixError

theorem reserve_returns {σ : Type} {supply : Supply} {call size : Nat}
    (h : supply call size = true) (s : σ) : Returns (reserve supply call size) s () s := by
  unfold reserve
  rw [if_pos h]
  exact .pure _ _

theorem reserve_exits {σ : Type} {supply : Supply} {call size : Nat}
    (h : supply call size = false) (s : σ) : Exits (reserve supply call size) s 1 s := by
  unfold reserve
  rw [if_neg (by rw [h]; exact Bool.false_ne_true)]
  exact exit_exits 1 s

/-- `mem_heap_lo`. -/
def memHeapLo : Eval A ρ Nat := fun d => .ok (A.start, d)

/-- `mem_heap_hi`. -/
def memHeapHi : Eval A ρ Nat := fun d => .ok (sub32 d.machine.memBrk 1, d)

/-- `mem_heapsize`. -/
def memHeapsize : Eval A ρ Nat := fun d => .ok (sub32 d.machine.memBrk A.start, d)

/-- The length of an array of `n` elements of `elem` bytes. -/
def capacity (n : Int) (elem : Nat) : Nat := sizeT (n * elem) / elem

/-- `trace->blocks[index]`. -/
def getBlock (tr : Trace) (index : Nat) : Eval A ρ Nat := fun d =>
  if index < capacity tr.numIds 4 then .ok (d.blocks index, d) else .error .bounds

/-- `trace->block_sizes[index]`. -/
def getBlockSize (tr : Trace) (index : Nat) : Eval A ρ Nat := fun d =>
  if index < capacity tr.numIds 4 then .ok (d.blockSizes index, d) else .error .bounds

/-- `trace->blocks[index] = p`. -/
def setBlock (tr : Trace) (index p : Nat) : Eval A ρ Unit := fun d =>
  if index < capacity tr.numIds 4 then
    .ok ((), { d with blocks := fun i => if i = index then p else d.blocks i })
  else .error .bounds

/-- `trace->block_sizes[index] = size`. -/
def setBlockSize (tr : Trace) (index size : Nat) : Eval A ρ Unit := fun d =>
  if index < capacity tr.numIds 4 then
    .ok ((), { d with blockSizes := fun i => if i = index then size else d.blockSizes i })
  else .error .bounds

/-! ## Range lists -/

/-- `lo + size - 1`. -/
def lastByte (lo : Nat) (size : Int) : Nat := sizeT (lo + size - 1)

/-- The test of the loop of `add_range`. -/
def meets (lo hi : Nat) (r : Range) : Bool :=
  decide ((lo ≥ r.lo ∧ lo ≤ r.hi) ∨ (hi ≥ r.lo ∧ hi ≤ r.hi))

/-- `sizeof(range_t)`. -/
def rangeSize : Nat := 12

/-- `add_range`.  A request calls it once at most, so the number of the request is the number of
the call of `malloc`. -/
def addRange (supply : Supply) (lo : Nat) (size : Int) (tracenum opnum : Nat) :
    Eval A ρ Bool := do
  let hi := lastByte lo size
  if size ≤ 0 then abort
  else if lo % 8 ≠ 0 then
    mallocError tracenum opnum (.misaligned lo)
    return false
  else
    let heapLo ← memHeapLo
    let heapHi ← memHeapHi
    if lo < heapLo ∨ lo > heapHi ∨ hi < heapLo ∨ hi > heapHi then
      mallocError tracenum opnum (.outside lo hi heapLo heapHi)
      return false
    else
      match (← get).ranges.find? (meets lo hi) with
      | some p =>
          mallocError tracenum opnum (.overlaps lo hi p.lo p.hi)
          return false
      | none =>
          reserve supply opnum rangeSize
          modify fun d => { d with ranges := ⟨lo, hi⟩ :: d.ranges }
          return true

/-- `remove_range`. -/
def removeRange (lo : Nat) : Eval A ρ Unit :=
  modify fun d => { d with ranges := d.ranges.eraseP (·.lo = lo) }

/-- `clear_ranges`. -/
def clearRanges : Eval A ρ Unit := modify fun d => { d with ranges := [] }

/-! ## Checking -/

/-- The loop of `eval_mm_valid` over the bytes of a block that was reallocated. -/
def preserved (newp c : Nat) : (left j : Nat) → Prog A ρ Bool
  | 0, _ => return true
  | left + 1, j => do
      if (← loadChar (newp + j)) ≠ c then return false else preserved newp c left (j + 1)

/-- A request in `eval_mm_valid`, and whether the loop goes on. -/
def validOp (P : Package A ρ) (supply : Supply) (tr : Trace) (tracenum i : Nat) (op : TraceOp) :
    Eval A ρ Bool :=
  match op.kind with
  | .alloc => do
      let p ← call (P.mmMalloc (sizeT op.size))
      if p = 0 then
        mallocError tracenum i .mallocFailed
        return false
      else if ← addRange supply p op.size tracenum i then
        call (memset p (UInt8.ofNat op.index) (sizeT op.size))
        setBlock tr op.index p
        setBlockSize tr op.index (sizeT op.size)
        return true
      else return false
  | .realloc => do
      let oldp ← getBlock tr op.index
      let newp ← call (P.mmRealloc oldp (sizeT op.size))
      if newp = 0 then
        mallocError tracenum i .reallocFailed
        return false
      else
        removeRange oldp
        if ← addRange supply newp op.size tracenum i then
          let oldsize := toInt32 (← getBlockSize tr op.index)
          let oldsize := if op.size < oldsize then op.size else oldsize
          if ← call (preserved newp (op.index % 256) oldsize.toNat 0) then
            call (memset newp (UInt8.ofNat op.index) (sizeT op.size))
            setBlock tr op.index newp
            setBlockSize tr op.index (sizeT op.size)
            return true
          else
            mallocError tracenum i .notPreserved
            return false
        else return false
  | .free => do
      let p ← getBlock tr op.index
      removeRange p
      call (P.mmFree p)
      return true

/-- The loop of `eval_mm_valid`. -/
def validOps (P : Package A ρ) (supply : Supply) (tr : Trace) (tracenum : Nat) :
    (i : Nat) → List TraceOp → Eval A ρ Bool
  | _, [] => return true
  | i, op :: ops => do
      if ← validOp P supply tr tracenum i op then validOps P supply tr tracenum (i + 1) ops
      else return false

/-- `eval_mm_valid`. -/
def evalMmValid (P : Package A ρ) (supply : Supply) (tr : Trace) (tracenum : Nat) :
    Eval A ρ Bool := do
  call memResetBrk
  clearRanges
  if (← call P.mmInit) < 0 then
    mallocError tracenum 0 .initFailed
    return false
  else validOps P supply tr tracenum 0 tr.ops

/-! ## Measuring -/

/-- A request in `eval_mm_util`: the new total size, and the new maximum. -/
def utilOp (P : Package A ρ) (tr : Trace) (op : TraceOp) (total maxTotal : Int) :
    Eval A ρ (Int × Int) :=
  match op.kind with
  | .alloc => do
      let p ← call (P.mmMalloc (sizeT op.size))
      if p = 0 then appError
      else
        setBlock tr op.index p
        setBlockSize tr op.index (sizeT op.size)
        let total := int32 (total + op.size)
        return (total, if total > maxTotal then total else maxTotal)
  | .realloc => do
      let oldsize := toInt32 (← getBlockSize tr op.index)
      let oldp ← getBlock tr op.index
      let newp ← call (P.mmRealloc oldp (sizeT op.size))
      if newp = 0 then appError
      else
        setBlock tr op.index newp
        setBlockSize tr op.index (sizeT op.size)
        let total := int32 (total + int32 (op.size - oldsize))
        return (total, if total > maxTotal then total else maxTotal)
  | .free => do
      let size := toInt32 (← getBlockSize tr op.index)
      let p ← getBlock tr op.index
      call (P.mmFree p)
      return (int32 (total - size), maxTotal)

/-- The loop of `eval_mm_util`. -/
def utilOps (P : Package A ρ) (tr : Trace) :
    List TraceOp → (total maxTotal : Int) → Eval A ρ Int
  | [], _, maxTotal => return maxTotal
  | op :: ops, total, maxTotal => do
      let (total, maxTotal) ← utilOp P tr op total maxTotal
      utilOps P tr ops total maxTotal

/-- `eval_mm_util`: the two numbers whose quotient it returns. -/
def evalMmUtil (P : Package A ρ) (tr : Trace) : Eval A ρ (Int × Nat) := do
  call memResetBrk
  if (← call P.mmInit) < 0 then appError
  else
    let maxTotal ← utilOps P tr tr.ops 0 0
    return (maxTotal, ← memHeapsize)

/-- A request in `eval_mm_speed`. -/
def speedOp (P : Package A ρ) (tr : Trace) (op : TraceOp) : Eval A ρ Unit :=
  match op.kind with
  | .alloc => do
      let p ← call (P.mmMalloc (sizeT op.size))
      if p = 0 then appError else setBlock tr op.index p
  | .realloc => do
      let oldp ← getBlock tr op.index
      let newp ← call (P.mmRealloc oldp (sizeT op.size))
      if newp = 0 then appError else setBlock tr op.index newp
  | .free => do
      let block ← getBlock tr op.index
      call (P.mmFree block)

/-- The loop of `eval_mm_speed`. -/
def speedOps (P : Package A ρ) (tr : Trace) : List TraceOp → Eval A ρ Unit
  | [] => return ()
  | op :: ops => do
      speedOp P tr op
      speedOps P tr ops

/-- `eval_mm_speed`. -/
def evalMmSpeed (P : Package A ρ) (tr : Trace) : Eval A ρ Unit := do
  call memResetBrk
  if (← call P.mmInit) < 0 then appError else speedOps P tr tr.ops

end Driver

end CToys.Malloc
