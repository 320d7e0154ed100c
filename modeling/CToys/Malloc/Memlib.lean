import CToys.Lib.Outcome
import CToys.Lib.ByteMemory
import Mathlib.Algebra.Ring.Int.Defs

/-!
# The simulated memory system

`memlib.c` gives the allocators one storage of `MAX_HEAP` bytes and a break that only
moves up.  The build is 32-bit: a pointer is a number below `2 ^ 32`, and the storage
lies at `[start, start + MAX_HEAP)`.

An `Arena` is the outcome of `mem_init`, which never changes afterwards.  Its fields say
what `malloc` promises of the storage.  A `Machine` is the rest of the memory system and
the static variables `ρ` of the allocator that runs on it.  Bytes are indexed by their
offset from `mem_start_brk`, pointers are absolute.

An access outside the storage stops the program with `Fault.segv`.
-/

namespace CToys.Malloc

/-- `MAX_HEAP`: 20 MB. -/
def maxHeap : Nat := 20 * (1 <<< 20)

theorem maxHeap_eq : maxHeap = 20971520 := rfl

/-- The storage that `mem_init` takes from `malloc`. -/
structure Arena where
  /-- `mem_start_brk`. -/
  start : Nat
  /-- `malloc` returns storage aligned for every type. -/
  aligned : 8 ∣ start
  /-- `mem_init` exits when `malloc` fails. -/
  pos : 0 < start
  /-- `mem_max_addr` is a pointer. -/
  fits : start + maxHeap < 2 ^ 32

/-- A storage at address 4096. -/
def Arena.low : Arena := ⟨4096, by decide, by decide, by decide⟩

/-- What stops a program. -/
inductive Fault where
  /-- An access through `p` outside the storage. -/
  | segv (p : Nat)
  /-- An array index out of bounds. -/
  | index (i : Nat)
  /-- A `memcpy` between overlapping ranges. -/
  | overlap
  /-- A loop that does not end. -/
  | diverges
deriving DecidableEq, Repr

/-- The number of steps after which a walk along pointers has gone round in a circle. -/
def walkFuel : Nat := 2 ^ 32

/-- The memory system with the static variables `ρ` of an allocator. -/
structure Machine (A : Arena) (ρ : Type) where
  /-- The bytes at `mem_start_brk`, by offset. -/
  storage : Memory
  /-- `mem_brk`. -/
  memBrk : Nat
  /-- The allocator's static variables. -/
  statics : ρ

/-- Programs over the memory system. -/
abbrev Prog (A : Arena) (ρ : Type) : Type → Type := StateT (Machine A ρ) (Except Fault)

variable {A : Arena} {ρ : Type}

/-- The machine with another storage. -/
abbrev Machine.withStorage (σ : Machine A ρ) (m : Memory) : Machine A ρ :=
  { σ with storage := m }

/-- The machine with another break. -/
abbrev Machine.withBrk (σ : Machine A ρ) (brk : Nat) : Machine A ρ := { σ with memBrk := brk }

/-- The `n` bytes at `p` lie in the storage. -/
def Arena.InStorage (A : Arena) (p n : Nat) : Prop := A.start ≤ p ∧ p + n ≤ A.start + maxHeap

instance (A : Arena) (p n : Nat) : Decidable (A.InStorage p n) :=
  inferInstanceAs (Decidable (_ ∧ _))

/-! ## Accesses -/

/-- `*(unsigned int *)p`. -/
def loadWord (p : Nat) : Prog A ρ Nat := fun σ =>
  if A.InStorage p 4 then .ok (σ.storage.word (p - A.start), σ) else .error (.segv p)

/-- `*(unsigned int *)p = v`. -/
def storeWord (p v : Nat) : Prog A ρ Unit := fun σ =>
  if A.InStorage p 4 then
    .ok ((), σ.withStorage (σ.storage.setWord (p - A.start) v))
  else .error (.segv p)

/-- `*(unsigned char *)p = v`. -/
def storeByte (p : Nat) (v : UInt8) : Prog A ρ Unit := fun σ =>
  if A.InStorage p 1 then
    .ok ((), σ.withStorage (σ.storage.setByte (p - A.start) v))
  else .error (.segv p)

/-- `memcpy`, which is undefined between overlapping ranges. -/
def memcpy (dst src n : Nat) : Prog A ρ Unit := fun σ =>
  if n = 0 then .ok ((), σ)
  else if ¬ A.InStorage src n then .error (.segv src)
  else if ¬ A.InStorage dst n then .error (.segv dst)
  else if src < dst + n ∧ dst < src + n then .error .overlap
  else .ok ((), σ.withStorage (σ.storage.copy (dst - A.start) (src - A.start) n))

/-! ## The break -/

/-- The conversion of a `size_t` to an `int` parameter. -/
def toInt32 (n : Nat) : Int := if n < 2 ^ 31 then n else (n : Int) - 2 ^ 32

/-- `(void *)-1`. -/
def sbrkFailed : Nat := 2 ^ 32 - 1

/-- `mem_sbrk`.  The sum of the break and the increment does not wrap. -/
def memSbrk (incr : Int) : Prog A ρ Nat := fun σ =>
  let oldBrk := σ.memBrk
  if incr < 0 ∨ (σ.memBrk : Int) + incr > (A.start + maxHeap : Nat) then .ok (sbrkFailed, σ)
  else .ok (oldBrk, σ.withBrk (σ.memBrk + incr).toNat)

/-- `mem_reset_brk`.  The bytes stay as they are. -/
def memResetBrk : Prog A ρ Unit := fun σ => .ok ((), σ.withBrk A.start)

theorem memResetBrk_bind {β : Type} (f : Unit → Prog A ρ β) (σ : Machine A ρ) :
    (memResetBrk >>= f) σ = f () (σ.withBrk A.start) := rfl

/-! ## What an access does -/

theorem loadWord_returns {σ : Machine A ρ} {o : Nat} (h : o + 4 ≤ maxHeap) :
    Returns (loadWord (A.start + o)) σ (σ.storage.word o) σ := by
  have hin : A.InStorage (A.start + o) 4 := ⟨by omega, by omega⟩
  simp [Returns, loadWord, hin]

theorem storeWord_returns {σ : Machine A ρ} {o v : Nat} (h : o + 4 ≤ maxHeap) :
    Returns (storeWord (A.start + o) v) σ ()
      (σ.withStorage (σ.storage.setWord o v)) := by
  have hin : A.InStorage (A.start + o) 4 := ⟨by omega, by omega⟩
  simp [Returns, storeWord, hin]

theorem storeByte_returns {σ : Machine A ρ} {o : Nat} {v : UInt8} (h : o < maxHeap) :
    Returns (storeByte (A.start + o) v) σ ()
      (σ.withStorage (σ.storage.setByte o v)) := by
  have hin : A.InStorage (A.start + o) 1 := ⟨by omega, by omega⟩
  simp [Returns, storeByte, hin]

theorem memcpy_returns {σ : Machine A ρ} {d s n : Nat} (hs : s + n ≤ maxHeap)
    (hd : d + n ≤ maxHeap) (hds : s + n ≤ d ∨ d + n ≤ s) :
    Returns (memcpy (A.start + d) (A.start + s) n) σ ()
      (σ.withStorage (σ.storage.copy d s n)) := by
  have hsrc : A.InStorage (A.start + s) n := ⟨by omega, by omega⟩
  have hdst : A.InStorage (A.start + d) n := ⟨by omega, by omega⟩
  have hov : ¬ (A.start + s < A.start + d + n ∧ A.start + d < A.start + s + n) := by omega
  by_cases hn : n = 0
  · subst hn
    have hcopy : σ.storage.copy d s 0 = σ.storage := by
      funext b
      exact Memory.copy_apply_of_ne (by omega)
    simp [Returns, memcpy, hcopy]
  · simp [Returns, memcpy, hn, hsrc, hdst, hov]

/-- A copy to `NULL` accesses address 0. -/
theorem memcpy_null {σ : Machine A ρ} {s n : Nat} (hs : s + n ≤ maxHeap) (hn : 0 < n) :
    Fails (memcpy 0 (A.start + s) n) σ (.segv 0) := by
  have hsrc : A.InStorage (A.start + s) n := ⟨by omega, by omega⟩
  have hdst : ¬ A.InStorage 0 n := fun h => by
    have := A.pos
    have := h.1
    omega
  have hn' : n ≠ 0 := by omega
  simp [Fails, memcpy, hn', hsrc, hdst]

/-- A request that fits moves the break. -/
theorem memSbrk_returns {σ : Machine A ρ} {e n : Nat} (hbrk : σ.memBrk = A.start + e)
    (h : e + n ≤ maxHeap) :
    Returns (memSbrk (toInt32 n)) σ (A.start + e)
      (σ.withBrk (A.start + (e + n))) := by
  have hmax := maxHeap_eq
  have hn : toInt32 n = n := by rw [toInt32, if_pos]; omega
  have hok : ¬ ((n : Int) < 0 ∨ ((A.start + e : Nat) : Int) + n > (A.start + maxHeap : Nat)) := by
    omega
  have hsum : (((A.start + e : Nat) : Int) + n).toNat = A.start + (e + n) := by omega
  simp only [Returns, memSbrk, hbrk, hn, if_neg hok, hsum]

/-- A request that does not fit, or is negative as an `int`, is refused. -/
theorem memSbrk_refused {σ : Machine A ρ} {e n : Nat} (hbrk : σ.memBrk = A.start + e)
    (hn : n < 2 ^ 32) (h : maxHeap < e + n) :
    Returns (memSbrk (toInt32 n)) σ sbrkFailed σ := by
  have hbad : toInt32 n < 0 ∨
      ((A.start + e : Nat) : Int) + toInt32 n > (A.start + maxHeap : Nat) := by
    unfold toInt32
    split <;> omega
  simp only [Returns, memSbrk, hbrk, if_pos hbad]

end CToys.Malloc
