import CToys.Lib.Lines
import CToys.Lib.MachineInt
import CToys.Lib.Process

/-!
# `my_getline`

`my_getline` reads a line into a buffer that it allocates and enlarges.  The state holds
what its arguments point to: the buffer at `*lineptr`, the size `*n` that the caller sees,
and the bytes that are left of the stream.  The true size of a buffer is a field of its
own, and a store at or beyond it stops the program.

An `Allocator` says which calls of `malloc` and `realloc` succeed.  It never grants
`2 ^ 63` bytes or more, since no object is larger than `PTRDIFF_MAX`.
-/

namespace CToys.Stdio

/-- A buffer that `malloc` or `realloc` returned. -/
structure Buffer where
  /-- Its true size. -/
  size : Nat
  /-- Its bytes. -/
  bytes : Nat → UInt8

/-- The buffer after a store. -/
def Buffer.set (b : Buffer) (i : Nat) (c : UInt8) : Buffer :=
  { b with bytes := Function.update b.bytes i c }

/-- The first `k` bytes of a buffer. -/
def Buffer.take (b : Buffer) (k : Nat) : List UInt8 := (List.range k).map b.bytes

/-- Which calls of the allocator succeed, and what is in memory that it hands out. -/
structure Allocator where
  /-- Whether call `k` succeeds, if it is for `size` bytes. -/
  grants : (k size : Nat) → Bool
  /-- The bytes of fresh memory. -/
  fill : (k i : Nat) → UInt8
  /-- The largest object. -/
  limit : ∀ k size, grants k size = true → size < 2 ^ 63

/-- The values of `errno` that `my_getline` sets. -/
inductive Errno where
  /-- `EINVAL`. -/
  | einval
  /-- `ENOMEM`. -/
  | enomem
deriving DecidableEq, Repr

/-- What the arguments point to, and the program's environment. -/
structure State where
  /-- What is left to read. -/
  stream : List UInt8
  /-- `*lineptr`. -/
  lineptr : Option Buffer
  /-- `*n`. -/
  n : Nat
  /-- The number of calls of `malloc` and `realloc` so far. -/
  allocs : Nat
  /-- `errno`, if it was set. -/
  errno : Option Errno
  /-- What was printed, the last line first. -/
  stdout : List String

/-- Which of the pointers `lineptr`, `n` and `stream` are not `NULL`. -/
structure Args where
  lineptr : Bool
  n : Bool
  stream : Bool

/-- No pointer is `NULL`. -/
def Args.all : Args := ⟨true, true, true⟩

/-- `MALLOCSIZE`. -/
def mallocSize : Nat := 120

/-- `EOF` is `none`. -/
def getByte : Process State (Option UInt8) := fun s =>
  match s.stream with
  | [] => .ok (none, s)
  | c :: stream => .ok (some c, { s with stream := stream })

/-- Set `errno`. -/
def setErrno (e : Errno) : Process State Unit := fun s => .ok ((), { s with errno := some e })

/-- Assign `*n`. -/
def setN (n : Nat) : Process State Unit := fun s => .ok ((), { s with n := n })

/-- `*lineptr = malloc(*n)`, and whether it is not `NULL`. -/
def mallocLine (al : Allocator) : Process State Bool := fun s =>
  if al.grants s.allocs s.n then
    .ok (true, { s with allocs := s.allocs + 1, lineptr := some ⟨s.n, al.fill s.allocs⟩ })
  else .ok (false, { s with allocs := s.allocs + 1, lineptr := none })

/-- The buffer that `realloc` makes of another one: the bytes are kept as far as they fit. -/
def Buffer.resized (b : Buffer) (al : Allocator) (k size : Nat) : Buffer :=
  ⟨size, fun i => if i < b.size then b.bytes i else al.fill k i⟩

/-- `realloc(*lineptr, *n)`, and whether it is not `NULL`.  If it is, `*lineptr` stays. -/
def reallocLine (al : Allocator) : Process State Bool := fun s =>
  let old := s.lineptr.getD ⟨0, al.fill s.allocs⟩
  if al.grants s.allocs s.n then
    .ok (true, { s with
      allocs := s.allocs + 1, lineptr := some (old.resized al s.allocs s.n) })
  else .ok (false, { s with allocs := s.allocs + 1 })

/-- A store through `cur_pos`. -/
def storeLine (i : Nat) (c : UInt8) : Process State Unit := fun s =>
  match s.lineptr with
  | none => .error .bounds
  | some b =>
      if i < b.size then .ok ((), { s with lineptr := some (b.set i c) }) else .error .bounds

/-- Enlarge the buffer for byte number `count` if it must be, and return where `cur_pos` is
then, or `none` if there is no memory. -/
def makeRoom (al : Allocator) (count curPos : Nat) : Process State (Option Nat) := do
  let s ← get
  if count > sub64 s.n 1 then
    setN (mul64 s.n 2)
    if ← reallocLine al then return some (count - 1)
    else
      setErrno .enomem
      return none
  else return some curPos

/-- `(ssize_t)count`. -/
def ssize (count : Nat) : Int := (count : Int).bmod (2 ^ 64)

/-- The `for` loop. -/
def readLoop (al : Allocator) : (left count curPos : Nat) → Process State Int
  | 0, _, _ => throw .diverges
  | left + 1, count, curPos => do
      match ← getByte with
      | none => return -1
      | some c =>
          match ← makeRoom al (add64 count 1) curPos with
          | none => return -1
          | some curPos =>
              storeLine curPos c
              if c = newline then
                storeLine (curPos + 1) 0
                return ssize (add64 count 1)
              else readLoop al left (add64 count 1) (curPos + 1)

/-- Read a line into the buffer.  A round reads one byte. -/
def readLine (al : Allocator) : Process State Int := do
  let s ← get
  readLoop al (s.stream.length + 1) 0 0

/-- `my_getline`. -/
def myGetline (al : Allocator) (args : Args) : Process State Int := do
  if ¬ (args.lineptr ∧ args.n ∧ args.stream) then
    setErrno .einval
    return -1
  else
    let s ← get
    if s.lineptr.isNone then
      setN mallocSize
      if ← mallocLine al then readLine al
      else
        setErrno .enomem
        return -1
    else readLine al

/-- `fprintf(stdout, ..)`. -/
def printLine (text : String) : Process State Unit := fun s =>
  .ok ((), { s with stdout := text :: s.stdout })

/-- What `main` prints for a line. -/
def report (size : Int) : Process State Unit := do
  printLine ("Line count: " ++ toString size ++ "\n")
  let s ← get
  printLine ("Line size: " ++ toString s.n ++ "\n")

/-- The loop of `main`. -/
def mainLoop (al : Allocator) : (left : Nat) → Process State Unit
  | 0 => throw .diverges
  | left + 1 => do
      let size ← myGetline al .all
      if size ≥ 0 then
        report size
        mainLoop al left
      else return ()

/-- The state in which `main` starts to read a file. -/
def opened (stream : List UInt8) : State where
  stream := stream
  lineptr := none
  n := 0
  allocs := 0
  errno := none
  stdout := []

end CToys.Stdio
