import CToys.Lib.Lines
import CToys.Lib.MachineInt
import CToys.Lib.Posix

/-!
# Deleting a line in place

`mylined` deletes a line of a file through two descriptors of the file.  It looks for the
newline before the line (`prevbrk`) and the newline of the line (`curbrk`), copies what is
behind the second one to where the first one ends, and cuts the file.

`scanLoop` is the search and `shiftLoop` the copying loop.  An offset of 0 stands for "not
found yet", so `prevbrk` is never the first byte of the file unless nothing else is found.
-/

namespace CToys.Sysio

open Posix

/-- `BUFSIZE`. -/
def bufSize : Nat := 1024

/-- The variables of the search. -/
structure Scan where
  /-- The number of newlines so far. -/
  linebrks : Nat
  /-- The offset of the newline before the line. -/
  prevbrk : Int
  /-- The offset of the newline of the line. -/
  curbrk : Int
deriving DecidableEq, Repr

/-- A round of the `for` loop with the byte `c` at offset `off`, and whether it ends with
`break`. -/
def scanByte (lineno : Nat) (s : Scan) (c : UInt8) (off : Int) : Scan × Bool :=
  let linebrks := if c = newline then add64 s.linebrks 1 else s.linebrks
  let prevbrk := if linebrks = sub64 lineno 1 ∧ s.prevbrk = 0 then off else s.prevbrk
  if linebrks = lineno ∧ s.curbrk = 0 then (⟨linebrks, prevbrk, off⟩, true)
  else (⟨linebrks, prevbrk, s.curbrk⟩, false)

/-- The `for` loop over a chunk, from index `i` on. -/
def scanChunk (lineno : Nat) (pos : Int) : (buf : List UInt8) → (i : Int) → Scan → Scan
  | [], _, s => s
  | c :: buf, i, s =>
      let (s', done) := scanByte lineno s c (int32 (pos + i))
      if done then s' else scanChunk lineno pos buf (i + 1) s'

/-- The search.  A failed read ends it like the end of the file. -/
def scanLoop (sched : Schedule) (fd1 : Int) (lineno : Nat) :
    (left : Nat) → (pos : Int) → Scan → Process Kernel Scan
  | 0, _, _ => throw .diverges
  | left + 1, pos, s => do
      match ← read sched fd1 bufSize with
      | none => return s
      | some [] => return s
      | some buf =>
          let s' := scanChunk lineno pos buf 0 s
          if s'.linebrks = lineno then return s'
          else scanLoop sched fd1 lineno left (int32 (pos + buf.length)) s'

/-- The copying loop. -/
def shiftLoop (sched : Schedule) (fd1 fd2 : Int) : (left : Nat) → Process Kernel Unit
  | 0 => throw .diverges
  | left + 1 => do
      match ← read sched fd1 bufSize with
      | none => exit 1
      | some [] => return ()
      | some buf =>
          match ← write sched fd2 buf with
          | none => exit 1
          | some _ => shiftLoop sched fd1 fd2 left

/-- Copy, and cut the file to the right size. -/
def shift (sched : Schedule) (fd1 fd2 prevbrk curbrk : Int) : Process Kernel Unit := do
  shiftLoop sched fd1 fd2 (← rounds fd1)
  match ← lseek fd1 0 .seekEnd with
  | none => exit 1
  | some off =>
      let totalLen := int32 off
      if totalLen < 0 then exit 1
      else
        if ← ftruncate fd2 (int32 (totalLen - int32 (curbrk - prevbrk))) then return ()
        else exit 1

/-- Set both cursors. -/
def setCursors (fd1 fd2 prevbrk curbrk : Int) : Process Kernel Unit := do
  match ← lseek fd1 (int32 (curbrk + 1)) .seekSet with
  | none => exit 1
  | some _ =>
      match ← lseek fd2 (int32 (prevbrk + 1)) .seekSet with
      | none => exit 1
      | some _ => return ()

/-- The file. -/
def theFile : Nat := 0

/-- `main`, with the line number that `atoi` makes of its argument.  The results of `open`
are not looked at. -/
def mylined (sched : Schedule) (lineno : Nat) : Process Kernel Unit := do
  let fd1 ← openFile sched theFile .rdonly false
  let fd2 ← openFile sched theFile .rdwr false
  let s ← scanLoop sched fd1 lineno (← rounds fd1) 0 ⟨0, 0, 0⟩
  if s.linebrks < lineno then
    print ("No Line " ++ toString lineno ++ "\n")
    let _ ← close fd1
    let _ ← close fd2
    exit 0
  else
    setCursors fd1 fd2 s.prevbrk s.curbrk
    shift sched fd1 fd2 s.prevbrk s.curbrk
    let _ ← close fd1
    let _ ← close fd2
    exit 0

/-- The state in which the program starts. -/
def start (content : List UInt8) : Kernel where
  files := fun _ => content
  fds := fun _ => none
  opens := 3
  reads := 0
  writes := 0
  trace := []
  stdout := []

end CToys.Sysio
