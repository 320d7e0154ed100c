import CToys.Lib.Glob
import CToys.Lib.Process

/-!
# `mydu`

`mydu` adds up the blocks of the files in a directory, and of its subdirectories.  The
entries of a directory are what two calls of `glob` find, `path/*` for the plain ones and
`path/.*` for the hidden ones, with `.` and `..` left out afterwards.

The patterns are made in a buffer of `BUFSIZE` bytes.  The sum is an `int64_t`, which no
disk has the blocks to overflow.  The recursion is bounded by `depth`, and a program that
goes deeper diverges.
-/

namespace CToys.Fs

variable {σ : Type}

/-- `BUFSIZE`. -/
def bufsize : Nat := 1024

/-- `strrchr`: the string from the last `c` on. -/
def strrchr (c : UInt8) : Path → Option Path
  | [] => none
  | x :: xs =>
      match strrchr c xs with
      | some p => some p
      | none => if x = c then some (x :: xs) else none

/-- `path_check`: whether the last component is neither `.` nor `..`. -/
def pathCheck (pathname : Path) : Process σ Bool :=
  match strrchr slash pathname with
  | none => exit 1
  | some p => return ¬ (p.tail = [dot] ∨ p.tail = [dot, dot])

/-- `strncpy(pattern, pathname, BUFSIZE)`.  A longer name is not terminated in the buffer, and
`strncat` then leaves it. -/
def strncpy (pathname : Path) : Process σ Path :=
  if pathname.length < bufsize then return pathname else throw .bounds

/-- `strncat(pattern, suffix, BUFSIZE-1)`. -/
def strncat (pattern suffix : Path) : Process σ Path :=
  if pattern.length + suffix.length < bufsize then return pattern ++ suffix else throw .bounds

/-- The paths that match `pathname` with a suffix.  It is an error if there are none. -/
def globSuffix (W : Wildcards) (fs : FileSystem) (pathname suffix : Path) :
    Process σ (List Path) := do
  let pattern ← strncat (← strncpy pathname) suffix
  match fs.glob W pattern with
  | none => exit 1
  | some paths => return paths

/-- The two calls of `glob`, the second one with `GLOB_APPEND`. -/
def search (W : Wildcards) (fs : FileSystem) (pathname : Path) : Process σ (List Path) := do
  let globres ← globSuffix W fs pathname [slash, star]
  let hidden ← globSuffix W fs pathname [slash, dot, star]
  return globres ++ hidden

/-- The loop over `globres.gl_pathv`. -/
def sumLoop (du : Path → Process σ Nat) : List Path → (sum : Nat) → Process σ Nat
  | [], sum => return sum
  | path :: paths, sum => do
      if ← pathCheck path then
        let n ← du path
        sumLoop du paths (sum + n)
      else sumLoop du paths sum

/-- `mydu`. -/
def mydu (W : Wildcards) (fs : FileSystem) : (depth : Nat) → (pathname : Path) → Process Unit Nat
  | 0, _ => throw .diverges
  | depth + 1, pathname =>
      match fs.lstat pathname with
      | none => exit 1
      | some (.file st) => return st.blocks
      | some (.dir st _ _) => do
          let globres ← search W fs pathname
          let sum ← sumLoop (mydu W fs depth) globres 0
          return sum + st.blocks

end CToys.Fs
