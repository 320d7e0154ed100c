import CToys.Lib.Contents
import CToys.Lib.Process
import Mathlib.Logic.Function.Basic

/-!
# System calls on files

The kernel holds the contents of the files and a table of open descriptors, each with an
offset of its own.  Two descriptors may be open on one file.

A call of `read` or `write` may transfer fewer bytes than it was asked for, or fail.  The
`Schedule` says what each call does, by its number, so that a theorem for every schedule
is one for every way in which the calls may go.  A call that does not fail transfers at
least one byte if it can transfer any.  Where a call fails, `none` stands for the result -1
of C.  No descriptor is -1, so a program that does not look at the result of `open` goes on
with calls that fail.  The schedule also holds the environment variable `EF_DUMPCORE`, on which
it depends how a program ends after an error.
-/

namespace CToys.Posix

/-- What a descriptor may be used for. -/
inductive Mode where
  /-- `O_RDONLY`. -/
  | rdonly
  /-- `O_WRONLY`. -/
  | wronly
  /-- `O_RDWR`. -/
  | rdwr
deriving DecidableEq, Repr

theorem rdonly_ne_wronly : Mode.rdonly ≠ .wronly := nofun

/-- An open descriptor. -/
structure Descriptor where
  /-- The file it is open on. -/
  file : Nat
  /-- What it may be used for. -/
  mode : Mode
  /-- The file offset. -/
  offset : Nat
deriving DecidableEq, Repr

/-- The descriptor after the transfer of `bytes`. -/
def Descriptor.advance (d : Descriptor) (bytes : List UInt8) : Descriptor :=
  { d with offset := d.offset + bytes.length }

/-- A transfer that was made. -/
inductive Access where
  /-- `bytes` were read at `offset`. -/
  | read (file offset : Nat) (bytes : List UInt8)
  /-- `bytes` were written at `offset`. -/
  | write (file offset : Nat) (bytes : List UInt8)
deriving DecidableEq, Repr

/-- The state that system calls work on. -/
structure Kernel where
  /-- The contents of each file. -/
  files : Nat → List UInt8
  /-- The open descriptors. -/
  fds : Int → Option Descriptor
  /-- The number of calls of `open` so far. -/
  opens : Nat
  /-- The number of calls of `read` so far. -/
  reads : Nat
  /-- The number of calls of `write` so far. -/
  writes : Nat
  /-- The transfers so far, the last one first. -/
  trace : List Access
  /-- What was printed, the last line first. -/
  stdout : List String

/-- What a call does with the bytes it could transfer. -/
inductive Transfer where
  /-- It fails. -/
  | error
  /-- It transfers up to `m + 1` bytes. -/
  | upTo (m : Nat)
  /-- It transfers all. -/
  | all
deriving DecidableEq, Repr

/-- What each call does, and what the environment is. -/
structure Schedule where
  /-- Whether a call of `open` succeeds. -/
  opens : Nat → Bool
  /-- The calls of `read`. -/
  read : Nat → Transfer
  /-- The calls of `write`. -/
  write : Nat → Transfer
  /-- Whether `EF_DUMPCORE` is defined and not empty. -/
  dumpCore : Bool

/-- Opens succeed, reads may be short but do not fail, and writes are complete. -/
structure Schedule.Smooth (sched : Schedule) : Prop where
  opens : ∀ i, sched.opens i = true
  read : ∀ i, sched.read i ≠ .error
  write : ∀ i, sched.write i = .all

/-- Every call transfers all it can. -/
def Schedule.eager : Schedule := ⟨fun _ => true, fun _ => .all, fun _ => .all, false⟩

theorem Schedule.eager_smooth : Schedule.eager.Smooth :=
  ⟨fun _ => rfl, fun _ => nofun, fun _ => rfl⟩

/-- Of `n` bytes, the number that a call transfers. -/
def Transfer.limit : Transfer → Nat → Option Nat
  | .error, _ => none
  | .upTo m, n => some (min n (m + 1))
  | .all, n => some n

theorem Transfer.limit_pos {t : Transfer} (ht : t ≠ .error) {n : Nat} (hn : 0 < n) :
    ∃ m, t.limit n = some m ∧ 0 < m ∧ m ≤ n := by
  cases t with
  | error => exact absurd rfl ht
  | upTo m => exact ⟨_, rfl, by omega, by omega⟩
  | all => exact ⟨_, rfl, hn, Nat.le_refl _⟩

/-- A call that transfers something did not fail. -/
theorem Transfer.ne_error_of_limit {t : Transfer} {m n : Nat} (h : t.limit n = some m) :
    t ≠ .error := by
  rintro rfl
  cases h

/-- A call that could transfer a byte fails, or it transfers one. -/
theorem Transfer.limit_cases (t : Transfer) {n : Nat} (hn : 0 < n) :
    (t = .error ∧ t.limit n = none) ∨ ∃ m, t.limit n = some m ∧ 0 < m ∧ m ≤ n := by
  by_cases ht : t = .error
  · subst ht
    exact .inl ⟨rfl, rfl⟩
  · exact .inr (Transfer.limit_pos ht hn)

/-- Where `lseek` counts from. -/
inductive Whence where
  /-- `SEEK_SET`. -/
  | seekSet
  /-- `SEEK_CUR`. -/
  | seekCur
  /-- `SEEK_END`. -/
  | seekEnd

/-- The offset that `lseek` counts from. -/
def Whence.base (whence : Whence) (k : Kernel) (d : Descriptor) : Nat :=
  match whence with
  | .seekSet => 0
  | .seekCur => d.offset
  | .seekEnd => (k.files d.file).length

namespace Kernel

/-- The kernel with descriptor `fd` open as `d`. -/
def bind (k : Kernel) (fd : Int) (d : Descriptor) : Kernel :=
  { k with fds := Function.update k.fds fd (some d) }

/-- The kernel with descriptor `fd` closed. -/
def unbind (k : Kernel) (fd : Int) : Kernel :=
  { k with fds := Function.update k.fds fd none }

/-- The kernel with other contents of a file. -/
def store (k : Kernel) (file : Nat) (c : List UInt8) : Kernel :=
  { k with files := Function.update k.files file c }

/-- The kernel after a read of `bytes`. -/
def didRead (k : Kernel) (fd : Int) (d : Descriptor) (bytes : List UInt8) : Kernel :=
  { k with reads := k.reads + 1, trace := .read d.file d.offset bytes :: k.trace }.bind fd
    (d.advance bytes)

/-- The kernel after a write of `bytes`. -/
def didWrite (k : Kernel) (fd : Int) (d : Descriptor) (bytes : List UInt8) : Kernel :=
  ({ k with writes := k.writes + 1, trace := .write d.file d.offset bytes :: k.trace }.store d.file
    (writeAt (k.files d.file) d.offset bytes)).bind fd (d.advance bytes)

section

variable (k : Kernel) (fd fd' : Int) (file file' : Nat) (d : Descriptor) (c : List UInt8)

@[simp] theorem bind_files : (k.bind fd d).files = k.files := rfl

@[simp] theorem unbind_files : (k.unbind fd).files = k.files := rfl

@[simp] theorem store_fds : (k.store file c).fds = k.fds := rfl

@[simp] theorem didRead_files : (k.didRead fd d c).files = k.files := rfl

@[simp] theorem didRead_reads : (k.didRead fd d c).reads = k.reads + 1 := rfl

@[simp] theorem didRead_writes : (k.didRead fd d c).writes = k.writes := rfl

@[simp] theorem bind_fds_self : (k.bind fd d).fds fd = some d := Function.update_self ..

@[simp] theorem store_files_self : (k.store file c).files file = c := Function.update_self ..

@[simp] theorem didRead_fds_self : (k.didRead fd d c).fds fd = some (d.advance c) :=
  bind_fds_self ..

@[simp] theorem didWrite_fds_self : (k.didWrite fd d c).fds fd = some (d.advance c) :=
  bind_fds_self ..

@[simp] theorem didWrite_files_self :
    (k.didWrite fd d c).files d.file = writeAt (k.files d.file) d.offset c :=
  store_files_self ..

variable {fd fd' file file'}

theorem bind_fds_of_ne (h : fd' ≠ fd) : (k.bind fd d).fds fd' = k.fds fd' :=
  Function.update_of_ne h ..

theorem unbind_fds_of_ne (h : fd' ≠ fd) : (k.unbind fd).fds fd' = k.fds fd' :=
  Function.update_of_ne h ..

theorem didRead_fds_of_ne (h : fd' ≠ fd) : (k.didRead fd d c).fds fd' = k.fds fd' :=
  bind_fds_of_ne _ _ h

theorem didWrite_fds_of_ne (h : fd' ≠ fd) : (k.didWrite fd d c).fds fd' = k.fds fd' :=
  bind_fds_of_ne _ _ h

variable {d}

theorem didWrite_files_of_ne (h : file ≠ d.file) :
    (k.didWrite fd d c).files file = k.files file :=
  Function.update_of_ne h ..

end

end Kernel

/-! ## The calls -/

/-- A call that works on the kernel. -/
def syscall {α : Type} (call : Kernel → α × Kernel) : Process Kernel α := fun k => .ok (call k)

/-- `open` of an existing file, with or without `O_TRUNC`. -/
def openFile (sched : Schedule) (file : Nat) (mode : Mode) (trunc : Bool) :
    Process Kernel Int :=
  syscall fun k =>
    let called : Kernel := { k with opens := k.opens + 1 }
    if sched.opens k.opens then
      let opened := called.bind k.opens ⟨file, mode, 0⟩
      (k.opens, if trunc then opened.store file [] else opened)
    else (-1, called)

/-- `close`. -/
def close (fd : Int) : Process Kernel Bool :=
  syscall fun k => ((k.fds fd).isSome, k.unbind fd)

/-- `read` of up to `n` bytes. -/
def read (sched : Schedule) (fd : Int) (n : Nat) : Process Kernel (Option (List UInt8)) :=
  syscall fun k =>
    let called : Kernel := { k with reads := k.reads + 1 }
    match k.fds fd, (sched.read k.reads).limit n with
    | some d, some m =>
        if d.mode = .wronly then (none, called)
        else
          let bytes := readAt (k.files d.file) d.offset m
          (some bytes, k.didRead fd d bytes)
    | _, _ => (none, called)

/-- `write` of the bytes `data`. -/
def write (sched : Schedule) (fd : Int) (data : List UInt8) : Process Kernel (Option Nat) :=
  syscall fun k =>
    let called : Kernel := { k with writes := k.writes + 1 }
    match k.fds fd, (sched.write k.writes).limit data.length with
    | some d, some m =>
        if d.mode = .rdonly then (none, called)
        else
          let bytes := data.take m
          (some bytes.length, k.didWrite fd d bytes)
    | _, _ => (none, called)

/-- `lseek`. -/
def lseek (fd : Int) (off : Int) (whence : Whence) : Process Kernel (Option Nat) :=
  syscall fun k =>
    match k.fds fd with
    | none => (none, k)
    | some d =>
        let target := (whence.base k d : Int) + off
        if target < 0 then (none, k)
        else (some target.toNat, k.bind fd { d with offset := target.toNat })

/-- `ftruncate`. -/
def ftruncate (fd : Int) (len : Int) : Process Kernel Bool :=
  syscall fun k =>
    match k.fds fd with
    | none => (false, k)
    | some d =>
        if len < 0 ∨ d.mode = .rdonly then (false, k)
        else (true, k.store d.file (resize (k.files d.file) len.toNat))

/-- `fprintf(stdout, ..)`. -/
def print (text : String) : Process Kernel Unit :=
  syscall fun k => ((), { k with stdout := text :: k.stdout })

/-- A loop that reads a file to its end makes at most one round for each byte and one more. -/
def rounds (fd : Int) : Process Kernel Nat :=
  syscall fun k =>
    match k.fds fd with
    | none => (1, k)
    | some d => ((k.files d.file).length + 1, k)

/-- A call does not exit. -/
theorem exits_syscall {α β : Type} {call : Kernel → α × Kernel}
    {f : α → Process Kernel β} {k k' : Kernel} {status : Nat}
    (h : Exits (syscall call >>= f) k status k') :
    ∃ a k₁, Returns (syscall call) k a k₁ ∧ Exits (f a) k₁ status k' :=
  h.of_bind.resolve_left nofun

/-! ## What they do -/

section

variable {sched : Schedule} {k : Kernel} {fd : Int} {n : Nat} {d : Descriptor}

/-- A read that transfers up to `m` bytes. -/
theorem read_limit_returns {m : Nat} (hm : (sched.read k.reads).limit n = some m)
    (hfd : k.fds fd = some d) (hmode : d.mode ≠ .wronly) :
    Returns (read sched fd n) k (some (readAt (k.files d.file) d.offset m))
      (k.didRead fd d (readAt (k.files d.file) d.offset m)) := by
  unfold Returns read syscall
  simp only [hfd, hm, if_neg hmode]

/-- A read that fails. -/
theorem read_error_returns (hm : (sched.read k.reads).limit n = none)
    (hfd : k.fds fd = some d) :
    Returns (read sched fd n) k none { k with reads := k.reads + 1 } := by
  unfold Returns read syscall
  simp only [hfd, hm]

/-- A write that transfers up to `m` bytes. -/
theorem write_limit_returns {m : Nat} {data : List UInt8}
    (hm : (sched.write k.writes).limit data.length = some m) (hfd : k.fds fd = some d)
    (hmode : d.mode ≠ .rdonly) :
    Returns (write sched fd data) k (some (data.take m).length)
      (k.didWrite fd d (data.take m)) := by
  unfold Returns write syscall
  simp only [hfd, hm, if_neg hmode]

/-- A write that fails. -/
theorem write_error_returns {data : List UInt8}
    (hm : (sched.write k.writes).limit data.length = none) (hfd : k.fds fd = some d) :
    Returns (write sched fd data) k none { k with writes := k.writes + 1 } := by
  unfold Returns write syscall
  simp only [hfd, hm]

/-- A read that does not fail is at the end of the file, or reads the next bytes. -/
theorem read_cases (hs : ∀ i, sched.read i ≠ .error) (hn : 0 < n) (hfd : k.fds fd = some d)
    (hmode : d.mode ≠ .wronly) {rest : List UInt8} (hrest : (k.files d.file).drop d.offset = rest) :
    (rest = [] ∧ Returns (read sched fd n) k (some []) (k.didRead fd d [])) ∨
    ∃ bytes rest', bytes ≠ [] ∧ bytes.length ≤ n ∧ rest = bytes ++ rest' ∧
      Returns (read sched fd n) k (some bytes) (k.didRead fd d bytes) := by
  obtain ⟨m, hm, hpos, hle⟩ := Transfer.limit_pos (hs k.reads) hn
  have hret := read_limit_returns hm hfd hmode
  rw [readAt, hrest] at hret
  cases rest with
  | nil => exact .inl ⟨rfl, by simpa using hret⟩
  | cons c rest =>
    refine .inr ⟨(c :: rest).take m, (c :: rest).drop m, ?_, ?_, ?_, hret⟩
    · simp [Nat.ne_of_gt hpos]
    · exact Nat.le_trans (List.length_take_le _ _) hle
    · rw [List.take_append_drop]

/-- A complete write. -/
theorem write_returns (hs : ∀ i, sched.write i = .all) (hfd : k.fds fd = some d)
    (hmode : d.mode ≠ .rdonly) (data : List UInt8) :
    Returns (write sched fd data) k (some data.length) (k.didWrite fd d data) := by
  have hm : (sched.write k.writes).limit data.length = some data.length := by rw [hs]; rfl
  have hret := write_limit_returns hm hfd hmode
  rwa [List.take_length] at hret

/-- A write that is not complete takes the first bytes only, or none. -/
theorem write_cases (sched : Schedule) {data : List UInt8} (hdata : data ≠ [])
    (hfd : k.fds fd = some d) (hmode : d.mode ≠ .rdonly) :
    Returns (write sched fd data) k (some data.length) (k.didWrite fd d data) ∨
      ∃ num n k', Returns (write sched fd data) k num k' ∧ num ≠ some data.length ∧
        n < data.length ∧ k'.files = (k.didWrite fd d (data.take n)).files := by
  have hpos := List.length_pos_of_ne_nil hdata
  rcases (sched.write k.writes).limit_cases hpos with ⟨-, hm⟩ | ⟨m, hm, -, hle⟩
  · refine .inr ⟨none, 0, _, write_error_returns hm hfd, nofun, hpos, ?_⟩
    exact (Function.update_eq_self d.file k.files).symm
  have hret := write_limit_returns hm hfd hmode
  rcases Nat.eq_or_lt_of_le hle with rfl | hlt
  · rw [List.take_length] at hret
    exact .inl hret
  · refine .inr ⟨_, m, _, hret, ?_, hlt, rfl⟩
    rw [List.length_take, Nat.min_eq_left hle]
    exact fun heq => absurd (Option.some.inj heq) hlt.ne

/-- A seek to a valid offset. -/
theorem lseek_returns {whence : Whence} {off : Int} {target : Nat} (hfd : k.fds fd = some d)
    (htarget : whence.base k d + off = target) :
    Returns (lseek fd off whence) k (some target) (k.bind fd { d with offset := target }) := by
  have hpos : ¬ (target : Int) < 0 := by omega
  unfold Returns lseek syscall
  simp only [hfd, htarget, if_neg hpos, Int.toNat_natCast]

/-- Cutting a file. -/
theorem ftruncate_returns {len : Nat} (hfd : k.fds fd = some d) (hmode : d.mode ≠ .rdonly) :
    Returns (ftruncate fd len) k true (k.store d.file (resize (k.files d.file) len)) := by
  have hpos : ¬ ((len : Int) < 0 ∨ d.mode = .rdonly) := by
    rintro (h | h)
    · omega
    · exact hmode h
  unfold Returns ftruncate syscall
  simp only [hfd, if_neg hpos, Int.toNat_natCast]

/-- Opening a file. -/
theorem openFile_returns {file : Nat} {mode : Mode} {trunc : Bool}
    (hs : sched.opens k.opens = true) :
    Returns (openFile sched file mode trunc) k (k.opens : Int)
      (let opened := { k with opens := k.opens + 1 }.bind k.opens ⟨file, mode, 0⟩
       if trunc then opened.store file [] else opened) := by
  unfold Returns openFile syscall
  simp only [hs, if_true]

/-- A file that cannot be opened. -/
theorem openFile_error_returns {file : Nat} {mode : Mode} {trunc : Bool}
    (hs : sched.opens k.opens = false) :
    Returns (openFile sched file mode trunc) k (-1) { k with opens := k.opens + 1 } := by
  unfold Returns openFile syscall
  simp only [hs, Bool.false_eq_true, if_false]

/-- Closing a descriptor, open or not. -/
theorem close_apply (k : Kernel) (fd : Int) :
    Returns (close fd) k (k.fds fd).isSome (k.unbind fd) := rfl

theorem close_returns (hfd : k.fds fd = some d) :
    Returns (close fd) k true (k.unbind fd) := by
  have h := close_apply k fd
  rwa [hfd] at h

theorem rounds_returns (hfd : k.fds fd = some d) :
    Returns (rounds fd) k ((k.files d.file).length + 1) k := by
  unfold Returns rounds syscall
  simp only [hfd]

end

/-! ## Output -/

/-- A call that leaves something alone. -/
theorem syscall_keeps {α β : Type} {see : Kernel → β} {call : Kernel → α × Kernel}
    (h : ∀ k, see (call k).2 = see k) : Keeps see (syscall call) := by
  intro k a k' hret
  obtain rfl : (call k).2 = k' := congrArg Prod.snd (Except.ok.inj hret)
  exact h k

/-- A call that prints nothing. -/
theorem syscall_quiet {α : Type} {call : Kernel → α × Kernel}
    (h : ∀ k, (call k).2.stdout = k.stdout) : Keeps Kernel.stdout (syscall call) := by
  intro k a k' hret
  obtain rfl : (call k).2 = k' := congrArg Prod.snd (Except.ok.inj hret)
  exact h k

theorem read_quiet (sched : Schedule) (fd : Int) (n : Nat) :
    Keeps Kernel.stdout (read sched fd n) := by
  refine syscall_quiet fun k => ?_
  dsimp only
  split
  · split <;> rfl
  · rfl

theorem write_quiet (sched : Schedule) (fd : Int) (data : List UInt8) :
    Keeps Kernel.stdout (write sched fd data) := by
  refine syscall_quiet fun k => ?_
  dsimp only
  split
  · split <;> rfl
  · rfl

theorem lseek_quiet (fd off : Int) (whence : Whence) :
    Keeps Kernel.stdout (lseek fd off whence) := by
  refine syscall_quiet fun k => ?_
  split
  · rfl
  · dsimp only
    split <;> rfl

theorem ftruncate_quiet (fd len : Int) : Keeps Kernel.stdout (ftruncate fd len) := by
  refine syscall_quiet fun k => ?_
  split
  · rfl
  · split <;> rfl

theorem rounds_quiet (fd : Int) : Keeps Kernel.stdout (rounds fd) := by
  refine syscall_quiet fun k => ?_
  split <;> rfl

end CToys.Posix
