import CToys.Lib.Posix

/-!
# Traces of transfers

The kernel keeps a trace of all transfers, the last one first.

*ReadUpTo.*  `ReadUpTo trace file lo hi` says that all bytes from `lo` up to `hi` were read.
*ReadFirst.*  `ReadFirst file lo old new` says that none of the transfers `new` overwrites a
byte from `lo` on that was not read before, by them or by the transfers `old`.
*Ordered.*  `Ordered` is both, for a program that reads ahead of what it writes.
*Stores.*  `stores file trace` lists the bytes written, each with its offset.  `nonzeros` lists
those that a copy has to write if it leaves holes for zero bytes.
-/

namespace CToys.Posix

/-- The byte at offset `p` was read. -/
def WasRead (trace : List Access) (file p : Nat) : Prop :=
  ∃ off bytes, Access.read file off bytes ∈ trace ∧ off ≤ p ∧ p < off + bytes.length

/-- All bytes from `lo` up to `hi` were read. -/
def ReadUpTo (trace : List Access) (file lo hi : Nat) : Prop :=
  ∀ p, lo ≤ p → p < hi → WasRead trace file p

/-- No byte from `lo` on was overwritten before it was read. -/
def ReadFirst (file lo : Nat) (old : List Access) : (new : List Access) → Prop
  | [] => True
  | .read .. :: new => ReadFirst file lo old new
  | .write file' off bytes :: new => ReadFirst file lo old new ∧
      (file' = file → ∀ p, lo ≤ p → off ≤ p → p < off + bytes.length →
        WasRead (new ++ old) file p)

section

variable {trace old new : List Access} {file lo hi off p : Nat} {bytes : List UInt8}

theorem WasRead.cons (h : WasRead trace file p) (a : Access) : WasRead (a :: trace) file p := by
  obtain ⟨off, bytes, hmem, hp⟩ := h
  exact ⟨off, bytes, List.mem_cons_of_mem a hmem, hp⟩

theorem ReadUpTo.cons (h : ReadUpTo trace file lo hi) (a : Access) :
    ReadUpTo (a :: trace) file lo hi :=
  fun p hlo hhi => (h p hlo hhi).cons a

/-- No byte is to be read yet. -/
theorem ReadUpTo.refl (trace : List Access) (file lo : Nat) : ReadUpTo trace file lo lo :=
  fun _ hlo hhi => absurd hhi (Nat.not_lt.mpr hlo)

/-- The next bytes were read. -/
theorem ReadUpTo.read (h : ReadUpTo trace file lo hi) (bytes : List UInt8) :
    ReadUpTo (.read file hi bytes :: trace) file lo (hi + bytes.length) := by
  intro p hlo hp
  rcases Nat.lt_or_ge p hi with hlt | hge
  · exact (h p hlo hlt).cons _
  · exact ⟨hi, bytes, List.mem_cons_self, hge, hp⟩

/-- Bytes that were read are overwritten. -/
theorem ReadFirst.write (h : ReadFirst file lo old new) (hread : ReadUpTo (new ++ old) file lo hi)
    (hle : off + bytes.length ≤ hi) : ReadFirst file lo old (.write file off bytes :: new) :=
  ⟨h, fun _ p hlo _ hp => hread p hlo (Nat.lt_of_lt_of_le hp hle)⟩

end

/-- All bytes from `lo` up to `hi` were read, and since the trace was `old` none from `lo` on was
overwritten before it was read. -/
structure Ordered (k : Kernel) (file : Nat) (old : List Access) (lo hi : Nat) : Prop where
  passed : ReadUpTo k.trace file lo hi
  first : ∃ new, k.trace = new ++ old ∧ ReadFirst file lo old new

namespace Ordered

variable {k : Kernel} {old : List Access} {file lo hi off : Nat} {bytes : List UInt8}

/-- Nothing was overwritten yet. -/
theorem start (h : ReadUpTo k.trace file lo hi) : Ordered k file k.trace lo hi :=
  ⟨h, [], rfl, trivial⟩

/-- Only the trace matters. -/
theorem congr {k' : Kernel} (h : Ordered k file old lo hi) (htrace : k'.trace = k.trace) :
    Ordered k' file old lo hi :=
  ⟨htrace ▸ h.passed, htrace ▸ h.first⟩

theorem mono {hi' : Nat} (h : Ordered k file old lo hi) (hle : hi' ≤ hi) :
    Ordered k file old lo hi' :=
  ⟨fun p hlo hp => h.passed p hlo (Nat.lt_of_lt_of_le hp hle), h.first⟩

/-- A read at the first byte that was not read. -/
theorem read (h : Ordered k file old lo hi) (fd : Int) (mode : Mode) (bytes : List UInt8) :
    Ordered (k.didRead fd ⟨file, mode, hi⟩ bytes) file old lo (hi + bytes.length) := by
  obtain ⟨hpassed, new, htrace, hfirst⟩ := h
  exact ⟨hpassed.read bytes, _ :: new, congrArg (_ :: ·) htrace, hfirst⟩

/-- A write of bytes before it. -/
theorem write (h : Ordered k file old lo hi) (fd : Int) (mode : Mode)
    (hle : off + bytes.length ≤ hi) :
    Ordered (k.didWrite fd ⟨file, mode, off⟩ bytes) file old lo hi := by
  obtain ⟨hpassed, new, htrace, hfirst⟩ := h
  refine ⟨hpassed.cons _, _ :: new, congrArg (_ :: ·) htrace, ?_⟩
  exact hfirst.write (htrace ▸ hpassed) hle

end Ordered

/-! ## Bytes written -/

/-- The bytes written to a file, in this order and each with its offset. -/
def stores (file : Nat) : (trace : List Access) → List (UInt8 × Nat)
  | [] => []
  | .read .. :: trace => stores file trace
  | .write file' off bytes :: trace =>
      if file' = file then stores file trace ++ bytes.zipIdx off else stores file trace

/-- The bytes that are not zero, each with its offset. -/
def nonzeros (off : Nat) (bytes : List UInt8) : List (UInt8 × Nat) :=
  (bytes.zipIdx off).filter fun x => x.1 ≠ 0

theorem nonzeros_append (off : Nat) (bytes bytes' : List UInt8) :
    nonzeros off (bytes ++ bytes') =
      nonzeros off bytes ++ nonzeros (off + bytes.length) bytes' := by
  rw [nonzeros, List.zipIdx_append, List.filter_append]
  rfl

theorem nonzeros_of_zeros {bytes : List UInt8} (off : Nat) (h : ∀ x ∈ bytes, x = 0) :
    nonzeros off bytes = [] := by
  refine List.filter_eq_nil_iff.mpr fun x hx => ?_
  simpa using h x.1 (List.fst_mem_of_mem_zipIdx hx)

theorem nonzeros_of_data {bytes : List UInt8} (off : Nat) (h : ∀ x ∈ bytes, x ≠ 0) :
    nonzeros off bytes = bytes.zipIdx off := by
  refine List.filter_eq_self.mpr fun x hx => ?_
  simpa using h x.1 (List.fst_mem_of_mem_zipIdx hx)

end CToys.Posix
