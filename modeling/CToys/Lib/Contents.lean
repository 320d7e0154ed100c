import Mathlib.Data.List.DropRight

/-!
# Contents of files

A file is a list of bytes.  Reading takes bytes from an offset on, as many as there are.
Writing replaces bytes from an offset on and makes the file longer where it has to, with
zero bytes in a gap between the old end and the offset.

The lemmas are about a file that is split at the offset, since the loops of programs go
through a file from left to right.  `trimZeros` is a file without the zero bytes at its
end.  A write at the old end fills them in again.
-/

namespace CToys

/-- Read up to `n` bytes at an offset. -/
def readAt (c : List UInt8) (off n : Nat) : List UInt8 := (c.drop off).take n

/-- Write at an offset.  Writing nothing has no effect. -/
def writeAt (c : List UInt8) (off : Nat) (d : List UInt8) : List UInt8 :=
  if d.isEmpty then c
  else c.take off ++ List.replicate (off - c.length) 0 ++ d ++ c.drop (off + d.length)

/-- Cut a file, or make it longer with zero bytes. -/
def resize (c : List UInt8) (n : Nat) : List UInt8 :=
  c.take n ++ List.replicate (n - c.length) 0

variable {a b c d : List UInt8} {off : Nat}

/-- A write inside a file replaces bytes. -/
theorem writeAt_append :
    writeAt (a ++ b) a.length d = a ++ d ++ b.drop d.length := by
  unfold writeAt
  split
  · next hd =>
    rw [List.isEmpty_iff.mp hd]
    simp
  · have hgap : a.length - (a ++ b).length = 0 := by simp
    rw [List.take_left, hgap, List.replicate_zero, List.append_nil, List.drop_append,
      List.drop_of_length_le (Nat.le_add_right _ _), Nat.add_sub_cancel_left, List.nil_append]

/-- A write at or behind the end appends. -/
theorem writeAt_of_le (hd : d ≠ []) (h : c.length ≤ off) :
    writeAt c off d = c ++ List.replicate (off - c.length) 0 ++ d := by
  rw [writeAt, if_neg (by simpa using hd), List.take_of_length_le h,
    List.drop_of_length_le (by omega), List.append_nil]

/-- Cutting off the end. -/
theorem resize_append : resize (a ++ b) a.length = a := by
  have hgap : a.length - (a ++ b).length = 0 := by simp
  rw [resize, List.take_left, hgap, List.replicate_zero, List.append_nil]

/-! ## Zero bytes at the end -/

/-- The bytes up to the last one that is not zero. -/
def trimZeros (c : List UInt8) : List UInt8 := c.rdropWhile (· == 0)

theorem trimZeros_append_zeros (hd : ∀ x ∈ d, x = 0) : trimZeros (c ++ d) = trimZeros c := by
  have hrev : ∀ x ∈ d.reverse, (x == 0) = true := fun x hx => by
    rw [hd x (List.mem_reverse.mp hx), beq_self_eq_true]
  simp only [trimZeros, List.rdropWhile, List.reverse_append,
    List.dropWhile_append_of_pos hrev]

/-- Only a zero byte at the end is cut off. -/
theorem trimZeros_eq_self : trimZeros c = c ↔ c.getLast? ≠ some 0 := by
  rw [trimZeros, List.rdropWhile_eq_self_iff]
  cases hc : c with
  | nil => simp
  | cons x l => simp [List.getLast?_eq_some_getLast]

theorem trimZeros_append_data (hne : d ≠ []) (hd : ∀ x ∈ d, x ≠ 0) :
    trimZeros (c ++ d) = c ++ d := by
  refine trimZeros_eq_self.mpr fun hlast => ?_
  rw [List.getLast?_append_of_ne_nil _ hne] at hlast
  exact hd 0 (List.mem_of_getLast? hlast) rfl

theorem trimZeros_length_le : (trimZeros c).length ≤ c.length :=
  (List.rdropWhile_prefix (· == 0) c).length_le

theorem trimZeros_append_replicate :
    trimZeros c ++ List.replicate (c.length - (trimZeros c).length) 0 = c := by
  have hsplit : c.rdropWhile (· == 0) ++ c.rtakeWhile (· == 0) = c :=
    List.rdropWhile_append_rtakeWhile
  have hzero : c.rtakeWhile (· == 0) = List.replicate (c.rtakeWhile (· == 0)).length 0 :=
    List.eq_replicate_of_mem fun x hx => by simpa using List.mem_rtakeWhile_imp hx
  have hlen := congrArg List.length hsplit
  rw [List.length_append] at hlen
  have hcount : c.length - (trimZeros c).length = (c.rtakeWhile (· == 0)).length := by
    rw [trimZeros]
    omega
  rw [hcount, ← hzero]
  exact hsplit

/-- A write at the old end fills the gap. -/
theorem writeAt_trimZeros (hd : d ≠ []) : writeAt (trimZeros c) c.length d = c ++ d := by
  rw [writeAt_of_le hd trimZeros_length_le, trimZeros_append_replicate]

end CToys
