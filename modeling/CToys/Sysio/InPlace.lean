import CToys.Sysio.DeleteLine

/-!
# Copying in place

The program copies within one file.  What it writes lies before the first cursor, so it takes
out the gap between `prevbrk` and `curbrk` and loses nothing else, however long the gap is and
whatever the chunks are.
-/

namespace CToys.Sysio

open Posix

/-- The bytes behind offset `p` up to offset `q` are taken out of the file, whose length is
measured after copying.  No byte behind `q` is overwritten before it is read.  If a search
has read the bytes from `lo` up to `q`, the same is true of them. -/
def LosesNothing (sched : Schedule) (fd1 fd2 : Int) (p q : Nat) (k : Kernel) : Prop :=
  ∃ k₀ k₁ k₂ k₃, Returns (setCursors fd1 fd2 p q) k () k₀ ∧
    Returns (rounds fd1 >>= shiftLoop sched fd1 fd2) k₀ () k₁ ∧
    Returns (lseek fd1 0 .seekEnd) k₁ (some (k.files theFile).length) k₂ ∧
    Returns (shift sched fd1 fd2 p q) k₀ () k₃ ∧
    k₃.files theFile = (k.files theFile).take (p + 1) ++ (k.files theFile).drop (q + 1) ∧
    ∃ new, k₃.trace = new ++ k.trace ∧
      ∀ lo, ReadUpTo k.trace theFile lo (q + 1) → ReadFirst theFile lo k.trace new

theorem losesNothing {sched : Schedule} (hs : sched.Smooth) {fd1 fd2 : Int} (hne : fd1 ≠ fd2)
    {k : Kernel} {off1 off2 p q : Nat} (hfd1 : k.fds fd1 = some ⟨theFile, .rdonly, off1⟩)
    (hfd2 : k.fds fd2 = some ⟨theFile, .rdwr, off2⟩) (hlen : (k.files theFile).length < 2 ^ 31)
    (hpq : p ≤ q) (hq : q < (k.files theFile).length) : LosesNothing sched fd1 fd2 p q k := by
  let a := (k.files theFile).take (q + 1)
  let w := (k.files theFile).drop (q + 1)
  have hfile : k.files theFile = a ++ w := (List.take_append_drop ..).symm
  have ha : a.length = q + 1 := by
    rw [List.length_take]
    omega
  have hgap : (q : Int) - p = (a.drop (p + 1)).length := by
    rw [List.length_drop, ha]
    omega
  have hread : (a.take (p + 1) ++ a.drop (p + 1)).length = q + 1 := by
    rw [List.take_append_drop, ha]
  obtain ⟨⟨⟩, k₀, hset, hfiles, htrace, hshift⟩ :=
    setCursors_ensures hne hfd1 hfd2 hfile (hfile ▸ hlen) ha hpq
  obtain ⟨⟨⟩, k₁, hcopy, ⟨x, hx, hk₁⟩, -⟩ := copyBehind_ensures hs hne hshift
  obtain ⟨⟨⟩, k₃, hret, hfile₃, hordered⟩ := shift_ensures hs hne hshift (hfiles ▸ hlen) hgap
  -- the gap has moved and has its old length
  have hsame : (k₁.files theFile).length = (k.files theFile).length := by
    rw [List.length_append, ← hx] at hread
    rw [hk₁.contents, hfile, List.append_nil, List.length_append, List.length_append,
      List.length_append, ha]
    omega
  have hbase : Whence.base .seekEnd k₁ ⟨theFile, .rdonly, (a.take (p + 1) ++ w ++ x).length⟩ +
      (0 : Int) = ((k.files theFile).length : Nat) := by
    rw [← hsame]
    exact Int.add_zero _
  have hfirst (lo : Nat) (hlo : ReadUpTo k.trace theFile lo (q + 1)) :
      ∃ new, k₃.trace = new ++ k.trace ∧ ReadFirst theFile lo k.trace new :=
    (hordered k.trace lo (hread.symm ▸ (Ordered.start hlo).congr htrace)).first
  refine ⟨k₀, k₁, _, k₃, hset, hcopy, lseek_returns hk₁.source hbase, hret, ?_, ?_⟩
  · rw [hfile₃, List.take_take, Nat.min_eq_left (by omega)]
  · obtain ⟨new, hnew, -⟩ := hfirst (q + 1) (.refl _ _ _)
    refine ⟨new, hnew, fun lo hlo => ?_⟩
    obtain ⟨new', hnew', h⟩ := hfirst lo hlo
    obtain rfl := List.append_cancel_right (hnew.symm.trans hnew')
    exact h

theorem opened_losesNothing : LosesNothing .eager 3 4 1 3 (opened [97, 10, 98, 10, 99, 10]) :=
  losesNothing Schedule.eager_smooth (by decide) rfl rfl (by decide) (by decide) (by decide)

end CToys.Sysio
