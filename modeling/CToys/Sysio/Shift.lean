import CToys.Lib.Transfers
import CToys.Sysio.Mylined

/-!
# The copying loop of `mylined`

Both descriptors are open on one file.  The bytes `todo` behind the gap `x` are copied to
where the gap starts.  Since a chunk is read before it is written, and the written bytes
never reach beyond what was read, the loop moves the gap towards the end of the file and
loses nothing: `Shifting` holds in every round with a gap of the same length.  When all is
copied the gap is at the end, and is cut off.

`Ordered` says the same of the trace: what was read reaches up to the first cursor, and
nothing was overwritten before.
-/

namespace CToys.Sysio

open Posix

/-- The file is `pre ++ done ++ x ++ todo`, where `done` was copied and `x` is the gap. -/
structure Shifting (k : Kernel) (fd1 fd2 : Int) (pre done x todo : List UInt8) : Prop where
  contents : k.files theFile = pre ++ done ++ x ++ todo
  source : k.fds fd1 = some ⟨theFile, .rdonly, (pre ++ done ++ x).length⟩
  target : k.fds fd2 = some ⟨theFile, .rdwr, (pre ++ done).length⟩

section

variable {sched : Schedule} {fd1 fd2 : Int} {pre : List UInt8}

/-- The cursors are set to the ends of the gap. -/
theorem setCursors_ensures {k : Kernel} (hne : fd1 ≠ fd2) {off1 off2 p q : Nat}
    (hfd1 : k.fds fd1 = some ⟨theFile, .rdonly, off1⟩)
    (hfd2 : k.fds fd2 = some ⟨theFile, .rdwr, off2⟩) {a w : List UInt8}
    (hfile : k.files theFile = a ++ w) (hlen : (a ++ w).length < 2 ^ 31)
    (ha : a.length = q + 1) (hpq : p ≤ q) :
    Ensures (setCursors fd1 fd2 p q) k fun _ k' =>
      k'.files = k.files ∧ k'.trace = k.trace ∧
        Shifting k' fd1 fd2 (a.take (p + 1)) [] (a.drop (p + 1)) w := by
  rw [List.length_append] at hlen
  have hcur : int32 ((q : Int) + 1) = (q + 1 : Nat) := by
    rw [← Nat.cast_add_one, int32_of_lt (by omega)]
  have hprev : int32 ((p : Int) + 1) = (p + 1 : Nat) := by
    rw [← Nat.cast_add_one, int32_of_lt (by omega)]
  have hset1 : Whence.base .seekSet k ⟨theFile, .rdonly, off1⟩ + int32 ((q : Int) + 1)
      = (q + 1 : Nat) := by rw [hcur]; exact Int.zero_add _
  have hfd2' : (k.bind fd1 ⟨theFile, .rdonly, q + 1⟩).fds fd2 = some ⟨theFile, .rdwr, off2⟩ :=
    (Kernel.bind_fds_of_ne _ _ hne.symm).trans hfd2
  have hset2 : Whence.base .seekSet (k.bind fd1 ⟨theFile, .rdonly, q + 1⟩)
      ⟨theFile, .rdwr, off2⟩ + int32 ((p : Int) + 1) = (p + 1 : Nat) := by
    rw [hprev]; exact Int.zero_add _
  unfold setCursors
  refine (lseek_returns hfd1 hset1).step ((lseek_returns hfd2' hset2).step ?_)
  refine .pure ⟨rfl, rfl, ?_, ?_, ?_⟩
  · rw [Kernel.bind_files, Kernel.bind_files, hfile, List.append_nil, List.take_append_drop]
  · rw [Kernel.bind_fds_of_ne _ _ hne, Kernel.bind_fds_self, List.append_nil,
      List.take_append_drop, ha]
  · rw [Kernel.bind_fds_self, List.append_nil, List.length_take, ha, Nat.min_eq_left (by omega)]

/-- Copying a chunk moves the gap. -/
theorem Shifting.copy {k : Kernel} {done x bytes todo : List UInt8} (hne : fd1 ≠ fd2)
    (hk : Shifting k fd1 fd2 pre done x (bytes ++ todo)) :
    Shifting ((k.didRead fd1 ⟨theFile, .rdonly, (pre ++ done ++ x).length⟩ bytes).didWrite fd2
      ⟨theFile, .rdwr, (pre ++ done).length⟩ bytes) fd1 fd2 pre (done ++ bytes)
      ((x ++ bytes).drop bytes.length) todo := by
  have hgap : bytes.length ≤ (x ++ bytes).length := by simp
  refine ⟨?_, ?_, ?_⟩
  · refine (Kernel.didWrite_files_self ..).trans ?_
    have hsplit : k.files theFile = (pre ++ done) ++ ((x ++ bytes) ++ todo) := by
      rw [hk.contents]
      simp
    rw [Kernel.didRead_files, hsplit, writeAt_append, List.drop_append_of_le_length hgap]
    simp
  · rw [Kernel.didWrite_fds_of_ne _ _ _ hne, Kernel.didRead_fds_self]
    simp [Descriptor.advance]
    omega
  · rw [Kernel.didWrite_fds_self]
    simp [Descriptor.advance]
    omega

/-- The loop copies all that is behind the gap, and overwrites only what it has read. -/
theorem shiftLoop_ensures (hs : sched.Smooth) (hne : fd1 ≠ fd2) {left : Nat} :
    ∀ {k : Kernel} {done x todo : List UInt8}, todo.length < left →
      Shifting k fd1 fd2 pre done x todo →
      Ensures (shiftLoop sched fd1 fd2 left) k fun _ k' =>
        (∃ x', x'.length = x.length ∧ Shifting k' fd1 fd2 pre (done ++ todo) x' []) ∧
          ∀ old lo, Ordered k theFile old lo (pre ++ done ++ x).length →
            Ordered k' theFile old lo (pre ++ done ++ x ++ todo).length := by
  induction left with
  | zero =>
    intro k done x todo hleft
    omega
  | succ left ih =>
    intro k done x todo hleft hk
    have hdrop : (k.files theFile).drop (pre ++ done ++ x).length = todo := by
      rw [hk.contents, List.drop_left]
    rw [shiftLoop]
    rcases read_cases hs.read (n := bufSize) (by decide) hk.source (by simp) hdrop with
      ⟨rfl, hread⟩ | ⟨bytes, todo, hbytes, -, rfl, hread⟩
    · refine hread.step (.pure ⟨⟨x, rfl, ?_⟩, fun old lo hord => ?_⟩)
      · rw [List.append_nil]
        refine ⟨hk.contents, Kernel.didRead_fds_self .., ?_⟩
        rw [Kernel.didRead_fds_of_ne _ _ _ hne.symm]
        exact hk.target
      · rw [List.append_nil]
        exact hord.read fd1 .rdonly []
    · obtain ⟨c, l, rfl⟩ := List.exists_cons_of_ne_nil hbytes
      have htarget := Kernel.didRead_fds_of_ne k ⟨theFile, .rdonly, (pre ++ done ++ x).length⟩
        (c :: l) hne.symm
      rw [hk.target] at htarget
      refine hread.step ((write_returns hs.write htarget (by simp) (c :: l)).step ?_)
      have hleft' : todo.length < left := by
        simp only [List.length_append, List.length_cons] at hleft
        omega
      refine (ih hleft' (hk.copy hne)).mono ?_
      rintro _ k' ⟨⟨x', hx', hk'⟩, hordered⟩
      refine ⟨⟨x', ?_, ?_⟩, fun old lo hord => ?_⟩
      · simp [hx']
      · simpa using hk'
      · -- the gap is between what was written and what was read
        have hbehind : (pre ++ done).length + (c :: l).length ≤
            (pre ++ done ++ x).length + (c :: l).length := by simp
        have hmoved := (hord.read fd1 .rdonly (c :: l)).write fd2 .rdwr hbehind
        refine (hordered old lo (hmoved.mono ?_)).mono ?_
        · simp only [List.length_append, List.length_drop]
          omega
        · simp only [List.length_append, List.length_drop]
          omega

/-- The loop of `shift` moves the gap to the end of the file. -/
theorem copyBehind_ensures (hs : sched.Smooth) (hne : fd1 ≠ fd2) {k : Kernel}
    {gap src : List UInt8} (hk : Shifting k fd1 fd2 pre [] gap src) :
    Ensures (rounds fd1 >>= shiftLoop sched fd1 fd2) k fun _ k' =>
      (∃ x, x.length = gap.length ∧ Shifting k' fd1 fd2 pre src x []) ∧
        ∀ old lo, Ordered k theFile old lo (pre ++ gap).length →
          Ordered k' theFile old lo (pre ++ gap ++ src).length := by
  have hfuel : src.length < (k.files theFile).length + 1 := by
    rw [hk.contents]
    simp
    omega
  refine (rounds_returns hk.source).step ((shiftLoop_ensures hs hne hfuel hk).mono ?_)
  simp only [List.nil_append, List.append_nil]
  exact fun _ k' h => h

/-- Copying and cutting takes the gap out of the file. -/
theorem shift_ensures (hs : sched.Smooth) (hne : fd1 ≠ fd2) {k : Kernel}
    {gap src : List UInt8} (hk : Shifting k fd1 fd2 pre [] gap src)
    (hlen : (k.files theFile).length < 2 ^ 31) {prevbrk curbrk : Int}
    (hgap : curbrk - prevbrk = gap.length) :
    Ensures (shift sched fd1 fd2 prevbrk curbrk) k fun _ k' =>
      k'.files theFile = pre ++ src ∧ ∀ old lo, Ordered k theFile old lo (pre ++ gap).length →
        Ordered k' theFile old lo (pre ++ gap ++ src).length := by
  unfold shift
  rw [← bind_assoc]
  refine (copyBehind_ensures hs hne hk).bind ?_
  rintro _ k' ⟨⟨x, hx, hk'⟩, hordered⟩
  have hfile : k'.files theFile = (pre ++ src) ++ x := by
    rw [hk'.contents]
    simp
  have htotal : (k'.files theFile).length = (pre ++ src).length + gap.length := by
    rw [hfile, List.length_append, hx]
  have hsame : (k.files theFile).length = (pre ++ src).length + gap.length := by
    rw [hk.contents]
    simp
    omega
  have hbase : Whence.base .seekEnd k' ⟨theFile, .rdonly, (pre ++ src ++ x).length⟩ + (0 : Int)
      = ((k'.files theFile).length : Nat) := Int.add_zero _
  refine (lseek_returns hk'.source hbase).step ?_
  have hint : int32 ((k'.files theFile).length : Int) = ((k'.files theFile).length : Nat) :=
    int32_of_lt (by omega)
  have hcut : int32 (((k'.files theFile).length : Nat) - int32 (curbrk - prevbrk))
      = ((pre ++ src).length : Nat) := by
    rw [hgap, int32_of_lt (x := gap.length) (by omega), htotal, Nat.cast_add, Int.add_sub_cancel]
    exact int32_of_lt (by omega)
  simp only [hint, hcut]
  rw [if_neg (by omega)]
  have htarget : (k'.bind fd1 ⟨theFile, .rdonly, (k'.files theFile).length⟩).fds fd2 = _ :=
    (Kernel.bind_fds_of_ne _ _ hne.symm).trans hk'.target
  refine (ftruncate_returns htarget (by simp)).step ?_
  rw [if_pos rfl]
  refine .pure ⟨(Kernel.store_files_self ..).trans ?_, fun old lo hord => ?_⟩
  · rw [Kernel.bind_files]
    show resize (k'.files theFile) _ = _
    rw [hfile, resize_append]
  · exact (hordered old lo hord).congr rfl

end

/-! ## Output -/

section

variable (sched : Schedule) (fd1 fd2 : Int)

theorem setCursors_quiet (prevbrk curbrk : Int) :
    Keeps Kernel.stdout (setCursors fd1 fd2 prevbrk curbrk) := by
  unfold setCursors
  refine (lseek_quiet _ _ _).bind fun a => ?_
  cases a with
  | none => exact exit_keeps 1
  | some _ =>
    refine (lseek_quiet _ _ _).bind fun b => ?_
    cases b with
    | none => exact exit_keeps 1
    | some _ => exact .pure _

theorem shiftLoop_quiet (left : Nat) : Keeps Kernel.stdout (shiftLoop sched fd1 fd2 left) := by
  induction left with
  | zero => exact .of_fails fun _ => rfl
  | succ left ih =>
    rw [shiftLoop]
    refine (read_quiet _ _ _).bind fun a => ?_
    match a with
    | none => exact exit_keeps 1
    | some [] => exact .pure _
    | some (c :: l) =>
      refine (write_quiet _ _ _).bind fun b => ?_
      cases b with
      | none => exact exit_keeps 1
      | some _ => exact ih

theorem shift_quiet (prevbrk curbrk : Int) :
    Keeps Kernel.stdout (shift sched fd1 fd2 prevbrk curbrk) := by
  unfold shift
  refine (rounds_quiet _).bind fun left => (shiftLoop_quiet sched fd1 fd2 left).bind fun _ => ?_
  refine (lseek_quiet _ _ _).bind fun a => ?_
  cases a with
  | none => exact exit_keeps 1
  | some off =>
    dsimp only
    split
    · exact exit_keeps 1
    · refine (ftruncate_quiet _ _).bind fun done => ?_
      cases done with
      | false => exact exit_keeps 1
      | true => exact .pure _

end

end CToys.Sysio
