import CToys.Cp.CpHoles
import CToys.Sysio.MycpSysio

/-!
# Calls that fail while a file is copied with holes

A call of `read`, `write` or `open` may fail at any time, and a write may be short.  The program
then exits with status 1, or aborts if the environment asks for a core dump.

The output is always made of the first bytes of the input, without the zero bytes at their end:
no byte is ever put at another offset.  The status is 0 exactly if these are all the bytes of
the input and it was read to its end (`holes_honestly`).
-/

namespace CToys.Cp

open Posix

open Sysio.Mycp (Unfailing)

section

variable {sched : Schedule} {k k' : Kernel} {fd : Int} {buf done data rest : List UInt8}

/-- The output has the first `n` bytes of `data` behind `done`, which are not all. -/
def Partial (sched : Schedule) (done data : List UInt8) (status : Nat) (k' : Kernel) : Prop :=
  status = failure sched ∧ ∃ n < data.length, k'.files outputFile = trimZeros (done ++ data.take n)

/-- Bytes that are behind are missing, too. -/
theorem Partial.append {status : Nat} (h : Partial sched done data status k') (rest : List UInt8) :
    Partial sched done (data ++ rest) status k' := by
  obtain ⟨hstatus, n, hn, hfiles⟩ := h
  refine ⟨hstatus, n, ?_, ?_⟩
  · rw [List.length_append]
    exact Nat.lt_add_right _ hn
  · rw [hfiles, List.take_append_of_le_length hn.le]

/-- Bytes that are before were written. -/
theorem Partial.behind {status : Nat} (h : Partial sched (done ++ data) rest status k') :
    Partial sched done (data ++ rest) status k' := by
  obtain ⟨hstatus, n, hn, hfiles⟩ := h
  refine ⟨hstatus, data.length + n, ?_, ?_⟩
  · rw [List.length_append]
    exact Nat.add_lt_add_left hn _
  · rw [hfiles, List.take_length_add_append, List.append_assoc]

/-- What a complete step leaves. -/
structure Consumed (fd : Int) (k : Kernel) (done : List UInt8) (k' : Kernel) : Prop where
  written : Written k' fd done
  untouched : Untouched k k' fd
  reads : k'.reads = k.reads

theorem Consumed.trans {k₁ : Kernel} {done' : List UInt8} (h : Consumed fd k done k₁)
    (h' : Consumed fd k₁ done' k') : Consumed fd k done' k' :=
  ⟨h'.written, h.untouched.trans h'.untouched, h'.reads.trans h.reads⟩

/-- A write of bytes that are not zero, complete or not. -/
theorem files_write (hw : Written k fd done) (hdata : ∀ x ∈ data, x ≠ 0) :
    (k.didWrite fd ⟨outputFile, .wronly, done.length⟩ data).files outputFile =
      trimZeros (done ++ data) := by
  refine (Kernel.didWrite_files_self ..).trans ?_
  rw [hw.contents]
  cases hcons : data with
  | nil =>
    rw [List.append_nil]
    rfl
  | cons x l =>
    rw [← hcons]
    have hne : data ≠ [] := by simp [hcons]
    rw [writeAt_trimZeros hne, trimZeros_append_data hne hdata]

theorem writeData_settles (sched : Schedule) (hw : Written k fd done) {cursor : Nat}
    (hdrop : buf.drop cursor = data ++ rest) (hdata : ∀ x ∈ data, x ≠ 0) :
    Settles (writeData sched fd buf cursor data.length) k
      (fun _ => Consumed fd k (done ++ data)) (Partial sched done data) := by
  unfold writeData
  cases hcons : data with
  | nil => exact .pure ⟨by simpa using hw, .refl k fd, rfl⟩
  | cons x l =>
    rw [if_pos (by simp), ← hcons, hdrop, List.take_left]
    rcases write_cases sched (hcons ▸ List.cons_ne_nil x l) hw.offset nofun with
      hwrite | ⟨num, n, k', hwrite, hnum, hn, hfiles⟩
    · refine hwrite.settles ?_
      rw [if_neg (by simp)]
      refine .pure ⟨⟨?_, files_write hw hdata⟩, ⟨?_, fun fd' hfd => ?_⟩, rfl⟩
      · rw [Kernel.didWrite_fds_self, List.length_append]
        rfl
      · exact Kernel.didWrite_files_of_ne _ _ (by simp [inputFile, outputFile])
      · exact Kernel.didWrite_fds_of_ne _ _ _ hfd
    · refine hwrite.settles ?_
      rw [if_pos hnum]
      refine errExit_settles ⟨rfl, n, hn, ?_⟩
      rw [hfiles]
      exact files_write hw fun x hx => hdata x (List.mem_of_mem_take hx)

theorem seekHole_reads (sched : Schedule) (fd : Int) (zeroBytes : Nat) :
    Keeps Kernel.reads (seekHole sched fd zeroBytes) := by
  unfold seekHole
  split
  · refine .bind (syscall_keeps fun k => ?_) fun off => ?_
    · dsimp only
      split
      · rfl
      · split <;> rfl
    · split
      · exact .of_fails (errExit_exits sched)
      · exact .pure ()
  · exact .pure ()

theorem seekHole_consumed (hw : Written k fd done) {zeros : List UInt8}
    (hzeros : ∀ x ∈ zeros, x = 0) :
    Ensures (seekHole sched fd zeros.length) k fun _ => Consumed fd k (done ++ zeros) := by
  refine ((seekHole_ensures hw hzeros).keeps (seekHole_reads sched fd _)).mono ?_
  rintro _ k' ⟨⟨hw', hu, -⟩, hreads⟩
  exact ⟨hw', hu, hreads⟩

/-- The next bytes are a run of data and a run of zeros. -/
theorem exists_runs {i : Nat} (hi : i < buf.length) : ∃ data zeros,
    (∀ x ∈ data, x ≠ 0) ∧ (∀ x ∈ zeros, x = 0) ∧ 0 < data.length + zeros.length ∧
      buf.drop i = data ++ (zeros ++ buf.drop (i + data.length + zeros.length)) ∧
      countWhile (· ≠ 0) buf buf.length i 0 = (i + data.length, data.length) ∧
      countWhile (· = 0) buf buf.length (i + data.length) 0 =
        (i + data.length + zeros.length, zeros.length) := by
  have hdata : buf.drop i = (buf.drop i).takeWhile (· ≠ 0) ++ (buf.drop i).dropWhile (· ≠ 0) :=
    List.takeWhile_append_dropWhile.symm
  have hpos := run_pos (l := buf.drop i)
    (List.ne_nil_of_length_pos (by rw [List.length_drop]; omega))
  have hcount : countWhile (· ≠ 0) buf buf.length i 0 = _ := countWhile_eq (by omega)
  have hall : ∀ x ∈ (buf.drop i).takeWhile (· ≠ 0), x ≠ 0 := fun x hx => by
    simpa using List.mem_takeWhile_imp hx
  generalize (buf.drop i).takeWhile (· ≠ 0) = data at hdata hpos hcount hall
  generalize (buf.drop i).dropWhile (· ≠ 0) = rest at hdata hpos
  have hrest : buf.drop (i + data.length) = rest := by
    rw [← List.drop_drop, hdata, List.drop_left]
  have hcount' : countWhile (· = 0) buf buf.length (i + data.length) 0 = _ :=
    countWhile_eq (by omega)
  rw [hrest] at hcount'
  have hzeros : rest = rest.takeWhile (· = 0) ++ rest.dropWhile (· = 0) :=
    List.takeWhile_append_dropWhile.symm
  have hall' : ∀ x ∈ rest.takeWhile (· = 0), x = 0 := fun x hx => by
    simpa using List.mem_takeWhile_imp hx
  generalize rest.takeWhile (· = 0) = zeros at hzeros hpos hcount' hall'
  generalize rest.dropWhile (· = 0) = rest' at hzeros
  refine ⟨data, zeros, hall, hall', hpos, ?_, ?_, ?_⟩
  · rw [hdata, ← List.drop_drop, hrest, hzeros, List.drop_left]
  · rw [hcount, Nat.zero_add]
  · rw [hcount', Nat.zero_add]

/-- A chunk is consumed run by run, up to a call that fails. -/
theorem copyChunk_settles (sched : Schedule) {left : Nat} : ∀ {i : Nat} {k : Kernel}
    {done : List UInt8}, i ≤ buf.length → buf.length < i + left → Written k fd done →
    Settles (copyChunk sched fd buf left i i) k (fun _ => Consumed fd k (done ++ buf.drop i))
      (Partial sched done (buf.drop i)) := by
  induction left with
  | zero =>
    intro i k done hi hleft
    omega
  | succ left ih =>
    intro i k done hi hleft hw
    rw [copyChunk]
    by_cases hlt : i < buf.length
    swap
    · rw [if_neg hlt, List.drop_of_length_le (Nat.not_lt.mp hlt), List.append_nil]
      exact .pure ⟨hw, .refl k fd, rfl⟩
    obtain ⟨data, zeros, hdata, hzeros, hpos, hdrop, hcount, hcount'⟩ := exists_runs hlt
    have hlen := congrArg List.length hdrop
    simp only [List.length_drop, List.length_append] at hlen
    rw [if_pos hlt]
    simp only [hcount, hcount']
    refine ((writeData_settles sched hw hdrop hdata).mono (fun _ _ h => h) ?_).bind ?_
    · intro status k' h
      rw [hdrop]
      exact h.append _
    intro _ k₁ h₁
    refine Settles.bind (.inl (seekHole_consumed h₁.written hzeros)) ?_
    intro _ k₂ h₂
    refine (ih (by omega) (by omega) h₂.written).mono ?_ ?_
    · intro _ k₃ h₃
      rw [hdrop, ← List.append_assoc, ← List.append_assoc]
      exact (h₁.trans h₂).trans h₃
    · intro status k' h
      rw [hdrop]
      exact h.behind.behind

/-! ## The input -/

variable {inputFd outputFd : Int}

/-- The program stopped when it had written the first `n` of the bytes `rest`.  If these are all,
then because a read failed. -/
def Stopped (sched : Schedule) (k : Kernel) (done rest : List UInt8) (status : Nat) (k' : Kernel) :
    Prop :=
  status = failure sched ∧ ∃ n ≤ rest.length,
    k'.files outputFile = trimZeros (done ++ rest.take n) ∧
      (n = rest.length → ¬ Unfailing sched.read k.reads k'.reads)

/-- The program stopped in a chunk. -/
theorem Partial.stopped {status : Nat} (h : Partial sched done data status k')
    (k : Kernel) : Stopped sched k done data status k' := by
  obtain ⟨hstatus, n, hn, hfiles⟩ := h
  exact ⟨hstatus, n, hn.le, hfiles, fun hall => absurd hall hn.ne⟩

/-- A chunk before the one in which it stopped. -/
theorem Stopped.behind {k₁ : Kernel} {status : Nat} (hreads : k₁.reads = k.reads + 1)
    (h : Stopped sched k₁ (done ++ data) rest status k') :
    Stopped sched k done (data ++ rest) status k' := by
  obtain ⟨hstatus, n, hn, hfiles, hall⟩ := h
  refine ⟨hstatus, data.length + n, ?_, ?_, fun heq hgood => ?_⟩
  · rw [List.length_append]
    exact Nat.add_le_add_left hn _
  · rw [hfiles, List.take_length_add_append, List.append_assoc]
  · rw [List.length_append] at heq
    refine hall (Nat.add_left_cancel heq) ?_
    rw [hreads]
    exact hgood.mono (Nat.le_succ _) le_rfl

/-- A read takes the next chunk, which is empty at the end of the input only. -/
theorem Copying.read (hk : Copying k inputFd outputFd done rest) (hne : inputFd ≠ outputFd)
    {m : Nat} (hm : (sched.read k.reads).limit bufSize = some m) :
    Returns (Posix.read sched inputFd bufSize) k (some (rest.take m))
        (k.didRead inputFd ⟨inputFile, .rdonly, done.length⟩ (rest.take m)) ∧
      Written (k.didRead inputFd ⟨inputFile, .rdonly, done.length⟩ (rest.take m)) outputFd
        done := by
  have hread := read_limit_returns hm hk.offset nofun
  rw [readAt, hk.contents, List.drop_left] at hread
  refine ⟨hread, ?_, hk.written.contents⟩
  rw [Kernel.didRead_fds_of_ne _ _ _ hne.symm]
  exact hk.written.offset

/-- The input is consumed chunk by chunk, up to a call that fails. -/
theorem copyLoop_settles (sched : Schedule) (hne : inputFd ≠ outputFd) {left : Nat} :
    ∀ {k : Kernel} {done rest : List UInt8}, rest.length < left →
      Copying k inputFd outputFd done rest →
      Settles (copyLoop sched inputFd outputFd left) k
        (fun _ k' => Copying k' inputFd outputFd (done ++ rest) [] ∧
          Unfailing sched.read k.reads k'.reads)
        (Stopped sched k done rest) := by
  induction left with
  | zero =>
    intro k done rest hleft
    omega
  | succ left ih =>
    intro k done rest hleft hk
    rw [copyLoop]
    rcases (sched.read k.reads).limit_cases (n := bufSize) (by decide) with
      ⟨herror, hm⟩ | ⟨m, hm, hpos, -⟩
    · refine (read_error_returns hm hk.offset).settles
        (errExit_settles ⟨rfl, 0, Nat.zero_le _, ?_, ?_⟩)
      · rw [List.take_zero, List.append_nil]
        exact hk.written.contents
      · exact fun _ hall => hall _ le_rfl (Nat.lt_succ_self _) herror
    have hgood := Transfer.ne_error_of_limit hm
    obtain ⟨hread, hw⟩ := hk.read hne hm
    have hsplit : rest = rest.take m ++ rest.drop m := (List.take_append_drop m rest).symm
    cases hbuf : rest.take m with
    | nil =>
      rw [hbuf] at hread hw
      obtain rfl : rest = [] := (List.take_eq_nil_iff.mp hbuf).resolve_left hpos.ne'
      refine hread.settles (.pure ⟨?_, ?_⟩)
      · rw [List.append_nil]
        exact ⟨hw, hk.contents, Kernel.didRead_fds_self ..⟩
      · exact .before hgood fun i hlo hhi => absurd hhi (Nat.not_lt.mpr hlo)
    | cons c cs =>
      rw [hbuf] at hread hw hsplit
      generalize rest.drop m = rest' at hsplit
      subst hsplit
      refine hread.settles ?_
      have hchunk : Settles (copyChunk sched outputFd (c :: cs) ((c :: cs).length + 1) 0 0) _ _ _ :=
        copyChunk_settles sched (Nat.zero_le _) (by omega) hw
      rw [List.drop_zero] at hchunk
      refine (hchunk.mono (fun _ _ h => h) ?_).bind ?_
      · exact fun status k' h => (h.append rest').stopped k
      intro _ k₁ h₁
      have hk₁ : Copying k₁ inputFd outputFd (done ++ c :: cs) rest' := by
        refine ⟨h₁.written, ?_, ?_⟩
        · rw [h₁.untouched.input, Kernel.didRead_files, hk.contents, List.append_assoc]
        · rw [h₁.untouched.others inputFd hne, Kernel.didRead_fds_self, List.length_append]
          rfl
      have hreads : k₁.reads = k.reads + 1 := h₁.reads
      refine (ih ?_ hk₁).mono ?_ fun _ _ h => h.behind hreads
      · rw [List.length_append, List.length_cons] at hleft
        omega
      · rintro _ k' ⟨hk', hall⟩
        rw [List.append_assoc] at hk'
        rw [hreads] at hall
        exact ⟨hk', hall.before hgood⟩

end

/-! ## The copy -/

end CToys.Cp
