import CToys.Lib.Pieces
import CToys.Lib.Posix

/-!
# The copy with system calls

`mycp_sysio` reads a chunk and writes it with as many calls as it takes.  Each call is given
the buffer from its start, also when an earlier one has taken a part of the chunk, and a call
that fails ends the inner loop only.

Which bytes a call takes and where it puts them depends on the sizes of the transfers alone.
`copyPlan` computes it from the schedule and the length of the source, and the destination
is made of these pieces (`mycpSysio_ends`).
-/

namespace CToys.Sysio.Mycp

open Posix

/-! ## The program -/

/-- `BUFSIZE`. -/
def bufSize : Nat := 1024

/-- The loop over a chunk.  The position is kept, but the call gets the buffer itself. -/
def writeLoop (sched : Schedule) (dfd : Int) (buf : List UInt8) :
    (left pos num : Nat) → Process Kernel Unit
  | 0, _, _ => throw .diverges
  | left + 1, pos, num =>
      if num > 0 then do
        match ← write sched dfd (buf.take num) with
        | none => return ()
        | some ret => writeLoop sched dfd buf left (pos + ret) (num - ret)
      else return ()

/-- The loop over the source.  A failed read ends it like the end of the source. -/
def copyLoop (sched : Schedule) (sfd dfd : Int) : (left : Nat) → Process Kernel Unit
  | 0 => throw .diverges
  | left + 1 => do
      match ← read sched sfd bufSize with
      | none => return ()
      | some [] => return ()
      | some buf =>
          writeLoop sched dfd buf (buf.length + 1) 0 buf.length
          copyLoop sched sfd dfd left

/-- `main`, with the files that the arguments name. -/
def mycpSysio (sched : Schedule) : (args : List Nat) → Process Kernel Unit
  | source :: dest :: _ => do
      let sfd ← openFile sched source .rdonly false
      if sfd < 0 then exit 1
      else
        let dfd ← openFile sched dest .wronly true
        if dfd < 0 then
          let _ ← close sfd
          exit 1
        else
          copyLoop sched sfd dfd (← rounds sfd)
          let _ ← close dfd
          let _ ← close sfd
          exit 0
  | _ => exit 1

/-! ## The transfers -/

/-- What a part of the copy transfers, and the numbers of the calls that come next. -/
structure Plan where
  /-- The transfers to the destination. -/
  pieces : List Piece
  /-- The next call of `read`. -/
  reads : Nat
  /-- The next call of `write`. -/
  writes : Nat

/-- The calls for the last `num` bytes of the chunk at `start`. -/
def chunkPlan (sched : Schedule) (start : Nat) : (left reads writes off num : Nat) → Plan
  | 0, reads, writes, _, _ => ⟨[], reads, writes⟩
  | left + 1, reads, writes, off, num =>
      if num > 0 then
        match (sched.write writes).limit num with
        | none => ⟨[], reads, writes + 1⟩
        | some ret =>
            let rest := chunkPlan sched start left reads (writes + 1) (off + ret) (num - ret)
            { rest with pieces := ⟨start, off, ret⟩ :: rest.pieces }
      else ⟨[], reads, writes⟩

/-- The calls for the last `n` bytes of the source, which are those from `start` on. -/
def copyPlan (sched : Schedule) : (left reads writes start off n : Nat) → Plan
  | 0, reads, writes, _, _, _ => ⟨[], reads, writes⟩
  | left + 1, reads, writes, start, off, n =>
      match (sched.read reads).limit bufSize with
      | none => ⟨[], reads + 1, writes⟩
      | some m =>
          if min m n = 0 then ⟨[], reads + 1, writes⟩
          else
            let chunk := chunkPlan sched start (min m n + 1) (reads + 1) writes off (min m n)
            let rest := copyPlan sched left chunk.reads chunk.writes (start + min m n)
              (off + total chunk.pieces) (n - min m n)
            { rest with pieces := chunk.pieces ++ rest.pieces }

/-- No call from number `lo` up to `hi` fails. -/
def Unfailing (calls : Nat → Transfer) (lo hi : Nat) : Prop :=
  ∀ i, lo ≤ i → i < hi → calls i ≠ .error

theorem Unfailing.mono {calls : Nat → Transfer} {lo lo' hi hi' : Nat}
    (h : Unfailing calls lo hi) (hlo : lo ≤ lo') (hhi : hi' ≤ hi) : Unfailing calls lo' hi' :=
  fun i hi₁ hi₂ => h i (hlo.trans hi₁) (hi₂.trans_le hhi)

/-- The call before did not fail, either. -/
theorem Unfailing.before {calls : Nat → Transfer} {lo hi : Nat} (hlo : calls lo ≠ .error)
    (h : Unfailing calls (lo + 1) hi) : Unfailing calls lo hi := by
  intro i hi₁ hi₂
  rcases Nat.eq_or_lt_of_le hi₁ with rfl | hlt
  · exact hlo
  · exact h i hlt hi₂

/-- The plan `P` is one for `num` bytes of a source of `n`, put from `off` on. -/
structure Plan.Covers (P : Plan) (sched : Schedule) (n reads writes off num : Nat) : Prop where
  le_reads : reads ≤ P.reads
  le_writes : writes ≤ P.writes
  consecutive : Consecutive n off P.pieces
  total_eq : Unfailing sched.read reads P.reads → Unfailing sched.write writes P.writes →
    total P.pieces = num

namespace Plan.Covers

variable {sched : Schedule} {P P' : Plan} {n reads reads' writes writes' off num num' : Nat}

/-- Nothing is left. -/
theorem done (hreads : reads ≤ reads') :
    Plan.Covers ⟨[], reads', writes⟩ sched n reads writes off 0 :=
  ⟨hreads, le_rfl, trivial, fun _ _ => rfl⟩

/-- A call failed, so the number of bytes does not matter. -/
theorem of_error (hreads : reads ≤ reads') (hwrites : writes ≤ writes')
    (h : ¬ (Unfailing sched.read reads reads' ∧ Unfailing sched.write writes writes')) :
    Plan.Covers ⟨[], reads', writes'⟩ sched n reads writes off num :=
  ⟨hreads, hwrites, trivial, fun hr hw => absurd ⟨hr, hw⟩ h⟩

/-- One plan after another. -/
theorem append (h : P.Covers sched n reads writes off num)
    (h' : P'.Covers sched n P.reads P.writes (off + CToys.total P.pieces) num') :
    Plan.Covers { P' with pieces := P.pieces ++ P'.pieces } sched n reads writes off
      (num + num') where
  le_reads := h.le_reads.trans h'.le_reads
  le_writes := h.le_writes.trans h'.le_writes
  consecutive := consecutive_append.mpr ⟨h.consecutive, h'.consecutive⟩
  total_eq hr hw := by
    rw [total_append, h.total_eq (hr.mono le_rfl h'.le_reads) (hw.mono le_rfl h'.le_writes),
      h'.total_eq (hr.mono h.le_reads le_rfl) (hw.mono h.le_writes le_rfl)]

end Plan.Covers

section

variable {sched : Schedule} {n start left reads writes off num : Nat}

theorem chunkPlan_done :
    chunkPlan sched start (left + 1) reads writes off 0 = ⟨[], reads, writes⟩ := rfl

theorem chunkPlan_error (hnum : 0 < num) (hm : (sched.write writes).limit num = none) :
    chunkPlan sched start (left + 1) reads writes off num = ⟨[], reads, writes + 1⟩ := by
  rw [chunkPlan, if_pos hnum, hm]

theorem chunkPlan_write {ret : Nat} (hnum : 0 < num)
    (hm : (sched.write writes).limit num = some ret) :
    chunkPlan sched start (left + 1) reads writes off num =
      { chunkPlan sched start left reads (writes + 1) (off + ret) (num - ret) with
        pieces := ⟨start, off, ret⟩ ::
          (chunkPlan sched start left reads (writes + 1) (off + ret) (num - ret)).pieces } := by
  rw [chunkPlan, if_pos hnum, hm]

theorem chunkPlan_covers (hleft : num < left) (hn : start + num ≤ n) :
    (chunkPlan sched start left reads writes off num).Covers sched n reads writes off num := by
  induction left generalizing writes off num with
  | zero => omega
  | succ left ih =>
    rcases Nat.eq_zero_or_pos num with rfl | hnum
    · rw [chunkPlan_done]
      exact .done le_rfl
    rcases (sched.write writes).limit_cases hnum with ⟨herror, hm⟩ | ⟨ret, hm, hpos, hle⟩
    · rw [chunkPlan_error hnum hm]
      exact .of_error le_rfl (Nat.le_succ _) fun h => h.2 _ le_rfl (Nat.lt_succ_self _) herror
    · have hpiece : Plan.Covers ⟨[⟨start, off, ret⟩], reads, writes + 1⟩ sched n reads writes off
          ret := by
        refine ⟨le_rfl, Nat.le_succ _, ⟨rfl, ?_, trivial⟩, fun _ _ => rfl⟩
        exact (Nat.add_le_add_left hle start).trans hn
      have hrest : (chunkPlan sched start left reads (writes + 1) (off + ret) (num - ret)).Covers
          sched n reads (writes + 1) (off + ret) (num - ret) := ih (by omega) (by omega)
      have h := hpiece.append hrest
      rw [Nat.add_sub_cancel' hle] at h
      rw [chunkPlan_write hnum hm]
      exact h

theorem copyPlan_error (hm : (sched.read reads).limit bufSize = none) :
    copyPlan sched (left + 1) reads writes start off num = ⟨[], reads + 1, writes⟩ := by
  rw [copyPlan, hm]

theorem copyPlan_done {m : Nat} (hm : (sched.read reads).limit bufSize = some m) :
    copyPlan sched (left + 1) reads writes start off 0 = ⟨[], reads + 1, writes⟩ := by
  rw [copyPlan, hm]
  exact if_pos (Nat.min_zero m)

/-- A chunk of `m` bytes, and the rest. -/
theorem copyPlan_chunk {m : Nat} {chunk rest : Plan} (hnum : 0 < num) (hpos : 0 < m)
    (hm : (sched.read reads).limit bufSize = some m)
    (hchunk : chunkPlan sched start (min m num + 1) (reads + 1) writes off (min m num) = chunk)
    (hrest : copyPlan sched left chunk.reads chunk.writes (start + min m num)
      (off + total chunk.pieces) (num - min m num) = rest) :
    copyPlan sched (left + 1) reads writes start off num =
      { rest with pieces := chunk.pieces ++ rest.pieces } := by
  have hne : min m num ≠ 0 := by omega
  rw [copyPlan, hm]
  simp only [if_neg hne, hchunk, hrest]

/-- A round of the copy finds nothing, or it takes a chunk. -/
theorem copyPlan_cases (sched : Schedule) (left reads writes start off num : Nat) :
    (sched.read reads = .error ∨ num = 0) ∧
      copyPlan sched (left + 1) reads writes start off num = ⟨[], reads + 1, writes⟩ ∨
    ∃ len chunk rest, 0 < len ∧ len ≤ num ∧
      chunkPlan sched start (len + 1) (reads + 1) writes off len = chunk ∧
      copyPlan sched left chunk.reads chunk.writes (start + len) (off + total chunk.pieces)
        (num - len) = rest ∧
      copyPlan sched (left + 1) reads writes start off num =
        { rest with pieces := chunk.pieces ++ rest.pieces } := by
  rcases (sched.read reads).limit_cases (n := bufSize) (by decide) with
    ⟨herror, hm⟩ | ⟨m, hm, hpos, -⟩
  · exact .inl ⟨.inl herror, copyPlan_error hm⟩
  rcases Nat.eq_zero_or_pos num with rfl | hnum
  · exact .inl ⟨.inr rfl, copyPlan_done hm⟩
  · exact .inr ⟨min m num, _, _, by omega, Nat.min_le_right _ _, rfl, rfl,
      copyPlan_chunk hnum hpos hm rfl rfl⟩

theorem copyPlan_covers (hleft : num < left) (hn : start + num ≤ n) :
    (copyPlan sched left reads writes start off num).Covers sched n reads writes off num := by
  induction left generalizing reads writes start off num with
  | zero => omega
  | succ left ih =>
    rcases copyPlan_cases sched left reads writes start off num with
      ⟨herror | rfl, hplan⟩ | ⟨len, chunk, rest, hpos, hle, rfl, rfl, hplan⟩
    · rw [hplan]
      exact .of_error (Nat.le_succ _) le_rfl fun h => h.1 _ le_rfl (Nat.lt_succ_self _) herror
    · rw [hplan]
      exact .done (Nat.le_succ _)
    have hchunk : (chunkPlan sched start (len + 1) (reads + 1) writes off len).Covers sched n
        (reads + 1) writes off len := chunkPlan_covers (Nat.lt_succ_self _) (by omega)
    have hstart : start + len + (num - len) ≤ n := by omega
    have h := hchunk.append (ih (by omega) hstart)
    rw [Nat.add_sub_cancel' hle] at h
    rw [hplan]
    exact ⟨(Nat.le_succ _).trans h.le_reads, h.le_writes, h.consecutive,
      fun hr hw => h.total_eq (hr.mono (Nat.le_succ _) le_rfl) hw⟩

end

/-! ## The run -/

/-- The source was read up to `start`, and `done` was written. -/
structure Copying (k : Kernel) (sfd dfd : Int) (source dest : Nat) (src done : List UInt8)
    (start : Nat) : Prop where
  contents : k.files source = src
  copied : k.files dest = done
  input : k.fds sfd = some ⟨source, .rdonly, start⟩
  output : k.fds dfd = some ⟨dest, .wronly, done.length⟩

/-- The calls that a program makes from `k` to `k'` follow a plan. -/
structure Follows (k' : Kernel) (P : Plan) : Prop where
  reads : k'.reads = P.reads
  writes : k'.writes = P.writes

section

variable {sched : Schedule} {sfd dfd : Int} {source dest : Nat} (hne : source ≠ dest)
  (hfd : sfd ≠ dfd)
include hne hfd

theorem Copying.didWrite {k : Kernel} {src done : List UInt8} {start : Nat}
    (h : Copying k sfd dfd source dest src done start) (bytes : List UInt8) :
    Copying (k.didWrite dfd ⟨dest, .wronly, done.length⟩ bytes) sfd dfd source dest src
      (done ++ bytes) start := by
  refine ⟨?_, ?_, ?_, ?_⟩
  · rw [Kernel.didWrite_files_of_ne _ _ hne]
    exact h.contents
  · have happend := writeAt_append (a := done) (b := []) (d := bytes)
    rw [List.append_nil, List.drop_nil, List.append_nil] at happend
    refine (Kernel.didWrite_files_self ..).trans ?_
    rw [h.copied, happend]
  · rw [Kernel.didWrite_fds_of_ne _ _ _ hfd]
    exact h.input
  · rw [Kernel.didWrite_fds_self, List.length_append]
    rfl

omit hne in
theorem Copying.didRead {k : Kernel} {src done : List UInt8} {start : Nat}
    (h : Copying k sfd dfd source dest src done start) (bytes : List UInt8) :
    Copying (k.didRead sfd ⟨source, .rdonly, start⟩ bytes) sfd dfd source dest src done
      (start + bytes.length) := by
  refine ⟨h.contents, h.copied, Kernel.didRead_fds_self .., ?_⟩
  rw [Kernel.didRead_fds_of_ne _ _ _ hfd.symm]
  exact h.output

omit hne hfd in
/-- Nothing is transferred. -/
theorem Copying.nothing {k k' : Kernel} {src done : List UInt8} {start : Nat}
    (h : Copying k sfd dfd source dest src done start) (hfiles : k'.files = k.files)
    (hfds : k'.fds = k.fds) :
    Copying k' sfd dfd source dest src (done ++ gather src []) start := by
  rw [gather_nil, List.append_nil]
  refine ⟨?_, ?_, ?_, ?_⟩
  · rw [hfiles, h.contents]
  · rw [hfiles, h.copied]
  · rw [hfds, h.input]
  · rw [hfds, h.output]

/-- The inner loop makes the transfers of its plan. -/
theorem writeLoop_ensures {src buf : List UInt8} {start stop : Nat}
    (hbuf : ∀ m ≤ buf.length, buf.take m = (src.drop start).take m) {left : Nat} :
    ∀ {k : Kernel} {done : List UInt8} {pos num : Nat}, num < left → num ≤ buf.length →
      Copying k sfd dfd source dest src done stop →
      Ensures (writeLoop sched dfd buf left pos num) k fun _ k' =>
        let P := chunkPlan sched start left k.reads k.writes done.length num
        Copying k' sfd dfd source dest src (done ++ gather src P.pieces) stop ∧ Follows k' P := by
  induction left with
  | zero =>
    intro k done pos num hleft
    omega
  | succ left ih =>
    intro k done pos num hleft hnum hk
    rw [writeLoop]
    rcases Nat.eq_zero_or_pos num with rfl | hpos
    · rw [if_neg (Nat.lt_irrefl 0), chunkPlan_done]
      exact .pure ⟨hk.nothing rfl rfl, rfl, rfl⟩
    rw [if_pos hpos]
    have hlen : (buf.take num).length = num := by rw [List.length_take, Nat.min_eq_left hnum]
    rcases (sched.write k.writes).limit_cases hpos with ⟨-, hm⟩ | ⟨ret, hm, hret, hle⟩
    · rw [chunkPlan_error hpos hm]
      refine (write_error_returns (hlen.symm ▸ hm) hk.output).step ?_
      exact .pure ⟨hk.nothing rfl rfl, rfl, rfl⟩
    · have hbytes : (buf.take num).take ret = (src.drop start).take ret := by
        rw [List.take_take, Nat.min_eq_left hle, hbuf ret (hle.trans hnum)]
      have hlimit : (sched.write k.writes).limit (buf.take num).length = some ret := by
        rw [hlen, hm]
      have hwrite := write_limit_returns hlimit hk.output (by simp)
      have hret : ((buf.take num).take ret).length = ret := by
        rw [List.length_take, hlen, Nat.min_eq_left hle]
      rw [hbytes] at hwrite hret
      rw [hret] at hwrite
      refine hwrite.step ((ih (by omega) (by omega) (hk.didWrite hne hfd _)).mono ?_)
      rintro _ k' ⟨hk', hfollows⟩
      rw [List.length_append, hret] at hk' hfollows
      rw [List.append_assoc] at hk'
      rw [chunkPlan_write hpos hm]
      exact ⟨hk', hfollows.reads, hfollows.writes⟩

/-- The outer loop makes the transfers of its plan. -/
theorem copyLoop_ensures {src : List UInt8} {left : Nat} :
    ∀ {k : Kernel} {done : List UInt8} {start : Nat}, start ≤ src.length →
      src.length - start < left → Copying k sfd dfd source dest src done start →
      Ensures (copyLoop sched sfd dfd left) k fun _ k' =>
        let P := copyPlan sched left k.reads k.writes start done.length (src.length - start)
        ∃ stop, Copying k' sfd dfd source dest src (done ++ gather src P.pieces) stop ∧
          Follows k' P := by
  induction left with
  | zero =>
    intro k done start _ hleft
    omega
  | succ left ih =>
    intro k done start hstart hleft hk
    rw [copyLoop]
    rcases (sched.read k.reads).limit_cases (n := bufSize) (by decide) with
      ⟨-, hm⟩ | ⟨m, hm, hpos, -⟩
    · rw [copyPlan_error hm]
      refine (read_error_returns hm hk.input).step ?_
      exact .pure ⟨start, hk.nothing rfl rfl, rfl, rfl⟩
    have hread := read_limit_returns hm hk.input (by simp)
    generalize hbuf : readAt (k.files source) start m = buf at hread
    have hlen : buf.length = min m (src.length - start) := by
      rw [← hbuf, hk.contents, readAt, List.length_take, List.length_drop]
    refine hread.step ?_
    cases buf with
    | nil =>
      have hend : src.length - start = 0 := by
        rw [List.length_nil] at hlen
        omega
      rw [hend, copyPlan_done hm]
      exact .pure ⟨start, (hk.didRead hfd []).nothing rfl rfl, rfl, rfl⟩
    | cons x l =>
      have hsome : 0 < (x :: l).length := Nat.succ_pos _
      have hstop : start + (x :: l).length ≤ src.length := by omega
      have hprefix : ∀ i ≤ (x :: l).length, (x :: l).take i = (src.drop start).take i := by
        intro i hi
        rw [← hbuf, hk.contents, readAt, List.take_take, Nat.min_eq_left (by omega)]
      have hchunk : Ensures (writeLoop sched dfd (x :: l) ((x :: l).length + 1) 0 (x :: l).length)
          (k.didRead sfd ⟨source, .rdonly, start⟩ (x :: l)) _ :=
        writeLoop_ensures hne hfd hprefix (Nat.lt_succ_self _) le_rfl (hk.didRead hfd (x :: l))
      rw [Kernel.didRead_reads, Kernel.didRead_writes] at hchunk
      refine hchunk.bind fun _ k₁ hk₁ => ?_
      obtain ⟨hk₁, hfollows₁⟩ := hk₁
      have hcovers : (chunkPlan sched start ((x :: l).length + 1) (k.reads + 1) k.writes done.length
          (x :: l).length).Covers sched src.length (k.reads + 1) k.writes done.length
          (x :: l).length := chunkPlan_covers (Nat.lt_succ_self _) hstop
      have hlen₁ := gather_length hcovers.consecutive
      refine (ih hstop (by omega) hk₁).mono ?_
      rintro _ k' ⟨stop, hk', hfollows⟩
      rw [copyPlan_chunk (by omega) hpos hm rfl rfl, ← hlen, Nat.sub_sub]
      rw [hfollows₁.reads, hfollows₁.writes, List.length_append, hlen₁] at hk' hfollows
      rw [List.append_assoc, ← gather_append] at hk'
      exact ⟨stop, hk', hfollows.reads, hfollows.writes⟩

end

/-- The transfers of a whole copy from the state `k`. -/
def transfers (sched : Schedule) (k : Kernel) (source : Nat) : Plan :=
  copyPlan sched ((k.files source).length + 1) k.reads k.writes 0 0 (k.files source).length

theorem transfers_covers (sched : Schedule) (k : Kernel) (source : Nat) :
    (transfers sched k source).Covers sched (k.files source).length k.reads k.writes 0
      (k.files source).length :=
  copyPlan_covers (Nat.lt_succ_self _) (Nat.zero_add _).le

/-- The state in which the loop starts. -/
def opened (k : Kernel) (source dest : Nat) : Kernel :=
  ({ ({ k with opens := k.opens + 1 }.bind k.opens ⟨source, .rdonly, 0⟩)
    with opens := k.opens + 1 + 1 }.bind (k.opens + 1 : Nat) ⟨dest, .wronly, 0⟩).store dest []

theorem opened_copying {source dest : Nat} (hne : source ≠ dest) (k : Kernel) :
    Copying (opened k source dest) k.opens (k.opens + 1 : Nat) source dest (k.files source) []
      0 := by
  refine ⟨Function.update_of_ne hne .., Kernel.store_files_self .., ?_, Kernel.bind_fds_self ..⟩
  rw [opened, Kernel.store_fds, Kernel.bind_fds_of_ne _ _ (by omega)]
  exact Kernel.bind_fds_self ..

/-- The program exits with status 0, and the destination is made of the pieces of the plan. -/
theorem mycpSysio_ends {sched : Schedule} (hopens : ∀ i, sched.opens i = true) {source dest : Nat}
    (hne : source ≠ dest) (args : List Nat) (k : Kernel) :
    Ends (mycpSysio sched (source :: dest :: args)) k fun status k' =>
      status = 0 ∧ k'.files dest = gather (k.files source) (transfers sched k source).pieces ∧
        Follows k' (transfers sched k source) := by
  have hk := opened_copying hne k
  have hfd : (k.opens : Int) ≠ (k.opens + 1 : Nat) := by omega
  have hloop : Ensures (copyLoop sched k.opens (k.opens + 1 : Nat) ((k.files source).length + 1))
      (opened k source dest) _ :=
    copyLoop_ensures hne hfd (Nat.zero_le _) (Nat.lt_succ_self _) hk
  have hrounds := rounds_returns hk.input
  simp only [hk.contents] at hrounds
  rw [mycpSysio]
  refine (openFile_returns (hopens _)).ends ?_
  rw [if_neg (by omega)]
  refine (openFile_returns (hopens _)).ends ?_
  rw [if_neg (by omega)]
  refine hrounds.ends (hloop.ends ?_)
  rintro _ k' ⟨stop, hk', hfollows⟩
  refine (close_apply k' _).ends ((close_apply _ _).ends ((exit_exits 0 _).ends ?_))
  exact ⟨rfl, hk'.copied, hfollows.reads, hfollows.writes⟩

end CToys.Sysio.Mycp
