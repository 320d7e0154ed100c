import CToys.Cp.CpHoles
import CToys.Sysio.MycpWrites

/-!
# The plain copy

`cp_tlpi` gives each chunk to one call of `write` and stops when that call takes less.

So it never writes behind a gap: whatever calls fail or are short, the destination holds the
first bytes of the source, and the exit status says whether it holds all of them
(`copies_honestly`).  A file that is copied to itself is empty before it is read.

`mycp_sysio` on the same calls makes the same copy when `cp_tlpi` reports success
(`agrees_mycpSysio`).
-/

namespace CToys.Cp.Tlpi

open Posix Sysio

open Mycp (Unfailing)

/-! ## The program -/

/-- `BUF_SIZE`. -/
def bufSize : Nat := 1024

/-- `usageErr` prints how to call the program and exits. -/
def usageErr {α : Type} : Process Kernel α := exit 1

/-- The loop over the source, with the last result of `read`. -/
def copyLoop (sched : Schedule) (inputFd outputFd : Int) :
    (left : Nat) → Process Kernel (Option Nat)
  | 0 => throw .diverges
  | left + 1 => do
      match ← read sched inputFd bufSize with
      | none => return none
      | some [] => return some 0
      | some buf =>
          let num ← write sched outputFd buf
          if num ≠ some buf.length then errExit sched
          else copyLoop sched inputFd outputFd left

/-- `main`, where `file` is the file of each name. -/
def cpTlpi (sched : Schedule) (file : String → Nat) (argv : List String) :
    Process Kernel Unit :=
  match argv with
  | [_, old, new] =>
      if old = "--help" then usageErr
      else do
        let inputFd ← openFile sched (file old) .rdonly false
        if inputFd = -1 then errExit sched
        else
          let outputFd ← openFile sched (file new) .wronly true
          if outputFd = -1 then errExit sched
          else
            let numRead ← copyLoop sched inputFd outputFd (← rounds inputFd)
            if numRead = none then errExit sched
            else
              if ← close inputFd then
                if ← close outputFd then exit 0 else errExit sched
              else errExit sched
  | _ => usageErr

/-! ## The loop -/

/-- The files are those of `base`, but the destination holds the bytes `done`, which are the
first ones of the source. -/
structure Copying (k : Kernel) (inputFd outputFd : Int) (source dest : Nat)
    (base : Nat → List UInt8) (done : List UInt8) : Prop where
  files : k.files = Function.update base dest done
  taken : done <+: base source
  input : k.fds inputFd = some ⟨source, .rdonly, done.length⟩
  output : k.fds outputFd = some ⟨dest, .wronly, done.length⟩

section

variable {sched : Schedule} {k : Kernel} {inputFd outputFd : Int} {source dest : Nat}
  {base : Nat → List UInt8} {done rest : List UInt8}

/-- The destination was emptied, so nothing is left to read if it is the source. -/
theorem Copying.rest_eq (hbase : base dest = [])
    (hk : Copying k inputFd outputFd source dest base done) :
    (k.files source).drop done.length = (base source).drop done.length := by
  rw [hk.files]
  by_cases hne : source = dest
  · subst hne
    obtain rfl := List.prefix_nil.mp (hbase ▸ hk.taken)
    rw [Function.update_self, hbase]
  · rw [Function.update_of_ne hne]

/-- A read that finds `bytes`. -/
theorem Copying.didRead (hfd : inputFd ≠ outputFd)
    (hk : Copying k inputFd outputFd source dest base done) (bytes : List UInt8) :
    (k.didRead inputFd ⟨source, .rdonly, done.length⟩ bytes).fds outputFd =
      some ⟨dest, .wronly, done.length⟩ := by
  rw [Kernel.didRead_fds_of_ne _ _ _ hfd.symm]
  exact hk.output

/-- A write at the end of the destination. -/
theorem files_didWrite (hfiles : k.files = Function.update base dest done) (outputFd : Int)
    (bytes : List UInt8) :
    (k.didWrite outputFd ⟨dest, .wronly, done.length⟩ bytes).files =
      Function.update base dest (done ++ bytes) := by
  have hdest : k.files dest = done := by rw [hfiles, Function.update_self]
  calc (k.didWrite outputFd ⟨dest, .wronly, done.length⟩ bytes).files
      = Function.update k.files dest (writeAt (k.files dest) done.length bytes) := rfl
    _ = Function.update k.files dest (writeAt (done ++ []) done.length bytes) := by
        rw [hdest, List.append_nil]
    _ = Function.update base dest (done ++ bytes) := by
        rw [writeAt_append, hfiles, Function.update_idem, List.drop_nil, List.append_nil]

/-- The state after the loop has read all there is, or a read has failed. -/
def AtEnd (sched : Schedule) (k : Kernel) (src done : List UInt8) (numRead : Option Nat)
    (k' : Kernel) : Prop :=
  if numRead = none then ¬ Unfailing sched.read k.reads k'.reads
  else done = src ∧ Unfailing sched.read k.reads k'.reads

/-- Behind a round, what matters is the rounds that follow. -/
theorem AtEnd.of_round {k₁ k' : Kernel} {src : List UInt8} {numRead : Option Nat}
    (hread : sched.read k.reads ≠ .error) (hreads : k₁.reads = k.reads + 1)
    (h : AtEnd sched k₁ src done numRead k') : AtEnd sched k src done numRead k' := by
  unfold AtEnd at *
  rw [hreads] at h
  split at h
  · next hnone =>
    rw [if_pos hnone]
    exact fun hall => h (hall.mono (Nat.le_succ _) le_rfl)
  · next hnone =>
    rw [if_neg hnone]
    exact ⟨h.1, h.2.before hread⟩

/-- The destination lacks bytes of the source. -/
def Short (base : Nat → List UInt8) (source dest : Nat) (k' : Kernel) : Prop :=
  ∃ done, k'.files = Function.update base dest done ∧ done <+: base source ∧ done ≠ base source

/-- A round takes the bytes `buf` of the source. -/
theorem Copying.round {buf rest' : List UInt8} (hfd : inputFd ≠ outputFd)
    (hk : Copying k inputFd outputFd source dest base done)
    (hsrc : base source = done ++ buf ++ rest') :
    Copying ((k.didRead inputFd ⟨source, .rdonly, done.length⟩ buf).didWrite outputFd
      ⟨dest, .wronly, done.length⟩ buf) inputFd outputFd source dest base (done ++ buf) where
  files := files_didWrite hk.files outputFd buf
  taken := hsrc ▸ List.prefix_append ..
  input := by
    rw [Kernel.didWrite_fds_of_ne _ _ _ hfd, Kernel.didRead_fds_self, List.length_append]
    rfl
  output := by
    rw [Kernel.didWrite_fds_self, List.length_append]
    rfl

/-- A write took the first `n` bytes of `buf` only. -/
theorem Short.of_lt {buf rest' : List UInt8} {n : Nat} {k' : Kernel}
    (hsrc : base source = done ++ buf ++ rest') (hn : n < buf.length)
    (hfiles : k'.files = Function.update base dest (done ++ buf.take n)) :
    Short base source dest k' := by
  refine ⟨_, hfiles, ?_, fun heq => ?_⟩
  · rw [hsrc, List.append_assoc]
    exact (List.prefix_append_right_inj done).mpr
      ((List.take_prefix n buf).trans (List.prefix_append _ rest'))
  · have hlen := congrArg List.length heq
    rw [hsrc, List.length_append, List.length_append, List.length_append, List.length_take] at hlen
    omega

/-- The source is consumed chunk by chunk, until a call fails or a write is short. -/
theorem copyLoop_settles (hbase : base dest = []) (hfd : inputFd ≠ outputFd) {left : Nat} :
    ∀ {k : Kernel} {done rest : List UInt8}, base source = done ++ rest → rest.length < left →
      Copying k inputFd outputFd source dest base done →
      Settles (copyLoop sched inputFd outputFd left) k
        (fun numRead k' => ∃ done', Copying k' inputFd outputFd source dest base done' ∧
          AtEnd sched k (base source) done' numRead k')
        fun status k' => status = failure sched ∧ Short base source dest k' := by
  induction left with
  | zero =>
    intro k done rest _ hleft
    omega
  | succ left ih =>
    intro k done rest hsrc hleft hk
    have hrest : (k.files source).drop done.length = rest := by
      rw [hk.rest_eq hbase, hsrc, List.drop_left]
    rw [copyLoop]
    rcases (sched.read k.reads).limit_cases (n := bufSize) (by decide) with
      ⟨herror, hm⟩ | ⟨m, hm, hpos, -⟩
    · refine (read_error_returns hm hk.input).settles (.pure ⟨done, ?_, ?_⟩)
      · exact ⟨hk.files, hk.taken, hk.input, hk.output⟩
      · exact (if_pos rfl).mpr fun hall => hall _ le_rfl (Nat.lt_succ_self _) herror
    have hgood := Transfer.ne_error_of_limit hm
    have hread := read_limit_returns hm hk.input rdonly_ne_wronly
    rw [readAt, hrest] at hread
    have houtput := hk.didRead hfd (rest.take m)
    have hsplit : rest = rest.take m ++ rest.drop m := (List.take_append_drop m rest).symm
    cases hbuf : rest.take m with
    | nil =>
      have hnil : rest = [] := (List.take_eq_nil_iff.mp hbuf).resolve_left hpos.ne'
      rw [hbuf] at hread houtput
      have hend : AtEnd sched (k.didRead inputFd ⟨source, .rdonly, done.length⟩ []) (base source)
          done (some 0) (k.didRead inputFd ⟨source, .rdonly, done.length⟩ []) := by
        refine (if_neg (Option.some_ne_none 0)).mpr
          ⟨?_, fun i hlo hhi => absurd hhi (Nat.not_lt.mpr hlo)⟩
        rw [hsrc, hnil, List.append_nil]
      refine hread.settles (.pure ⟨done, ⟨hk.files, hk.taken, ?_, houtput⟩, ?_⟩)
      · exact Kernel.didRead_fds_self ..
      · exact hend.of_round hgood rfl
    | cons c cs =>
      rw [hbuf] at hread houtput hsplit
      rw [hsplit, ← List.append_assoc] at hsrc
      refine hread.settles ?_
      -- the chunk is handed to one call
      rcases write_cases sched (List.cons_ne_nil c cs) houtput rdonly_ne_wronly.symm with
        hwrite | ⟨num, n, k', hwrite, hnum, hn, hfiles⟩
      · refine hwrite.settles ?_
        rw [if_neg (by simp)]
        refine (ih hsrc ?_ (hk.round hfd hsrc)).mono ?_ fun _ _ h => h
        · rw [hsplit, List.length_append, List.length_cons] at hleft
          omega
        · rintro numRead k' ⟨done', hk', hend⟩
          exact ⟨done', hk', hend.of_round hgood rfl⟩
      · refine hwrite.settles ?_
        rw [if_pos hnum]
        exact errExit_settles
          ⟨rfl, .of_lt hsrc hn (hfiles.trans (files_didWrite hk.files outputFd _))⟩

end

/-! ## The copy -/

/-- Both files can be opened. -/
def Opens (sched : Schedule) (k : Kernel) : Prop :=
  sched.opens k.opens = true ∧ sched.opens (k.opens + 1) = true

instance (sched : Schedule) (k : Kernel) : Decidable (Opens sched k) :=
  inferInstanceAs (Decidable (_ ∧ _))

theorem opened_copying (k : Kernel) (source dest : Nat) :
    Copying (Mycp.opened k source dest) k.opens (k.opens + 1 : Nat) source dest
      (Function.update k.files dest []) [] := by
  refine ⟨?_, List.nil_prefix, ?_, Kernel.bind_fds_self ..⟩
  · rw [Function.update_idem]
    rfl
  · rw [Mycp.opened, Kernel.store_fds, Kernel.bind_fds_of_ne _ _ (by omega)]
    exact Kernel.bind_fds_self ..

/-- What the files hold at exit, if `base` are the files with an empty destination: a prefix of
the source in the destination, which is all of it and was read to the end exactly if the status
is 0. -/
def Honest (sched : Schedule) (k : Kernel) (base : Nat → List UInt8) (source dest status : Nat)
    (k' : Kernel) : Prop :=
  ∃ done, k'.files = Function.update base dest done ∧ done <+: base source ∧
    (status = 0 ∨ status = failure sched) ∧
      (status = 0 ↔ done = base source ∧ Unfailing sched.read k.reads k'.reads)

/-- Whatever calls fail or are short, the program tells whether the copy is complete. -/
theorem copies_honestly (sched : Schedule) (file : String → Nat) (prog : String) {old : String}
    (hold : old ≠ "--help") (new : String) (k : Kernel) :
    Ends (cpTlpi sched file [prog, old, new]) k fun status k' =>
      if Opens sched k then
        Honest sched k (Function.update k.files (file new) []) (file old) (file new) status k'
      else status = failure sched ∧ k'.files = k.files := by
  rw [cpTlpi, if_neg hold]
  cases hin : sched.opens k.opens with
  | false =>
    refine (openFile_error_returns hin).ends ((errExit_exits sched _).ends ?_)
    rw [if_neg fun h : Opens sched k => Bool.false_ne_true (hin.symm.trans h.1)]
    exact ⟨rfl, rfl⟩
  | true =>
    refine (openFile_returns hin).ends ?_
    rw [if_neg (by omega)]
    cases hout : sched.opens (k.opens + 1) with
    | false =>
      refine (openFile_error_returns hout).ends ((errExit_exits sched _).ends ?_)
      rw [if_neg fun h : Opens sched k => Bool.false_ne_true (hout.symm.trans h.2)]
      exact ⟨rfl, rfl⟩
    | true =>
      refine (openFile_returns hout).ends ?_
      rw [if_neg (by omega)]
      simp only [show Opens sched k from ⟨hin, hout⟩, if_true]
      have hfd : (k.opens : Int) ≠ (k.opens + 1 : Nat) := by omega
      have hk := opened_copying k (file old) (file new)
      have hrounds := rounds_returns hk.input
      rw [hk.files, Function.update_idem] at hrounds
      refine hrounds.ends ?_
      have hloop : Settles (copyLoop sched k.opens (k.opens + 1 : Nat) _) _ _ _ :=
        copyLoop_settles (Function.update_self ..) hfd rfl (Nat.lt_succ_self _) hk
      refine hloop.ends ?_ ?_
      · rintro status k' ⟨rfl, done, hfiles, htaken, hshort⟩
        exact ⟨done, hfiles, htaken, .inr rfl, by simp [hshort, failure_ne_zero]⟩
      · rintro numRead k' ⟨done, hk', hend⟩
        split
        · next hnone =>
          refine (errExit_exits sched _).ends ⟨done, hk'.files, hk'.taken, .inr rfl, ?_⟩
          rw [AtEnd, if_pos hnone] at hend
          exact iff_of_false failure_ne_zero fun hall => absurd hall.2 hend
        · next hnone =>
          rw [AtEnd, if_neg hnone] at hend
          have hclose : Returns (close k.opens) k' true _ := close_returns hk'.input
          refine hclose.ends ?_
          rw [if_pos rfl]
          refine (close_returns ((Kernel.unbind_fds_of_ne _ hfd.symm).trans hk'.output)).ends ?_
          rw [if_pos rfl]
          exact (exit_exits 0 _).ends ⟨done, hk'.files, hk'.taken, .inl rfl, iff_of_true rfl hend⟩

/-- The names of two files. -/
def names (name : String) : Nat := if name = "old" then 0 else 1

/-- A first write that is short is the last one, and the status tells. -/
theorem shortened_honestly :
    Ends (cpTlpi Mycp.shortFirst names ["cp", "old", "new"]) (Mycp.holding [1, 2]) fun status k' =>
      k'.files 1 <+: [1, 2] ∧ (status = 0 → k'.files 1 = [1, 2]) := by
  refine (copies_honestly Mycp.shortFirst names "cp" (by decide) "new"
    (Mycp.holding [1, 2])).mono ?_
  rintro status k' ⟨done, hfiles, htaken, -, hstatus⟩
  have hdone : k'.files 1 = done := congrFun hfiles 1
  rw [hdone]
  exact ⟨htaken, fun h => (hstatus.mp h).1⟩

/-! ## The careful copy -/

section

variable {sched : Schedule} {inputFd outputFd : Int} {k k' : Kernel}

/-- The loop exits after a short write only. -/
theorem copyLoop_exits {left status : Nat}
    (h : Exits (copyLoop sched inputFd outputFd left) k status k') : status = failure sched := by
  induction left generalizing k with
  | zero => cases h
  | succ left ih =>
    rw [copyLoop] at h
    obtain ⟨buf, k₁, -, h⟩ := exits_syscall h
    match buf with
    | none => cases h
    | some [] => cases h
    | some (c :: cs) =>
      obtain ⟨num, k₂, -, h⟩ := exits_syscall h
      split at h
      · exact (h.unique (errExit_exits sched k₂)).1
      · exact ih h

/-- A complete write ends the loop over a chunk. -/
theorem writeLoop_returns {buf : List UInt8} (hbuf : buf ≠ [])
    (hwrite : Returns (write sched outputFd buf) k (some buf.length) k') :
    Returns (Mycp.writeLoop sched outputFd buf (buf.length + 1) 0 buf.length) k () k' := by
  obtain ⟨n, hn⟩ := Nat.exists_eq_succ_of_ne_zero (List.length_pos_of_ne_nil hbuf).ne'
  rw [Mycp.writeLoop, if_pos (List.length_pos_of_ne_nil hbuf), List.take_length]
  refine hwrite.bind ?_
  dsimp only
  rw [hn, Nat.sub_self]
  exact Returns.pure () _

/-- Where no call fails and no write is short, `mycp_sysio` makes the same calls. -/
theorem copyLoop_same {left : Nat} {numRead : Option Nat} (hnum : numRead ≠ none)
    (h : Returns (copyLoop sched inputFd outputFd left) k numRead k') :
    Returns (Mycp.copyLoop sched inputFd outputFd left) k () k' := by
  induction left generalizing k with
  | zero => cases h
  | succ left ih =>
    rw [copyLoop] at h
    obtain ⟨buf, k₁, hread, h⟩ := h.of_bind
    match buf with
    | none =>
      cases h
      exact absurd rfl hnum
    | some [] =>
      cases h
      exact hread.bind (Returns.pure () _)
    | some (c :: cs) =>
      obtain ⟨num, k₂, hwrite, h⟩ := h.of_bind
      split at h
      · exact absurd (errExit_exits sched k₂) h.not_fails
      · next hall =>
        obtain rfl := not_not.mp hall
        exact hread.bind ((writeLoop_returns (List.cons_ne_nil c cs) hwrite).bind (ih h))

/-- A descriptor is a number, or -1. -/
theorem openFile_fd {file : Nat} {mode : Mode} {trunc : Bool} {fd : Int}
    (h : Returns (openFile sched file mode trunc) k fd k') (hfd : fd ≠ -1) : ¬ fd < 0 := by
  cases hs : sched.opens k.opens with
  | false => exact absurd (h.unique (openFile_error_returns hs)).1 hfd
  | true =>
    rw [(h.unique (openFile_returns hs)).1]
    exact Int.not_lt.mpr (Int.natCast_nonneg _)

end

/-- When the plain copy reports success, the careful one makes the same transfers. -/
theorem agrees_mycpSysio {sched : Schedule} {file : String → Nat} {prog old new : String}
    {k k' : Kernel} (h : Exits (cpTlpi sched file [prog, old, new]) k 0 k') :
    Ends (Mycp.mycpSysio sched [file old, file new]) k fun status k'' =>
      status = 0 ∧ k''.files = k'.files ∧ k''.trace = k'.trace := by
  rw [cpTlpi] at h
  split at h
  · cases h
  obtain ⟨inputFd, k₁, hin, h⟩ := exits_syscall h
  split at h
  · exact absurd h not_errExit_zero
  next hinFd =>
  obtain ⟨outputFd, k₂, hout, h⟩ := exits_syscall h
  split at h
  · exact absurd h not_errExit_zero
  next houtFd =>
  obtain ⟨left, k₃, hleft, h⟩ := exits_syscall h
  rcases h.of_bind with h | ⟨numRead, k₄, hloop, h⟩
  · exact absurd (copyLoop_exits h).symm failure_ne_zero
  split at h
  · exact absurd h not_errExit_zero
  next hnum =>
  have hsame := copyLoop_same hnum hloop
  obtain ⟨closed, k₅, hclose, h⟩ := exits_syscall h
  split at h
  swap
  · exact absurd h not_errExit_zero
  obtain ⟨closed', k₆, hclose', h⟩ := exits_syscall h
  split at h
  swap
  · exact absurd h not_errExit_zero
  obtain ⟨-, rfl⟩ := hclose.unique (close_apply k₄ inputFd)
  obtain ⟨-, rfl⟩ := hclose'.unique (close_apply _ outputFd)
  cases h
  rw [Mycp.mycpSysio]
  refine Returns.ends hin ?_
  rw [if_neg (openFile_fd hin hinFd)]
  refine Returns.ends hout ?_
  rw [if_neg (openFile_fd hout houtFd)]
  refine Returns.ends hleft (hsame.ends ?_)
  refine (close_apply k₄ _).ends ((close_apply _ _).ends ((exit_exits 0 _).ends ?_))
  exact ⟨rfl, rfl, rfl⟩

/-- Two bytes, in complete calls. -/
theorem eager_agrees : ∃ k',
    Exits (cpTlpi .eager names ["cp", "old", "new"]) (Mycp.holding [1, 2]) 0 k' ∧
      Ends (Mycp.mycpSysio .eager [0, 1]) (Mycp.holding [1, 2]) fun status k'' =>
        status = 0 ∧ k''.files = k'.files ∧ k''.trace = k'.trace := by
  have hrun : atExit (·.files 1) (cpTlpi .eager names ["cp", "old", "new"])
      (Mycp.holding [1, 2]) = some (0, [1, 2]) := by decide
  obtain ⟨k', hexit, -⟩ := Exits.of_atExit hrun
  exact ⟨k', hexit, agrees_mycpSysio hexit⟩

end CToys.Cp.Tlpi
