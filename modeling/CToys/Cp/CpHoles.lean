import CToys.Lib.Transfers

/-!
# Copying with holes

`cp_holes` copies a file and skips zero bytes of the input with `lseek`, so that they
become holes in the output.

While it copies, the offset in the output is the number of bytes consumed, and the output
holds these bytes up to the last one that is not zero (`Written`).  A hole becomes part of
the output by the next write only.  Zero bytes at the end of the input have no write behind
them, and the program does not set the length of the output, so they are missing.
-/

namespace CToys.Cp

open Posix

/-! ## The program -/

/-- `BUF_SIZE`. -/
def bufSize : Nat := 1024

/-- `terminate`. -/
def terminate {α : Type} (sched : Schedule) : Process Kernel α :=
  if sched.dumpCore then abort else exit 1

/-- `errExit` and `fatal` print an error and terminate. -/
def errExit {α : Type} (sched : Schedule) : Process Kernel α := terminate sched

/-- A loop over the bytes of a buffer from index `i` on: count those that satisfy `p`, up to
the first that does not or the end. -/
def countWhile (p : UInt8 → Bool) (buf : List UInt8) : (left i count : Nat) → Nat × Nat
  | 0, i, count => (i, count)
  | left + 1, i, count =>
      match buf[i]? with
      | none => (i, count)
      | some c => if p c then countWhile p buf left (i + 1) (count + 1) else (i, count)

/-- Write the bytes from `cursor` on. -/
def writeData (sched : Schedule) (outputFd : Int) (buf : List UInt8) (cursor nonzeroBytes : Nat) :
    Process Kernel Unit :=
  if nonzeroBytes > 0 then do
    let num ← write sched outputFd ((buf.drop cursor).take nonzeroBytes)
    if num ≠ some nonzeroBytes then errExit sched else return ()
  else return ()

/-- Seek over the zero bytes. -/
def seekHole (sched : Schedule) (outputFd : Int) (zeroBytes : Nat) : Process Kernel Unit :=
  if zeroBytes > 0 then do
    let off ← lseek outputFd zeroBytes .seekCur
    if off = none then errExit sched else return ()
  else return ()

/-- The loop over a chunk. -/
def copyChunk (sched : Schedule) (outputFd : Int) (buf : List UInt8) :
    (left i cursor : Nat) → Process Kernel Unit
  | 0, _, _ => throw .diverges
  | left + 1, i, cursor =>
      if i < buf.length then do
        let data := countWhile (· ≠ 0) buf buf.length i 0
        writeData sched outputFd buf cursor data.2
        let zeros := countWhile (· = 0) buf buf.length data.1 0
        seekHole sched outputFd zeros.2
        copyChunk sched outputFd buf left zeros.1 zeros.1
      else return ()

/-- The loop over the input.  A failed read ends it, and is reported after it. -/
def copyLoop (sched : Schedule) (inputFd outputFd : Int) : (left : Nat) → Process Kernel Unit
  | 0 => throw .diverges
  | left + 1 => do
      match ← read sched inputFd bufSize with
      | none => errExit sched
      | some [] => return ()
      | some buf =>
          copyChunk sched outputFd buf (buf.length + 1) 0 0
          copyLoop sched inputFd outputFd left

/-- The input file. -/
def inputFile : Nat := 0

/-- The output file. -/
def outputFile : Nat := 1

/-- `main`. -/
def cpHoles (sched : Schedule) : Process Kernel Unit := do
  let inputFd ← openFile sched inputFile .rdonly false
  if inputFd = -1 then errExit sched
  else
    let outputFd ← openFile sched outputFile .wronly true
    if outputFd = -1 then errExit sched
    else
      copyLoop sched inputFd outputFd (← rounds inputFd)
      if ← close inputFd then
        if ← close outputFd then exit 0 else errExit sched
      else errExit sched

/-- The state in which the program starts: an input and an old output. -/
def start (input output : List UInt8) : Kernel where
  files := fun file => if file = inputFile then input else output
  fds := fun _ => none
  opens := 3
  reads := 0
  writes := 0
  trace := []
  stdout := []

/-! ## Errors -/

/-- The status after an error. -/
def failure (sched : Schedule) : Nat := if sched.dumpCore then 134 else 1

section

variable {α : Type} {sched : Schedule} {k k' : Kernel}

theorem failure_ne_zero : failure sched ≠ 0 := by
  unfold failure
  split <;> decide

theorem errExit_exits (sched : Schedule) (k : Kernel) :
    Exits (errExit sched : Process Kernel α) k (failure sched) k := by
  unfold errExit terminate failure
  split
  · exact exit_exits 134 k
  · exact exit_exits 1 k

theorem errExit_settles {Q : α → Kernel → Prop} {R : Nat → Kernel → Prop}
    (h : R (failure sched) k) : Settles (errExit sched) k Q R :=
  .inr ((errExit_exits sched k).ends h)

/-- No error has the status 0. -/
theorem not_errExit_zero : ¬ Exits (errExit sched : Process Kernel α) k 0 k' :=
  fun h => failure_ne_zero ((errExit_exits sched k).unique h).1

end

/-! ## A chunk -/

/-- The bytes `done` were consumed. -/
structure Written (k : Kernel) (fd : Int) (done : List UInt8) : Prop where
  offset : k.fds fd = some ⟨outputFile, .wronly, done.length⟩
  contents : k.files outputFile = trimZeros done

/-- Only the output and its descriptor changed. -/
structure Untouched (k k' : Kernel) (fd : Int) : Prop where
  input : k'.files inputFile = k.files inputFile
  others : ∀ fd', fd' ≠ fd → k'.fds fd' = k.fds fd'

theorem Untouched.refl (k : Kernel) (fd : Int) : Untouched k k fd := ⟨rfl, fun _ _ => rfl⟩

theorem Untouched.trans {k k₁ k₂ : Kernel} {fd : Int} (h : Untouched k k₁ fd)
    (h' : Untouched k₁ k₂ fd) : Untouched k k₂ fd :=
  ⟨h'.input.trans h.input, fun fd' hfd => (h'.others fd' hfd).trans (h.others fd' hfd)⟩

/-- From `k` to `k'` the bytes of `bytes` that are not zero were written, each at its offset from
`off` on, and nothing else was. -/
structure Logged (k k' : Kernel) (off : Nat) (bytes : List UInt8) : Prop where
  stores : stores outputFile k'.trace = stores outputFile k.trace ++ nonzeros off bytes
  writes : ∀ file o data, Access.write file o data ∈ k'.trace →
    .write file o data ∈ k.trace ∨ file = outputFile ∧ 0 ∉ data

/-- Nothing was written. -/
theorem Logged.of_zeros {k k' : Kernel} {bytes : List UInt8} (off : Nat)
    (htrace : k'.trace = k.trace) (h : ∀ x ∈ bytes, x = 0) : Logged k k' off bytes where
  stores := by rw [htrace, nonzeros_of_zeros off h, List.append_nil]
  writes _ _ _ hmem := .inl (htrace ▸ hmem)

theorem Logged.trans {k k₁ k₂ : Kernel} {off off' : Nat} {bytes bytes' : List UInt8}
    (h : Logged k k₁ off bytes) (h' : Logged k₁ k₂ off' bytes')
    (hoff : off' = off + bytes.length) : Logged k k₂ off (bytes ++ bytes') where
  stores := by rw [h'.stores, h.stores, nonzeros_append, hoff, List.append_assoc]
  writes file o data hmem := (h'.writes file o data hmem).elim (h.writes file o data) .inr

/-- A write of bytes that are not zero. -/
theorem Logged.of_write {k : Kernel} {bytes : List UInt8} (fd : Int) (mode : Mode) (off : Nat)
    (h : ∀ x ∈ bytes, x ≠ 0) :
    Logged k (k.didWrite fd ⟨outputFile, mode, off⟩ bytes) off bytes where
  stores := by
    rw [nonzeros_of_data off h]
    exact if_pos rfl
  writes file o data hmem := by
    rcases List.mem_cons.mp hmem with heq | hmem
    · obtain ⟨rfl, rfl, rfl⟩ := Access.write.inj heq
      exact .inr ⟨rfl, fun hzero => h 0 hzero rfl⟩
    · exact .inl hmem

/-- A read before. -/
theorem Logged.of_read {k k' : Kernel} {fd : Int} {d : Descriptor} {off : Nat}
    {read bytes : List UInt8} (h : Logged (k.didRead fd d read) k' off bytes) :
    Logged k k' off bytes where
  stores := h.stores
  writes file o data hmem := by
    rcases h.writes file o data hmem with hmem | hwrote
    · rcases List.mem_cons.mp hmem with heq | hmem
      · cases heq
      · exact .inl hmem
    · exact .inr hwrote

section

variable {sched : Schedule} {k : Kernel} {fd : Int} {buf done rest : List UInt8}

/-- What the counting loops compute. -/
theorem countWhile_eq {p : UInt8 → Bool} : ∀ {left i count : Nat}, buf.length ≤ i + left →
    countWhile p buf left i count = (i + ((buf.drop i).takeWhile p).length,
      count + ((buf.drop i).takeWhile p).length)
  | 0, i, count, h => by
      rw [List.drop_of_length_le (by omega)]
      rfl
  | left + 1, i, count, h => by
      rw [countWhile]
      cases hi : buf[i]? with
      | none =>
        rw [List.drop_of_length_le (List.getElem?_eq_none_iff.mp hi)]
        rfl
      | some c =>
        obtain ⟨hlt, rfl⟩ := List.getElem?_eq_some_iff.mp hi
        simp only [List.drop_eq_getElem_cons hlt, List.takeWhile_cons]
        split
        · rw [countWhile_eq (by omega), List.length_cons]
          simp only [Prod.mk.injEq]
          omega
        · rfl

theorem writeData_ensures (hs : sched.Smooth) (hw : Written k fd done) {cursor : Nat}
    {data : List UInt8} (hdata : buf.drop cursor = data ++ rest) (hne : ∀ x ∈ data, x ≠ 0) :
    Ensures (writeData sched fd buf cursor data.length) k fun _ k' =>
      Written k' fd (done ++ data) ∧ Untouched k k' fd ∧ Logged k k' done.length data := by
  unfold writeData
  cases hcons : data with
  | nil => exact .pure ⟨by simpa using hw, .refl k fd, .of_zeros _ rfl (by simp)⟩
  | cons x l =>
    rw [if_pos (by simp), ← hcons, hdata, List.take_left]
    refine (write_returns hs.write hw.offset (by simp) data).step ?_
    rw [if_neg (by simp)]
    refine .pure ⟨⟨?_, ?_⟩, ⟨?_, fun fd' hfd => ?_⟩, .of_write fd .wronly _ hne⟩
    · simp [Descriptor.advance]
    · have hdata : data ≠ [] := by simp [hcons]
      refine (Kernel.didWrite_files_self ..).trans ?_
      rw [hw.contents, writeAt_trimZeros hdata, trimZeros_append_data hdata hne]
    · exact Kernel.didWrite_files_of_ne _ _ (by simp [inputFile, outputFile])
    · exact Kernel.didWrite_fds_of_ne _ _ _ hfd

theorem seekHole_ensures (hw : Written k fd done) {zeros : List UInt8}
    (hzeros : ∀ x ∈ zeros, x = 0) :
    Ensures (seekHole sched fd zeros.length) k fun _ k' =>
      Written k' fd (done ++ zeros) ∧ Untouched k k' fd ∧ Logged k k' done.length zeros := by
  unfold seekHole
  cases hcons : zeros with
  | nil => exact .pure ⟨by simpa using hw, .refl k fd, .of_zeros _ rfl (by simp)⟩
  | cons x l =>
    rw [if_pos (by simp), ← hcons]
    have htarget : Whence.base .seekCur k ⟨outputFile, .wronly, done.length⟩ + (zeros.length : Int)
        = (done.length + zeros.length : Nat) := by simp [Whence.base]
    refine (lseek_returns hw.offset htarget).step ?_
    · rw [if_neg (by simp)]
      refine .pure ⟨⟨?_, ?_⟩, ⟨rfl, fun fd' hfd => Kernel.bind_fds_of_ne _ _ hfd⟩,
        .of_zeros _ rfl hzeros⟩
      · simp
      · rw [Kernel.bind_files, hw.contents, trimZeros_append_zeros hzeros]

/-- A byte is data or zero, so a round goes on. -/
theorem run_pos {l : List UInt8} (h : l ≠ []) : 0 < (l.takeWhile (· ≠ 0)).length +
    ((l.dropWhile (· ≠ 0)).takeWhile (· = 0)).length := by
  cases l with
  | nil => exact absurd rfl h
  | cons x l =>
    by_cases hx : x = 0
    · simp [hx]
    · rw [List.takeWhile_cons_of_pos (by simpa using hx), List.length_cons]
      omega

/-- A chunk is consumed run by run. -/
theorem copyChunk_ensures (hs : sched.Smooth) {left : Nat} : ∀ {i : Nat} {k : Kernel}
    {done : List UInt8}, i ≤ buf.length → buf.length < i + left → Written k fd done →
    Ensures (copyChunk sched fd buf left i i) k fun _ k' =>
      Written k' fd (done ++ buf.drop i) ∧ Untouched k k' fd ∧
        Logged k k' done.length (buf.drop i) := by
  induction left with
  | zero =>
    intro i k done hi hleft
    omega
  | succ left ih =>
    intro i k done hi hleft hw
    rw [copyChunk]
    by_cases hlt : i < buf.length
    swap
    · rw [if_neg hlt, List.drop_of_length_le (Nat.not_lt.mp hlt), List.append_nil]
      exact .pure ⟨hw, .refl k fd, .of_zeros _ rfl (by simp)⟩
    -- the next bytes: a run of data, a run of zeros, and the rest
    let data := (buf.drop i).takeWhile (· ≠ 0)
    let rest := (buf.drop i).dropWhile (· ≠ 0)
    let zeros := rest.takeWhile (· = 0)
    let rest' := rest.dropWhile (· = 0)
    have hdata : buf.drop i = data ++ rest := List.takeWhile_append_dropWhile.symm
    have hrest : rest = zeros ++ rest' := List.takeWhile_append_dropWhile.symm
    have hdrop : buf.drop (i + data.length) = rest := by
      rw [← List.drop_drop, hdata, List.drop_left]
    have hdrop' : buf.drop (i + data.length + zeros.length) = rest' := by
      rw [← List.drop_drop, hdrop, hrest, List.drop_left]
    have hcount : countWhile (· ≠ 0) buf buf.length i 0 = (i + data.length, data.length) := by
      rw [countWhile_eq (by omega), Nat.zero_add]
    have hcount' : countWhile (· = 0) buf buf.length (i + data.length) 0 =
        (i + data.length + zeros.length, zeros.length) := by
      rw [countWhile_eq (by omega), Nat.zero_add, hdrop]
    have hlen := congrArg List.length hdata
    have hlen' := congrArg List.length hrest
    rw [List.length_append, List.length_drop] at hlen
    rw [List.length_append] at hlen'
    have hsome : 0 < data.length + zeros.length :=
      run_pos (List.ne_nil_of_length_pos (by rw [List.length_drop]; omega))
    rw [if_pos hlt]
    simp only [hcount, hcount']
    refine (writeData_ensures hs hw hdata fun x hx => ?_).bind fun _ k₁ ⟨hw₁, hu₁, hl₁⟩ => ?_
    · simpa using List.mem_takeWhile_imp hx
    refine (seekHole_ensures hw₁ fun x hx => ?_).bind fun _ k₂ ⟨hw₂, hu₂, hl₂⟩ => ?_
    · simpa using List.mem_takeWhile_imp hx
    refine (ih (by omega) (by omega) hw₂).mono fun _ k₃ ⟨hw₃, hu₃, hl₃⟩ =>
      ⟨?_, (hu₁.trans hu₂).trans hu₃, ?_⟩
    · rw [hdrop'] at hw₃
      rw [hdata, hrest]
      simpa using hw₃
    · rw [hdrop'] at hl₃
      rw [hdata, hrest]
      refine hl₁.trans (hl₂.trans hl₃ ?_) ?_
      · rw [List.length_append]
      · rw [List.length_append]

/-! ## The input -/

/-- The bytes `done` of the input were consumed and the bytes `rest` are left. -/
structure Copying (k : Kernel) (inputFd outputFd : Int) (done rest : List UInt8) : Prop where
  written : Written k outputFd done
  contents : k.files inputFile = done ++ rest
  offset : k.fds inputFd = some ⟨inputFile, .rdonly, done.length⟩

/-- A round of the loop: the bytes `buf` are read and processed. -/
def Chunk (sched : Schedule) (inputFd outputFd : Int) (k : Kernel) (buf : List UInt8)
    (k' : Kernel) : Prop :=
  buf ≠ [] ∧ ∃ k₁, Returns (read sched inputFd bufSize) k (some buf) k₁ ∧
    Returns (copyChunk sched outputFd buf (buf.length + 1) 0 0) k₁ () k'

/-- The loop goes on behind a round. -/
theorem Chunk.copyLoop_apply {inputFd outputFd : Int} {k' : Kernel}
    (h : Chunk sched inputFd outputFd k buf k') (left : Nat) :
    copyLoop sched inputFd outputFd (left + 1) k = copyLoop sched inputFd outputFd left k' := by
  obtain ⟨hne, k₁, hread, hchunk⟩ := h
  obtain ⟨x, l, rfl⟩ := List.exists_cons_of_ne_nil hne
  rw [copyLoop, hread.bind_apply]
  exact hchunk.bind_apply

theorem Chunk.unique {inputFd outputFd : Int} {buf' : List UInt8} {k₁ k₂ : Kernel}
    (h₁ : Chunk sched inputFd outputFd k buf k₁) (h₂ : Chunk sched inputFd outputFd k buf' k₂) :
    buf = buf' ∧ k₁ = k₂ := by
  obtain ⟨-, j₁, hread₁, hchunk₁⟩ := h₁
  obtain ⟨-, j₂, hread₂, hchunk₂⟩ := h₂
  obtain ⟨hbuf, rfl⟩ := hread₁.unique hread₂
  obtain rfl := Option.some.inj hbuf
  exact ⟨rfl, (hchunk₁.unique hchunk₂).2⟩

section

variable {inputFd outputFd : Int} (hs : sched.Smooth) (hne : inputFd ≠ outputFd)
include hs hne

/-- At the end of the input. -/
theorem Copying.eof (hk : Copying k inputFd outputFd done []) :
    ∃ k', Returns (read sched inputFd bufSize) k (some []) k' ∧
      Copying k' inputFd outputFd done [] ∧ Logged k k' done.length [] := by
  have hdrop : (k.files inputFile).drop done.length = [] := by
    rw [hk.contents, List.drop_left]
  rcases read_cases hs.read (n := bufSize) (by decide) hk.offset (by simp) hdrop with
    ⟨-, hread⟩ | ⟨bytes, rest, hbytes, -, hempty, -⟩
  swap
  · exact absurd (List.append_eq_nil_iff.mp hempty.symm).1 hbytes
  refine ⟨_, hread, ⟨⟨?_, hk.written.contents⟩, hk.contents, Kernel.didRead_fds_self ..⟩,
    .of_read (.of_zeros _ rfl (by simp))⟩
  rw [Kernel.didRead_fds_of_ne _ _ _ hne.symm]
  exact hk.written.offset

/-- Before the end of the input there is a round, and its bytes are consumed. -/
theorem Copying.chunk (hk : Copying k inputFd outputFd done rest) (hrest : rest ≠ []) :
    ∃ buf rest' k', rest = buf ++ rest' ∧ Chunk sched inputFd outputFd k buf k' ∧
      Copying k' inputFd outputFd (done ++ buf) rest' ∧ Logged k k' done.length buf := by
  have hdrop : (k.files inputFile).drop done.length = rest := by
    rw [hk.contents, List.drop_left]
  rcases read_cases hs.read (n := bufSize) (by decide) hk.offset (by simp) hdrop with
    ⟨hempty, -⟩ | ⟨bytes, rest', hbytes, -, rfl, hread⟩
  · exact absurd hempty hrest
  have hw : Written (k.didRead inputFd ⟨inputFile, .rdonly, done.length⟩ bytes) outputFd done := by
    refine ⟨?_, hk.written.contents⟩
    rw [Kernel.didRead_fds_of_ne _ _ _ hne.symm]
    exact hk.written.offset
  have hfuel : bytes.length < 0 + (bytes.length + 1) := by omega
  obtain ⟨⟨⟩, k', hchunk, hw', hu, hl⟩ := copyChunk_ensures hs (Nat.zero_le _) hfuel hw
  rw [List.drop_zero] at hw' hl
  refine ⟨bytes, rest', k', rfl, ⟨hbytes, _, hread, hchunk⟩, ⟨hw', ?_, ?_⟩, hl.of_read⟩
  · rw [hu.input, Kernel.didRead_files, hk.contents, List.append_assoc]
  · rw [hu.others inputFd hne, Kernel.didRead_fds_self, List.length_append]
    rfl

/-- The input is consumed chunk by chunk. -/
theorem copyLoop_ensures {left : Nat} : ∀ {k : Kernel} {done rest : List UInt8},
    rest.length < left → Copying k inputFd outputFd done rest →
    Ensures (copyLoop sched inputFd outputFd left) k fun _ k' =>
      Copying k' inputFd outputFd (done ++ rest) [] ∧ Logged k k' done.length rest := by
  induction left with
  | zero =>
    intro k done rest hleft
    omega
  | succ left ih =>
    intro k done rest hleft hk
    by_cases hrest : rest = []
    · subst hrest
      obtain ⟨k', hread, hk', hl⟩ := hk.eof hs hne
      rw [copyLoop]
      refine hread.step (.pure ⟨?_, hl⟩)
      rwa [List.append_nil]
    · obtain ⟨buf, rest', k', rfl, hchunk, hk', hl⟩ := hk.chunk hs hne hrest
      refine .of_apply (hchunk.copyLoop_apply left) ((ih ?_ hk').mono ?_)
      · have := List.length_pos_of_ne_nil hchunk.1
        rw [List.length_append] at hleft
        omega
      · rintro _ k'' ⟨hk'', hl'⟩
        rw [List.append_assoc] at hk''
        exact ⟨hk'', hl.trans hl' (List.length_append ..)⟩

end

/-- The state in which the loop starts. -/
def opened (input output : List UInt8) : Kernel :=
  (({ ({ start input output with opens := 4 }.bind 3 ⟨inputFile, .rdonly, 0⟩)
    with opens := 5 }.bind 4 ⟨outputFile, .wronly, 0⟩).store outputFile [])

theorem opened_copying (input output : List UInt8) :
    Copying (opened input output) 3 4 [] input :=
  ⟨⟨rfl, rfl⟩, rfl, rfl⟩

/-- What the program does after the loop. -/
def closeBoth (sched : Schedule) (inputFd outputFd : Int) : Process Kernel Unit := do
  if ← close inputFd then
    if ← close outputFd then exit 0 else errExit sched
  else errExit sched

/-- The program opens the files and runs the loop. -/
theorem cpHoles_apply (hs : sched.Smooth) (input output : List UInt8) :
    cpHoles sched (start input output) =
      (copyLoop sched 3 4 (input.length + 1) >>= fun _ => closeBoth sched 3 4)
        (opened input output) := by
  unfold cpHoles
  rw [(openFile_returns (hs.opens _)).bind_apply, if_neg (by omega)]
  refine (openFile_returns (hs.opens _)).bind_apply.trans ?_
  rw [if_neg (by omega)]
  exact (rounds_returns (opened_copying input output).offset).bind_apply

/-- The program succeeds.  The output is the input without the zero bytes at its end, and each
of its other bytes was written where it is in the input. -/
theorem cpHoles_ends (hs : sched.Smooth) (input output : List UInt8) :
    Ends (cpHoles sched) (start input output) fun status k =>
      status = 0 ∧ k.files outputFile = trimZeros input ∧
        Logged (opened input output) k 0 input := by
  have hloop := copyLoop_ensures hs (by decide) (Nat.lt_succ_self _) (opened_copying input output)
  have hends : Ends (copyLoop sched 3 4 (input.length + 1) >>= fun _ => closeBoth sched 3 4)
      (opened input output) fun status k => status = 0 ∧ k.files outputFile = trimZeros input ∧
        Logged (opened input output) k 0 input := by
    refine hloop.ends ?_
    rintro _ k ⟨hk, hl⟩
    have hout : (k.unbind 3).fds 4 = some ⟨outputFile, .wronly, input.length⟩ := by
      rw [Kernel.unbind_fds_of_ne _ (by decide)]
      exact hk.written.offset
    unfold closeBoth
    refine (close_returns hk.offset).ends ?_
    rw [if_pos rfl]
    refine (close_returns hout).ends ?_
    rw [if_pos rfl]
    exact (exit_exits 0 _).ends ⟨rfl, hk.written.contents, ⟨hl.stores, hl.writes⟩⟩
  exact hends.of_apply (cpHoles_apply hs input output)

end

/-! ## Faithful copies -/

/-- The program succeeds, and the output has the bytes of the input. -/
def CopiesFaithfully (sched : Schedule) (input output : List UInt8) : Prop :=
  Ends (cpHoles sched) (start input output) fun status k =>
    status = 0 ∧ k.files outputFile = input

/-- The copy is faithful exactly if the input does not end with a zero byte. -/
theorem copiesFaithfully_iff {sched : Schedule} (hs : sched.Smooth) (input output : List UInt8) :
    CopiesFaithfully sched input output ↔ input.getLast? ≠ some 0 := by
  rw [← trimZeros_eq_self]
  obtain ⟨status, k, hexit, rfl, hout, -⟩ := cpHoles_ends hs input output
  constructor
  · rintro ⟨status', k', hexit', -, hout'⟩
    obtain ⟨-, rfl⟩ := hexit.unique hexit'
    exact hout.symm.trans hout'
  · exact fun htrim => ⟨0, k, hexit, rfl, hout.trans htrim⟩

/-- Zero bytes before others are copied as holes, also over an older file. -/
theorem copiesFaithfully_holes : CopiesFaithfully .eager [1, 0, 0, 2, 0, 3] [9, 9] :=
  (copiesFaithfully_iff Schedule.eager_smooth [1, 0, 0, 2, 0, 3] [9, 9]).mpr (by decide)

/-- The copy of a zero byte is empty. -/
theorem not_copiesFaithfully_zero :
    Schedule.eager.Smooth ∧ ¬ CopiesFaithfully .eager [0] [] := by
  refine ⟨Schedule.eager_smooth, ?_⟩
  rintro ⟨status, k, hexit, -, hout⟩
  have hrun : atExit (·.files outputFile) (cpHoles .eager) (start [0] []) = some (0, []) := by
    decide
  obtain ⟨k', hexit', hout'⟩ := Exits.of_atExit hrun
  obtain ⟨-, rfl⟩ := hexit'.unique hexit
  rw [hout] at hout'
  cases hout'

end CToys.Cp
