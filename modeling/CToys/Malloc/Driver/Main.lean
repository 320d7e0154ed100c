import CToys.Malloc.Driver.Measure
import CToys.Malloc.Driver.ReadTrace

/-!
# The whole driver

`mdriver` reads the trace files one after the other.  It validates each trace, and measures it
if it passes.  All traces use the same memory, the same range list and the same count of errors.

On files with legal traces, and with memory for their ranges, the driver comes to its last line.
What it notes of a trace is what a replay of this trace alone says (`Stats.of`), so neither the
other files nor their order matter.  A trace that does not pass is reported once, so the errors
that the last line counts are the traces that did not pass (`mdriver_summary`).  A file that is
rejected ends the driver, with the reports of the files in front of it.
-/

namespace CToys.Malloc.Driver

open Scan

variable {A : Arena} {ρ : Type}

/-! ## The program -/

/-- What the C library gives to the driver. -/
structure Host where
  /-- The memory for `main`, and for the storage of the allocator. -/
  supply : Supply
  /-- The memory for `read_trace` on trace number `i`. -/
  traces : (i : Nat) → Supply
  /-- The memory for the ranges while trace number `i` is checked. -/
  ranges : (i : Nat) → Supply
  /-- The contents of the files. -/
  fopen : List UInt8 → Option (List UInt8)
  /-- What the memory for trace number `i` holds before it is written. -/
  stale : (i : Nat) → Stale
  /-- The same for `trace->blocks`. -/
  blocks : (i : Nat) → Nat → Nat
  /-- The same for `trace->block_sizes`. -/
  blockSizes : (i : Nat) → Nat → Nat

/-- `stats_t`, without the time.  `util` is the quotient of two numbers, or the zero from
`calloc`. -/
structure Stats where
  ops : Nat
  valid : Bool
  util : Option (Int × Nat)
deriving DecidableEq, Repr

/-- What `main` prints at its end. -/
structure Summary where
  /-- The table. -/
  stats : List Stats
  numcorrect : Nat
  /-- The number in `Terminated with %d errors`, if this is the last line. -/
  terminated : Option Nat
deriving DecidableEq, Repr

/-- `mem_init`, where the arena is what `malloc` returns. -/
def memInit (host : Host) : Eval A ρ Unit :=
  if host.supply 1 maxHeap then call memResetBrk else exit 1

/-- `read_trace`, with its new arrays `blocks` and `block_sizes`. -/
def loadTrace (host : Host) (tracedir filename : List UInt8) (i : Nat) : Eval A ρ Trace :=
  fun d =>
    match readTrace (host.traces i) (host.stale i) host.fopen tracedir filename [] with
    | .ok (tr, _) => .ok (tr, { d with blocks := host.blocks i, blockSizes := host.blockSizes i })
    | .error (.exit status _) => .error (.exit status d)
    | .error .bounds => .error .bounds
    | .error .diverges => .error .diverges

/-- The loop of `ftimer_gettod`. -/
def ftimerGettod (f : Eval A ρ Unit) : (n : Nat) → Eval A ρ Unit
  | 0 => return ()
  | n + 1 => do
      f
      ftimerGettod f n

/-- `fsecs`, without the time that it returns. -/
def fsecs (f : Eval A ρ Unit) : Eval A ρ Unit := ftimerGettod f 10

/-- The body of the loop of `main`. -/
def evalTrace (P : Package A ρ) (host : Host) (tracedir filename : List UInt8) (i : Nat) :
    Eval A ρ Stats := do
  let tr ← loadTrace host tracedir filename i
  if ← evalMmValid P (host.ranges i) tr i then
    let util ← evalMmUtil P tr
    fsecs (evalMmSpeed P tr)
    return ⟨tr.ops.length, true, some util⟩
  else return ⟨tr.ops.length, false, none⟩

/-- The loop of `main` over the files from number `i` on. -/
def evalTraces (P : Package A ρ) (host : Host) (tracedir : List UInt8) :
    (i : Nat) → List (List UInt8) → Eval A ρ (List Stats)
  | _, [] => return []
  | i, filename :: files => do
      let stats ← evalTrace P host tracedir filename i
      return stats :: (← evalTraces P host tracedir (i + 1) files)

/-- `main`, from the place where it allocates `mm_stats`. -/
def mdriver (P : Package A ρ) (host : Host) (tracedir : List UInt8)
    (tracefiles : List (List UInt8)) : Eval A ρ Summary := do
  reserve host.supply 0 (28 * tracefiles.length)
  memInit host
  let stats ← evalTraces P host tracedir 0 tracefiles
  let errors := (← get).errors.length
  return ⟨stats, stats.countP (·.valid), if errors = 0 then none else some errors⟩

/-! ## What is expected -/

section

variable {P : Package A ρ} (I : Interface P)

/-- What the driver notes of a trace, by a replay of it. -/
def Stats.of (tr : Trace) : Stats :=
  let util := if LowReallocs tr.ops then
      ((Play.initial I).replay tr.ops).map fun s => ((tr.peak : Int), s.brk)
    else none
  ⟨tr.ops.length, util.isSome, util⟩

/-- The summary of some traces. -/
def Summary.of (trs : List Trace) : Summary :=
  let numcorrect := trs.countP fun tr => (Stats.of I tr).valid
  ⟨trs.map (Stats.of I), numcorrect,
    if numcorrect = trs.length then none else some (trs.length - numcorrect)⟩

/-- The errors of the traces from number `i` on. -/
def allReports : (i : Nat) → List Trace → List Report
  | _, [] => []
  | i, tr :: trs => reports I i tr.ops ++ allReports (i + 1) trs

end

/-- The files from number `i` on hold these traces. -/
inductive Loads (host : Host) (tracedir : List UInt8) :
    (i : Nat) → List (List UInt8) → List Trace → Prop where
  | nil {i : Nat} : Loads host tracedir i [] []
  | cons {i : Nat} {filename : List UInt8} {files : List (List UInt8)} {tr : Trace}
      {trs : List Trace} {s : List UInt8} :
      Returns (readTrace (host.traces i) (host.stale i) host.fopen tracedir filename) [] tr s →
      Loads host tracedir (i + 1) files trs →
      Loads host tracedir i (filename :: files) (tr :: trs)

section

variable {P : Package A ρ} {I : Interface P} {tr : Trace} {trs : List Trace} {i tracenum : Nat}

/-- A trace that passes. -/
theorem Stats.of_ok {s : Play I}
    (h : (Play.initial I).checks tracenum 0 tr.ops = .ok s) :
    Stats.of I tr = ⟨tr.ops.length, true, some (tr.peak, s.brk)⟩ := by
  obtain ⟨hreplay, hlow⟩ := Play.checks_eq_ok_iff.mp h
  rw [Stats.of, if_pos hlow, hreplay]
  rfl

/-- A trace that does not. -/
theorem Stats.of_error {r : Report}
    (h : (Play.initial I).checks tracenum 0 tr.ops = .error r) :
    Stats.of I tr = ⟨tr.ops.length, false, none⟩ := by
  unfold Stats.of
  by_cases hlow : LowReallocs tr.ops
  · cases hreplay : (Play.initial I).replay tr.ops with
    | none =>
      rw [if_pos hlow]
      rfl
    | some s =>
      rw [Play.checks_eq_ok_iff.mpr ⟨hreplay, hlow⟩] at h
      cases h
  · rw [if_neg hlow]
    rfl

/-- A trace has one report, or none if it passes. -/
theorem reports_length :
    (reports I tracenum tr.ops).length = if (Stats.of I tr).valid then 0 else 1 := by
  unfold reports
  cases hchecks : (Play.initial I).checks tracenum 0 tr.ops with
  | ok s =>
    rw [Stats.of_ok hchecks]
    rfl
  | error r =>
    rw [Stats.of_error hchecks]
    rfl

/-- So the reports are as many as the traces that do not pass. -/
theorem allReports_length (i : Nat) (trs : List Trace) :
    (allReports I i trs).length + trs.countP (fun tr => (Stats.of I tr).valid) = trs.length := by
  induction trs generalizing i with
  | nil => rfl
  | cons tr trs ih =>
    rw [allReports, List.length_append, reports_length, List.countP_cons, List.length_cons,
      ← ih (i + 1)]
    split <;> omega

end

/-! ## The measurements print no errors -/

section

variable {P : Package A ρ} {tr : Trace}

theorem call_quiet {α : Type} (x : Prog A ρ α) : Keeps State.errors (call x) := by
  intro d a d' hret
  obtain ⟨σ', -, rfl⟩ := call_returns_iff.mp hret
  rfl

theorem getBlock_quiet (index : Nat) :
    Keeps State.errors (getBlock tr index : Eval A ρ Nat) := by
  intro d p d' hret
  rw [(getBlock_returns_iff.mp hret).2.2]

theorem getBlockSize_quiet (index : Nat) :
    Keeps State.errors (getBlockSize tr index : Eval A ρ Nat) := by
  intro d n d' hret
  rw [(getBlockSize_returns_iff.mp hret).2.2]

theorem setBlock_quiet (index p : Nat) :
    Keeps State.errors (setBlock tr index p : Eval A ρ Unit) := by
  intro d u d' hret
  rw [(setBlock_returns_iff.mp hret).2]

theorem setBlockSize_quiet (index size : Nat) :
    Keeps State.errors (setBlockSize tr index size : Eval A ρ Unit) := by
  intro d u d' hret
  rw [(setBlockSize_returns_iff.mp hret).2]

/-- A pointer that is remembered, unless it is `NULL`. -/
theorem unlessNull_quiet {α : Type} {p : Nat} {x : Eval A ρ α} (hx : Keeps State.errors x) :
    Keeps State.errors (if p = 0 then appError else x) := by
  split
  · exact exit_keeps 1
  · exact hx

theorem utilOp_quiet (op : TraceOp) (total maxTotal : Int) :
    Keeps State.errors (utilOp P tr op total maxTotal) := by
  have hset : ∀ (index p size : Nat) (r : Int × Int), Keeps State.errors (do
      setBlock tr index p
      setBlockSize tr index size
      return r : Eval A ρ (Int × Int)) := fun index p size r =>
    (setBlock_quiet index p).bind fun _ => (setBlockSize_quiet index size).bind fun _ => .pure r
  unfold utilOp
  cases op.kind with
  | alloc => exact (call_quiet _).bind fun p => unlessNull_quiet (hset _ p _ _)
  | realloc =>
    refine (getBlockSize_quiet _).bind fun _ => (getBlock_quiet _).bind fun _ => ?_
    exact (call_quiet _).bind fun p => unlessNull_quiet (hset _ p _ _)
  | free =>
    refine (getBlockSize_quiet _).bind fun _ => (getBlock_quiet _).bind fun _ => ?_
    exact (call_quiet _).bind fun _ => .pure _

theorem utilOps_quiet (ops : List TraceOp) : ∀ total maxTotal : Int,
    Keeps State.errors (utilOps P tr ops total maxTotal) := by
  induction ops with
  | nil =>
    intro total maxTotal
    exact .pure maxTotal
  | cons op ops ih =>
    intro total maxTotal
    exact (utilOp_quiet op total maxTotal).bind fun r => ih r.1 r.2

theorem evalMmUtil_quiet : Keeps State.errors (evalMmUtil P tr) := by
  refine (call_quiet _).bind fun _ => (call_quiet _).bind fun r => ?_
  split
  · exact exit_keeps 1
  · refine (utilOps_quiet tr.ops 0 0).bind fun maxTotal => ?_
    exact Keeps.bind (fun d n d' hret => by cases hret; rfl) fun n => .pure (maxTotal, n)

theorem speedOp_quiet (op : TraceOp) : Keeps State.errors (speedOp P tr op) := by
  unfold speedOp
  cases op.kind with
  | alloc => exact (call_quiet _).bind fun p => unlessNull_quiet (setBlock_quiet _ p)
  | realloc =>
    refine (getBlock_quiet _).bind fun _ => (call_quiet _).bind fun p => ?_
    exact unlessNull_quiet (setBlock_quiet _ p)
  | free => exact (getBlock_quiet _).bind fun p => call_quiet _

theorem speedOps_quiet (ops : List TraceOp) : Keeps State.errors (speedOps P tr ops) := by
  induction ops with
  | nil => exact .pure ()
  | cons op ops ih => exact (speedOp_quiet op).bind fun _ => ih

theorem evalMmSpeed_quiet : Keeps State.errors (evalMmSpeed P tr) := by
  refine (call_quiet _).bind fun _ => (call_quiet _).bind fun r => ?_
  split
  · exact exit_keeps 1
  · exact speedOps_quiet tr.ops

end

/-! ## One trace -/

section

variable {P : Package A ρ} {I : Interface P} {d : State A ρ} {host : Host}
  {tracedir filename : List UInt8} {tr : Trace} {i : Nat} {s : List UInt8}

theorem loadTrace_returns
    (h : Returns (readTrace (host.traces i) (host.stale i) host.fopen tracedir filename) [] tr s) :
    Returns (loadTrace host tracedir filename i) d tr
      { d with blocks := host.blocks i, blockSizes := host.blockSizes i } := by
  unfold Returns at h
  unfold Returns loadTrace
  rw [h]

theorem loadTrace_exits {status : Nat}
    (h : Exits (readTrace (host.traces i) (host.stale i) host.fopen tracedir filename) [] status
      s) :
    Exits (loadTrace host tracedir filename i) d status d := by
  unfold Exits Fails at h
  unfold Exits Fails loadTrace
  rw [h]

/-- Several runs of a function that returns from every state. -/
theorem ftimerGettod_ensures {β : Type} {see : State A ρ → β} {f : Eval A ρ Unit}
    (hf : ∀ d, Ensures f d fun _ d' => see d' = see d) (n : Nat) :
    ∀ d, Ensures (ftimerGettod f n) d fun _ d' => see d' = see d := by
  induction n with
  | zero =>
    intro d
    exact .pure rfl
  | succ n ih =>
    intro d
    refine (hf d).bind fun _ d₁ h₁ => ?_
    exact (ih d₁).mono fun _ d₂ h₂ => h₂.trans h₁

/-- A trace that passes is measured without an error, since a replay of it does not fail. -/
theorem evalTrace_ensures (hP : P.Grows) (htr : tr.Legal)
    (hsane : (Play.initial I).Unbroken tr.ops)
    (hranges : ∀ k, host.ranges i k rangeSize = true)
    (hload : Returns (readTrace (host.traces i) (host.stale i) host.fopen tracedir filename) [] tr
      s) :
    Ensures (evalTrace P host tracedir filename i) d fun stats d' =>
      stats = Stats.of I tr ∧ d'.errors = d.errors ++ reports I i tr.ops := by
  have hvalid := (evalMmValid_checks
    (d := { d with blocks := host.blocks i, blockSizes := host.blockSizes i }) hP htr hsane
    i).ensures fun _ _ => not_starved hranges
  refine (loadTrace_returns hload).step (hvalid.bind fun ok d₁ hconcl => ?_)
  have herrors := hconcl.verdict.2
  cases hchecks : (Play.initial I).checks i 0 tr.ops with
  | error r =>
    rw [hchecks] at hconcl
    obtain ⟨rfl, -⟩ := hconcl
    exact .pure ⟨(Stats.of_error hchecks).symm, herrors⟩
  | ok s' =>
    rw [hchecks] at hconcl
    obtain ⟨rfl, -⟩ := hconcl
    obtain ⟨hreplay, -⟩ := Play.checks_eq_ok_iff.mp hchecks
    have hspeed : ∀ d, Ensures (evalMmSpeed P tr) d fun _ d' => d'.errors = d.errors :=
      fun d => ((evalMmSpeed_ensures htr hsane hreplay).keeps evalMmSpeed_quiet).mono
        fun _ _ h => h.2
    refine ((evalMmUtil_ensures (d := d₁) htr hsane hreplay).keeps evalMmUtil_quiet).bind ?_
    rintro r d₂ ⟨⟨rfl, -⟩, h₂⟩
    refine (ftimerGettod_ensures hspeed 10 d₂).bind fun _ d₃ h₃ => ?_
    exact .pure ⟨(Stats.of_ok hchecks).symm, (h₃.trans h₂).trans herrors⟩

end

/-! ## All traces -/

section

variable {P : Package A ρ} {I : Interface P} {d : State A ρ} {host : Host}
  {tracedir filename : List UInt8} {files : List (List UInt8)} {trs : List Trace}
  {status : Nat} {s : List UInt8}

theorem evalTraces_ensures (hP : P.Grows) (htrs : ∀ tr ∈ trs, tr.Legal)
    (hsane : ∀ tr ∈ trs, (Play.initial I).Unbroken tr.ops)
    (hranges : ∀ i k, host.ranges i k rangeSize = true) {i : Nat}
    (hload : Loads host tracedir i files trs) :
    Ensures (evalTraces P host tracedir i files) d fun stats d' =>
      stats = trs.map (Stats.of I) ∧ d'.errors = d.errors ++ allReports I i trs := by
  induction hload generalizing d with
  | nil => exact .pure ⟨rfl, (List.append_nil _).symm⟩
  | cons hread hload ih =>
    obtain ⟨htr, htrs⟩ := List.forall_mem_cons.mp htrs
    obtain ⟨hok, hsane⟩ := List.forall_mem_cons.mp hsane
    refine (evalTrace_ensures hP htr hok (hranges _) hread).bind ?_
    rintro stats d₁ ⟨rfl, h₁⟩
    refine (ih htrs hsane).bind ?_
    rintro rest d₂ ⟨rfl, h₂⟩
    refine .pure ⟨rfl, ?_⟩
    rw [h₂, h₁, allReports, List.append_assoc]

/-- A file that is rejected ends the driver. -/
theorem evalTraces_exits (hP : P.Grows) (htrs : ∀ tr ∈ trs, tr.Legal)
    (hsane : ∀ tr ∈ trs, (Play.initial I).Unbroken tr.ops)
    (hranges : ∀ i k, host.ranges i k rangeSize = true) {i j : Nat}
    (hload : Loads host tracedir i files trs)
    (hj : j = i + trs.length)
    (hread : Exits (readTrace (host.traces j) (host.stale j) host.fopen tracedir filename) [] status
      s)
    (rest : List (List UInt8)) :
    ∃ d', Exits (evalTraces P host tracedir i (files ++ filename :: rest)) d status d' ∧
      d'.errors = d.errors ++ allReports I i trs := by
  induction hload generalizing d with
  | nil =>
    subst hj
    exact ⟨d, Fails.bind (Fails.bind (loadTrace_exits hread)), (List.append_nil _).symm⟩
  | cons hfirst hload ih =>
    obtain ⟨htr, htrs⟩ := List.forall_mem_cons.mp htrs
    obtain ⟨hok, hsane⟩ := List.forall_mem_cons.mp hsane
    obtain ⟨stats, d₁, hret, -, h₁⟩ := evalTrace_ensures (d := d) hP htr hok (hranges _) hfirst
    rw [List.length_cons] at hj
    obtain ⟨d', hexits, h'⟩ := ih (d := d₁) htrs hsane (by omega)
    refine ⟨d', hret.bind_fails (Fails.bind hexits), ?_⟩
    rw [h', h₁, allReports, List.append_assoc]

/-- What the driver does with some files that hold the traces `trs`, and with these files and a
file behind them that is rejected. -/
def Grades (I : Interface P) (host : Host) (tracedir : List UInt8) (files : List (List UInt8))
    (trs : List Trace) (d : State A ρ) : Prop :=
  (host.supply 0 (28 * files.length) = true → ∃ d',
    Returns (mdriver P host tracedir files) d (Summary.of I trs) d' ∧
      d'.errors = allReports I 0 trs) ∧
  ∀ filename rest status s, host.supply 0 (28 * (files ++ filename :: rest).length) = true →
    Exits (readTrace (host.traces trs.length) (host.stale trs.length) host.fopen tracedir filename)
      [] status s →
    ∃ d', Exits (mdriver P host tracedir (files ++ filename :: rest)) d status d' ∧
      d'.errors = allReports I 0 trs

theorem grades_of_loads (hP : P.Grows) (htrs : ∀ tr ∈ trs, tr.Legal)
    (hsane : ∀ tr ∈ trs, (Play.initial I).Unbroken tr.ops) (hinit : host.supply 1 maxHeap = true)
    (hranges : ∀ i k, host.ranges i k rangeSize = true)
    (hload : Loads host tracedir 0 files trs) (hd : d.errors = []) :
    Grades I host tracedir files trs d := by
  have hmem : Returns (memInit host) d () { d with machine := d.machine.withBrk A.start } := by
    unfold memInit
    rw [if_pos hinit]
    exact call_returns (a := ()) rfl
  refine ⟨fun hcalloc => ?_, fun filename rest status s hcalloc hread => ?_⟩
  · obtain ⟨stats, d', hret, rfl, herrors⟩ := evalTraces_ensures
      (d := { d with machine := d.machine.withBrk A.start }) hP htrs hsane hranges hload
    simp only [hd, List.nil_append] at herrors
    have hcount := allReports_length (I := I) 0 trs
    rw [← herrors] at hcount
    have hget : Returns (get : Eval A ρ (State A ρ)) d' d' d' := rfl
    refine ⟨d', ?_, herrors⟩
    unfold mdriver
    refine (reserve_returns hcalloc d).bind (hmem.bind (hret.bind (hget.map_pure ?_)))
    rw [Summary.of, List.countP_map]
    congr 1
    simp only [← hcount]
    split <;> split
    · rfl
    · omega
    · omega
    · rw [Nat.add_sub_cancel_right]
  · obtain ⟨d', hexits, herrors⟩ := evalTraces_exits
      (d := { d with machine := d.machine.withBrk A.start }) hP htrs hsane hranges hload
      (Nat.zero_add _).symm hread rest
    simp only [hd, List.nil_append] at herrors
    refine ⟨d', ?_, herrors⟩
    unfold mdriver
    exact (reserve_returns hcalloc d).bind_fails (hmem.bind_fails (Fails.bind hexits))

end

/-! ## The two allocators -/

/-- On files with legal traces, and with memory for their ranges, the driver reaches its last
line.  It notes of each trace what a
replay of this trace says, and the errors that it counts are the traces that did not pass.  A
file behind them that is rejected ends the driver after the same reports. -/
theorem mdriver_summary {host : Host} {tracedir : List UInt8} {files : List (List UInt8)}
    {trs : List Trace} (hinit : host.supply 1 maxHeap = true)
    (hranges : ∀ i k, host.ranges i k rangeSize = true)
    (hload : Loads host tracedir 0 files trs) (htrs : ∀ tr ∈ trs, tr.Legal) :
    (∀ d : State A Implicit.Statics, d.errors = [] →
      Grades (implicitInterface A) host tracedir files trs d) ∧
    ((∀ tr ∈ trs, (Play.initial (segregatedInterface A)).Unbroken tr.ops) →
      ∀ d : State A Segregated.Statics, d.errors = [] →
        Grades (segregatedInterface A) host tracedir files trs d) :=
  ⟨fun _ hd => grades_of_loads implicit_grows htrs (fun _ _ => implicit_unbroken) hinit hranges
    hload hd,
    fun hsane _ hd => grades_of_loads segregated_grows htrs hsane hinit hranges hload hd⟩

/-- A host with a trace that passes and one that does not. -/
def twoFiles : Host where
  supply := plenty
  traces _ := plenty
  ranges _ := plenty
  fopen path := some (render (if path = [97] then short else highMove))
  stale _ := ⟨0, 0, 0, 0, 0, fun _ => 7⟩
  blocks _ _ := 0
  blockSizes _ _ := 0

theorem highMove_writable : highMove.Writable where
  suggHeapsize := by decide
  weight := by decide
  numIds := by decide
  ids := by decide
  room := by decide
  ops := by
    simp only [highMove, List.forall_mem_cons]
    exact ⟨⟨by decide, by decide⟩, ⟨by decide, by decide⟩, nofun⟩

theorem twoFiles_loads : Loads twoFiles [] 0 [[97], [98]]
    [short.stored (twoFiles.stale 0), highMove.stored (twoFiles.stale 1)] :=
  .cons (readTrace_returns short_writable (plenty_grants short) _ (by decide) rfl [])
    (.cons (readTrace_returns highMove_writable (plenty_grants highMove) _ (by decide) rfl []) .nil)

/-- The second trace is the one with the error. -/
theorem twoFiles_summary : ∃ d', Returns (mdriver (implicitPackage .low) twoFiles [] [[97], [98]])
    (blank ⟨0, 0⟩) ⟨[⟨3, true, some (4072, 8208)⟩, ⟨2, false, none⟩], 1, some 1⟩ d' ∧
      d'.errors = [⟨1, 6, .notPreserved⟩] := by
  have hlegal : ∀ tr ∈ [short.stored (twoFiles.stale 0), highMove.stored (twoFiles.stale 1)],
      tr.Legal := by decide +kernel
  have hsummary : Summary.of (implicitInterface .low)
      [short.stored (twoFiles.stale 0), highMove.stored (twoFiles.stale 1)]
      = ⟨[⟨3, true, some (4072, 8208)⟩, ⟨2, false, none⟩], 1, some 1⟩ := by decide +kernel
  have hreports : allReports (implicitInterface .low) 0
      [short.stored (twoFiles.stale 0), highMove.stored (twoFiles.stale 1)]
      = [⟨1, 6, .notPreserved⟩] := by decide +kernel
  have hgrades := (mdriver_summary rfl (fun _ _ => rfl) twoFiles_loads hlegal).1 (blank ⟨0, 0⟩) rfl
  rw [← hsummary, ← hreports]
  exact hgrades.1 rfl

end CToys.Malloc.Driver
