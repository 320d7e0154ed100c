import CToys.Malloc.Driver.Verdict

/-!
# Measuring

`eval_mm_util` and `eval_mm_speed` make the calls of a trace without checking them.  On a legal
trace they follow the replay on heaps as `eval_mm_valid` does, and end the driver with status 1
when the replay fails.

So a trace that was validated is measured without an error, and each of the three evaluations
hands out the same pointers, whatever the memory held before.  What `eval_mm_util` returns is
the peak of the payload bytes over the size of the heap.  Neither the sums nor the differences
that lead to it overflow, and the quotient is below 1.
-/

namespace CToys.Malloc.Driver

variable {A : Arena} {ρ : Type} {P : Package A ρ} {I : Interface P} {d d' : State A ρ}
  {s s' : Play I} {live : Live} {tr : Trace} {op : TraceOp} {ops : List TraceOp}

/-! ## Calls -/

namespace Holding

variable {index : Nat} {size : Int}

/-- A block is allocated, and its pointer is remembered. -/
theorem alloc (h : Holding tr d s live)
    (hop : TraceOp.Legal tr.numIds live ⟨.alloc, index, size⟩) :
    (s.apply ⟨.alloc, index, size⟩ = none →
      Returns (P.mmMalloc (sizeT size)) d.machine 0 d.machine) ∧
    ∀ s', s.apply ⟨.alloc, index, size⟩ = some s' → ∃ p σ₁,
      Returns (P.mmMalloc (sizeT size)) d.machine p σ₁ ∧ p ≠ 0 ∧ ∀ sizes,
        Holding tr ⟨σ₁, d.ranges, Function.update d.blocks index p, sizes, d.errors⟩ s'
          (live.next ⟨.alloc, index, size⟩) := by
  have hA := A.pos
  have hsized : 0 < size ∧ size ≤ intMax := hop.2.2
  obtain ⟨hsizeT, hpos⟩ := sizeT_of_sized hsized
  rw [hsizeT]
  rcases h.malloc hpos (Int.toNat_le.mpr hsized.2) with ⟨hm, hret⟩ | ⟨b, h', σ₁, hm, hret, hb⟩
  · refine ⟨fun _ => hret, fun s' happly => ?_⟩
    simp [Play.apply, hm] at happly
  · have happly : s.apply ⟨.alloc, index, size⟩ = some (s.put index b h') := by
      simp [Play.apply, hm]
    refine ⟨fun hnone => ?_, fun s' hsome => ?_⟩
    · rw [happly] at hnone
      cases hnone
    · rw [happly] at hsome
      cases hsome
      exact ⟨_, σ₁, hret, by omega, fun sizes => ⟨h.give hop.1 hpos hb,
        (hop.bounded h.bounded).2⟩⟩

/-- A block is freed. -/
theorem free (h : Holding tr d s live)
    (hop : TraceOp.Legal tr.numIds live ⟨.free, index, size⟩) :
    ∃ σ₁, Returns (P.mmFree (d.blocks index)) d.machine () σ₁ ∧
      Holding tr { d with machine := σ₁ } (s.release (s.place index))
        (live.next ⟨.free, index, size⟩) := by
  obtain ⟨σ₁, hret, htracked, -⟩ := h.toTracked.free hop
  exact ⟨σ₁, hret, htracked, (hop.bounded h.bounded).2⟩

/-- A block is resized. -/
theorem realloc (h : Holding tr d s live)
    (hop : TraceOp.Legal tr.numIds live ⟨.realloc, index, size⟩)
    (hsane : s.Sane ⟨.realloc, index, size⟩) :
    (s.apply ⟨.realloc, index, size⟩ = none →
      Returns (P.mmRealloc (d.blocks index) (sizeT size)) d.machine 0 d.machine) ∧
    ∀ s', s.apply ⟨.realloc, index, size⟩ = some s' → ∃ p σ₁,
      Returns (P.mmRealloc (d.blocks index) (sizeT size)) d.machine p σ₁ ∧ p ≠ 0 ∧ ∀ sizes,
        Holding tr ⟨σ₁, d.ranges, Function.update d.blocks index p, sizes, d.errors⟩ s'
          (live.next ⟨.realloc, index, size⟩) := by
  have hA := A.pos
  rcases h.realloc_cases hop hsane with ⟨hm, hret⟩ | ⟨b, h', σ₁, hnew⟩
  · refine ⟨fun _ => hret, fun s' happly => ?_⟩
    simp [Play.apply, hm] at happly
  · have happly : s.apply ⟨.realloc, index, size⟩ = some (s.put index b h') := by
      simp [Play.apply, hnew.realloc]
    refine ⟨fun hnone => ?_, fun s' hsome => ?_⟩
    · rw [happly] at hnone
      cases hnone
    · rw [happly] at hsome
      cases hsome
      have hgiven := h.toTracked.erase.give (show index ∉ live.erase index by simp)
        (sizeT_of_sized hop.2).2 hnew.handed
      rw [Live.insert_erase] at hgiven
      exact ⟨_, σ₁, hnew.returns, by omega, fun sizes => ⟨hgiven, (hop.bounded h.bounded).2⟩⟩

/-- The live payloads are far from the largest `int`. -/
theorem total_le (h : Holding tr d s live) : live.total + 16 ≤ maxHeap := by
  have htotal := h.placed.total_le
  have hbrk : s.brk ≤ maxHeap := (I.layout s.heap).shape.le
  omega

end Holding

/-! ## Sizes -/

/-- `eval_mm_util` also knows the sizes. -/
structure Measuring (tr : Trace) (d : State A ρ) (s : Play I) (live : Live) : Prop extends
    Holding tr d s live where
  sizes : ∀ e ∈ live.entries, d.blockSizes e.1 = e.2

/-- The size of a new block is remembered. -/
theorem sizes_insert {live : Live} {index n : Nat} {sizes : Nat → Nat} (hi : index ∉ live)
    (h : ∀ e ∈ live.entries, sizes e.1 = e.2) :
    ∀ e ∈ (live.insert index n).entries, Function.update sizes index n e.1 = e.2 := by
  rw [AList.entries_insert_of_notMem hi]
  refine List.forall_mem_cons.mpr ⟨Function.update_self _ _ _, fun e he => ?_⟩
  have hne : e.1 ≠ index := fun hei => hi (hei ▸ Live.mem_of_lookup (Live.mem_entries.mp he))
  rw [Function.update_of_ne hne]
  exact h e he

theorem total_le_peak (live : Live) (ops : List TraceOp) : live.total ≤ peak live ops := by
  cases ops with
  | nil => exact Nat.le_refl _
  | cons op ops => exact Nat.le_max_left _ _

theorem int32_of_range {x : Int} (h : -2 ^ 31 ≤ x ∧ x < 2 ^ 31) : int32 x = x := by
  unfold int32
  rw [Int.bmod_def]
  omega

/-- The next maximum. -/
theorem max_ite {a b : Nat} : (if (a : Int) > b then (a : Int) else b) = (max b a : Nat) := by
  split <;> omega

/-- The numbers after a request, and the state. -/
def Measures (tr : Trace) (s : Play I) (live : Live) (m : Nat) (r : Int × Int)
    (d : State A ρ) : Prop :=
  r = ((live.total : Int), ((max m live.total : Nat) : Int)) ∧ Measuring tr d s live

theorem utilOp_alloc (h : Measuring tr d s live) {index : Nat} {size : Int}
    (hop : TraceOp.Legal tr.numIds live ⟨.alloc, index, size⟩) {m : Nat}
    (happly : s.apply ⟨.alloc, index, size⟩ = some s') :
    Ensures (utilOp P tr ⟨.alloc, index, size⟩ live.total m) d
      (Measures tr s' (live.next ⟨.alloc, index, size⟩) m) := by
  have hmax := maxHeap_eq
  have hi : index ∉ live := hop.1
  have hsized : 0 < size ∧ size ≤ intMax := hop.2.2
  have hcap : index < capacity tr.numIds 4 := hop.2.1
  have hsizeT := (sizeT_of_sized hsized).1
  obtain ⟨p, σ₁, hret, hp, hholding⟩ := (h.toHolding.alloc hop).2 s' happly
  have hnext := hholding (Function.update d.blockSizes index (sizeT size))
  have hbound : Live.total (live.insert index size.toNat) + 16 ≤ maxHeap := hnext.total_le
  have hint : int32 (live.total + size) = (Live.total (live.insert index size.toNat) : Nat) := by
    rw [Live.total_insert_of_notMem hi] at hbound ⊢
    rw [int32_of_range (by omega)]
    omega
  refine Returns.step (call_returns hret) ?_
  rw [if_neg hp]
  refine Returns.step ((setBlock_returns_iff (u := ())).mpr ⟨hcap, rfl⟩) ?_
  refine Returns.step ((setBlockSize_returns_iff (u := ())).mpr ⟨hcap, rfl⟩) ?_
  refine .pure ⟨?_, hnext, ?_⟩
  · simp only [hint, max_ite]
    rfl
  · simp only [hsizeT]
    exact sizes_insert hi h.sizes

theorem utilOp_free (h : Measuring tr d s live) {index : Nat} {size : Int}
    (hop : TraceOp.Legal tr.numIds live ⟨.free, index, size⟩) {m : Nat} (hm : live.total ≤ m)
    (happly : s.apply ⟨.free, index, size⟩ = some s') :
    Ensures (utilOp P tr ⟨.free, index, size⟩ live.total m) d
      (Measures tr s' (live.next ⟨.free, index, size⟩) m) := by
  have hmax := maxHeap_eq
  have hi : index ∈ live := hop
  have hcap := h.bounded _ hi
  obtain ⟨n, hn⟩ := Placed.entry hi
  have hsize : d.blockSizes index = n := h.sizes _ hn
  have hbound := h.toHolding.total_le
  have htotal : live.total = n + Live.total (live.erase index) :=
    Live.total_of_lookup (Live.mem_entries.mp hn)
  have hint : int32 (live.total - toInt32 n) = (Live.total (live.erase index) : Nat) := by
    rw [toInt32, if_pos (by omega), int32_of_range (by omega)]
    omega
  have hmaximum : max m (Live.total (live.erase index)) = m := by omega
  obtain ⟨σ₁, hret, hnext⟩ := h.toHolding.free hop
  cases happly
  refine Returns.step (getBlockSize_returns_iff.mpr ⟨hcap, rfl, rfl⟩) ?_
  refine Returns.step (getBlock_returns_iff.mpr ⟨hcap, rfl, rfl⟩) ?_
  refine Returns.step (call_returns hret) ?_
  refine .pure ⟨?_, hnext, fun e he => h.sizes e (Placed.mem_erase he).1⟩
  change (int32 (live.total - toInt32 (d.blockSizes index)), (m : Int))
    = ((Live.total (live.erase index) : Int), ((max m (Live.total (live.erase index)) : Nat) : Int))
  rw [hsize, hint, hmaximum]

theorem utilOp_realloc (h : Measuring tr d s live) {index : Nat} {size : Int}
    (hop : TraceOp.Legal tr.numIds live ⟨.realloc, index, size⟩)
    (hsane : s.Sane ⟨.realloc, index, size⟩) {m : Nat}
    (happly : s.apply ⟨.realloc, index, size⟩ = some s') :
    Ensures (utilOp P tr ⟨.realloc, index, size⟩ live.total m) d
      (Measures tr s' (live.next ⟨.realloc, index, size⟩) m) := by
  have hmax := maxHeap_eq
  have hintmax : (intMax : Int) = 2147483647 := rfl
  have hi : index ∈ live := hop.1
  have hsized : 0 < size ∧ size ≤ intMax := hop.2
  have hcap := h.bounded _ hi
  have hsizeT := (sizeT_of_sized hsized).1
  obtain ⟨n, hn⟩ := Placed.entry hi
  have hsize : d.blockSizes index = n := h.sizes _ hn
  have hold := h.toHolding.total_le
  have htotal : live.total = n + Live.total (live.erase index) :=
    Live.total_of_lookup (Live.mem_entries.mp hn)
  obtain ⟨p, σ₁, hret, hp, hholding⟩ := (h.toHolding.realloc hop hsane).2 s' happly
  have hnext := hholding (Function.update d.blockSizes index (sizeT size))
  have hbound : Live.total (live.insert index size.toNat) + 16 ≤ maxHeap := hnext.total_le
  have hint : int32 (live.total + int32 (size - toInt32 n))
      = (Live.total (live.insert index size.toNat) : Nat) := by
    rw [Live.total_insert] at hbound ⊢
    rw [toInt32, if_pos (by omega), int32_of_range (x := size - n) (by omega),
      int32_of_range (by omega)]
    omega
  refine Returns.step (getBlockSize_returns_iff.mpr ⟨hcap, rfl, rfl⟩) ?_
  refine Returns.step (getBlock_returns_iff.mpr ⟨hcap, rfl, rfl⟩) ?_
  refine Returns.step (call_returns hret) ?_
  rw [if_neg hp]
  refine Returns.step ((setBlock_returns_iff (u := ())).mpr ⟨hcap, rfl⟩) ?_
  refine Returns.step ((setBlockSize_returns_iff (u := ())).mpr ⟨hcap, rfl⟩) ?_
  refine .pure ⟨?_, hnext, ?_⟩
  · simp only [hsize, hint, max_ite]
    rfl
  · have hsizes := sizes_insert (n := size.toNat) (show index ∉ live.erase index by simp)
      fun e he => h.sizes e (Placed.mem_erase he).1
    rw [Live.insert_erase] at hsizes
    simp only [hsizeT]
    exact hsizes

/-- A request that is measured. -/
theorem utilOp_ensures (h : Measuring tr d s live) (hop : op.Legal tr.numIds live)
    (hsane : s.Sane op) {m : Nat} (hm : live.total ≤ m)
    (happly : s.apply op = some s') :
    Ensures (utilOp P tr op live.total m) d (Measures tr s' (live.next op) m) := by
  obtain ⟨kind, index, size⟩ := op
  cases kind with
  | alloc => exact utilOp_alloc h hop happly
  | free => exact utilOp_free h hop hm happly
  | realloc => exact utilOp_realloc h hop hsane happly

/-- A request that fails ends the driver. -/
theorem utilOp_exits (h : Measuring tr d s live) (hop : op.Legal tr.numIds live)
    (hsane : s.Sane op) {t m : Int} (happly : s.apply op = none) :
    Exits (utilOp P tr op t m) d 1 d := by
  obtain ⟨kind, index, size⟩ := op
  cases kind with
  | alloc =>
    have hret := (h.toHolding.alloc hop).1 happly
    refine Returns.bind_fails (call_returns hret) ?_
    rw [if_pos rfl]
    rfl
  | free => cases happly
  | realloc =>
    have hcap := h.bounded _ hop.1
    have hret := (h.toHolding.realloc hop hsane).1 happly
    refine Returns.bind_fails (getBlockSize_returns_iff.mpr ⟨hcap, rfl, rfl⟩) ?_
    refine Returns.bind_fails (getBlock_returns_iff.mpr ⟨hcap, rfl, rfl⟩) ?_
    refine Returns.bind_fails (call_returns hret) ?_
    rw [if_pos rfl]
    rfl

/-! ## The loops -/

/-- The measure of a trace is its peak. -/
theorem utilOps_ensures (h : Measuring tr d s live) (hops : Legal tr.numIds live ops)
    (hsane : s.Unbroken ops) {m : Nat}
    (hm : live.total ≤ m) (hreplay : s.replay ops = some s') :
    Ensures (utilOps P tr ops live.total m) d fun r d' =>
      r = (max m (peak live ops) : Nat) ∧ Measuring tr d' s' (live.after ops) := by
  induction ops generalizing d s live m with
  | nil =>
    cases hreplay
    rw [peak, Nat.max_eq_left hm]
    exact .pure ⟨rfl, h⟩
  | cons op ops ih =>
    obtain ⟨hop, hops⟩ := hops
    rw [Play.replay, Option.bind_eq_some_iff] at hreplay
    obtain ⟨s₁, happly, hreplay⟩ := hreplay
    refine (utilOp_ensures h hop hsane.1 hm happly).bind ?_
    rintro r d₁ ⟨rfl, h₁⟩
    have hrest := ih h₁ hops (hsane.tail happly) (Nat.le_max_right m _) hreplay
    have hpeak : max (max m (live.next op).total) (peak (live.next op) ops)
        = max m (peak live (op :: ops)) := by
      have := total_le_peak (live.next op) ops
      rw [peak]
      omega
    rw [hpeak] at hrest
    exact hrest

/-- A trace that fails ends the driver. -/
theorem utilOps_exits (h : Measuring tr d s live) (hops : Legal tr.numIds live ops)
    (hsane : s.Unbroken ops) {m : Nat}
    (hm : live.total ≤ m) (hreplay : s.replay ops = none) :
    ∃ d', Exits (utilOps P tr ops live.total m) d 1 d' := by
  induction ops generalizing d s live m with
  | nil => cases hreplay
  | cons op ops ih =>
    obtain ⟨hop, hops⟩ := hops
    cases happly : s.apply op with
    | none => exact ⟨d, Fails.bind (utilOp_exits h hop hsane.1 happly)⟩
    | some s₁ =>
      rw [Play.replay, happly] at hreplay
      obtain ⟨r, d₁, hret, rfl, h₁⟩ := utilOp_ensures h hop hsane.1 hm happly
      obtain ⟨d', hexits⟩ := ih h₁ hops (hsane.tail happly) (Nat.le_max_right m _) hreplay
      exact ⟨d', hret.bind_fails hexits⟩

/-- The calls alone follow the replay. -/
theorem speedOp_ensures (h : Holding tr d s live) (hop : op.Legal tr.numIds live)
    (hsane : s.Sane op) (happly : s.apply op = some s') :
    Ensures (speedOp P tr op) d fun _ d' => Holding tr d' s' (live.next op) := by
  obtain ⟨kind, index, size⟩ := op
  cases kind with
  | alloc =>
    obtain ⟨p, σ₁, hret, hp, hholding⟩ := (h.alloc hop).2 s' happly
    refine Returns.step (call_returns hret) ?_
    rw [if_neg hp]
    exact ((setBlock_returns_iff (u := ())).mpr ⟨hop.2.1, rfl⟩).ensures (hholding d.blockSizes)
  | free =>
    have hcap := h.bounded _ hop
    obtain ⟨σ₁, hret, hnext⟩ := h.free hop
    cases happly
    refine Returns.step (getBlock_returns_iff.mpr ⟨hcap, rfl, rfl⟩) ?_
    exact (call_returns hret).ensures hnext
  | realloc =>
    have hcap := h.bounded _ hop.1
    obtain ⟨p, σ₁, hret, hp, hholding⟩ := (h.realloc hop hsane).2 s' happly
    refine Returns.step (getBlock_returns_iff.mpr ⟨hcap, rfl, rfl⟩) ?_
    refine Returns.step (call_returns hret) ?_
    rw [if_neg hp]
    exact ((setBlock_returns_iff (u := ())).mpr ⟨hcap, rfl⟩).ensures (hholding d.blockSizes)

theorem speedOps_ensures (h : Holding tr d s live) (hops : Legal tr.numIds live ops)
    (hsane : s.Unbroken ops) (hreplay : s.replay ops = some s') :
    Ensures (speedOps P tr ops) d fun _ d' => Holding tr d' s' (live.after ops) := by
  induction ops generalizing d s live with
  | nil =>
    cases hreplay
    exact .pure h
  | cons op ops ih =>
    obtain ⟨hop, hops⟩ := hops
    rw [Play.replay, Option.bind_eq_some_iff] at hreplay
    obtain ⟨s₁, happly, hreplay⟩ := hreplay
    refine (speedOp_ensures h hop hsane.1 happly).bind ?_
    intro _ d₁ h₁
    exact ih h₁ hops (hsane.tail happly) hreplay

/-! ## The evaluations -/

/-- After `mm_init` no block is live, and no pointer is remembered. -/
theorem Measuring.start {σ₀ : Machine A ρ} (hholds : I.Holds σ₀ I.initial) :
    Measuring tr { d with machine := σ₀ } (Play.initial I) ∅ :=
  ⟨⟨.start hholds, by simp⟩, by simp⟩

/-- The machine of a replay is as large as its heap. -/
theorem Holding.heapsize (h : Holding tr d s live) :
    Returns memHeapsize d s.brk d := by
  have hfits := A.fits
  have hbrk : d.machine.memBrk = A.start + s.brk := I.brk h.holds
  have hle : s.brk ≤ maxHeap := (I.layout s.heap).shape.le
  have hsize : sub32 d.machine.memBrk A.start = s.brk := by
    rw [hbrk, sub32_of_le (by omega) (by omega)]
    omega
  rw [← hsize]
  rfl

section

variable (htr : tr.Legal) (hsane : (Play.initial I).Unbroken tr.ops)
include htr hsane

/-- The two numbers are the peak of the payloads and the size of the heap. -/
theorem evalMmUtil_ensures (hreplay : (Play.initial I).replay tr.ops = some s') :
    Ensures (evalMmUtil P tr) d fun r d' =>
      r = ((tr.peak : Int), s'.brk) ∧ Measuring tr d' s' tr.live := by
  have hreset : Returns (call memResetBrk) d () { d with machine := d.machine.withBrk A.start } :=
    call_returns (a := ()) rfl
  obtain ⟨r, σ₀, hinit, rfl, hholds⟩ := I.mmInit_ensures (σ := d.machine.withBrk A.start) rfl
  refine hreset.step (Returns.step (call_returns hinit) ?_)
  refine (utilOps_ensures (m := 0) (.start hholds) htr hsane (Nat.le_refl _) hreplay).bind ?_
  rintro r d' ⟨rfl, h⟩
  refine h.toHolding.heapsize.step (.pure ⟨?_, h⟩)
  rw [Nat.zero_max]
  rfl

theorem evalMmUtil_exits (hreplay : (Play.initial I).replay tr.ops = none) :
    ∃ d', Exits (evalMmUtil P tr) d 1 d' := by
  have hreset : Returns (call memResetBrk) d () { d with machine := d.machine.withBrk A.start } :=
    call_returns (a := ()) rfl
  obtain ⟨r, σ₀, hinit, rfl, hholds⟩ := I.mmInit_ensures (σ := d.machine.withBrk A.start) rfl
  obtain ⟨d', hexits⟩ := utilOps_exits (d := { d with machine := σ₀ }) (m := 0)
    (.start hholds) htr hsane (Nat.le_refl _) hreplay
  exact ⟨d', hreset.bind_fails ((call_returns hinit).bind_fails (Fails.bind hexits))⟩

/-- The timed calls are those of the replay. -/
theorem evalMmSpeed_ensures (hreplay : (Play.initial I).replay tr.ops = some s') :
    Ensures (evalMmSpeed P tr) d fun _ d' => Holding tr d' s' tr.live := by
  have hreset : Returns (call memResetBrk) d () { d with machine := d.machine.withBrk A.start } :=
    call_returns (a := ()) rfl
  obtain ⟨r, σ₀, hinit, rfl, hholds⟩ := I.mmInit_ensures (σ := d.machine.withBrk A.start) rfl
  refine hreset.step (Returns.step (call_returns hinit) ?_)
  exact speedOps_ensures (Measuring.start hholds).toHolding htr hsane hreplay

/-- What `eval_mm_util` returns, and when it ends the driver. -/
theorem evalMmUtil_cases :
    (∀ s', (Play.initial I).replay tr.ops = some s' →
      (∃ d', Returns (evalMmUtil P tr) d (tr.peak, s'.brk) d') ∧ tr.peak + 16 ≤ s'.brk ∧
        s'.brk ≤ maxHeap) ∧
    ((Play.initial I).replay tr.ops = none → ∃ d', Exits (evalMmUtil P tr) d 1 d') := by
  refine ⟨fun s' hreplay => ⟨?_, ?_, (I.layout s'.heap).shape.le⟩,
    fun hreplay => evalMmUtil_exits htr hsane hreplay⟩
  · obtain ⟨r, d', hret, rfl, -⟩ := evalMmUtil_ensures (d := d) htr hsane hreplay
    exact ⟨d', hret⟩
  · exact Placed.empty.peak_le htr hreplay

/-- The three evaluations of a trace hand out the same pointers. -/
theorem evaluations_follow (hP : P.Grows) {supply : Supply} {tracenum : Nat}
    (hret : Returns (evalMmValid P supply tr tracenum) d true d') (d₂ d₃ : State A ρ) :
    ∃ n d₂' d₃', Returns (evalMmUtil P tr) d₂ (tr.peak, n) d₂' ∧
      Returns (evalMmSpeed P tr) d₃ () d₃' ∧
      d'.machine.memBrk = A.start + n ∧ d₂'.machine.memBrk = A.start + n ∧
      d₃'.machine.memBrk = A.start + n ∧
      ∀ i ∈ tr.live, d₂'.blocks i = d'.blocks i ∧ d₃'.blocks i = d'.blocks i := by
  have hconcl := (evalMmValid_checks (d := d) hP htr hsane tracenum).of_returns hret
  cases hchecks : (Play.initial I).checks tracenum 0 tr.ops with
  | error r =>
    rw [hchecks] at hconcl
    cases hconcl.1
  | ok s =>
    rw [hchecks] at hconcl
    obtain ⟨-, hvalid, -⟩ := hconcl
    obtain ⟨hreplay, -⟩ := Play.checks_eq_ok_iff.mp hchecks
    obtain ⟨r, d₂', hutil, rfl, h₂⟩ := evalMmUtil_ensures (d := d₂) htr hsane hreplay
    obtain ⟨⟨⟩, d₃', hspeed, h₃⟩ := evalMmSpeed_ensures (d := d₃) htr hsane hreplay
    refine ⟨s.brk, d₂', d₃', hutil, hspeed, I.brk hvalid.holds, I.brk h₂.holds, I.brk h₃.holds,
      fun i hi => ?_⟩
    obtain ⟨n, hn⟩ := Placed.entry hi
    rw [h₂.blocks _ hn, h₃.blocks _ hn, hvalid.blocks _ hn]
    exact ⟨rfl, rfl⟩

end

/-! ## The two allocators -/

/-- On a legal trace `eval_mm_util` divides the peak of the payload bytes by the size of the
heap, which is larger, or it ends the driver with status 1 because a request fails. -/
theorem util_of_legal (htr : tr.Legal) :
    (∀ d : State A Implicit.Statics,
      (∀ s, (Play.initial (implicitInterface A)).replay tr.ops = some s →
        (∃ d', Returns (evalMmUtil (implicitPackage A) tr) d (tr.peak, s.brk) d') ∧
          tr.peak + 16 ≤ s.brk ∧ s.brk ≤ maxHeap) ∧
      ((Play.initial (implicitInterface A)).replay tr.ops = none →
        ∃ d', Exits (evalMmUtil (implicitPackage A) tr) d 1 d')) ∧
    ((Play.initial (segregatedInterface A)).Unbroken tr.ops → ∀ d : State A Segregated.Statics,
      (∀ s, (Play.initial (segregatedInterface A)).replay tr.ops = some s →
        (∃ d', Returns (evalMmUtil (segregatedPackage A) tr) d (tr.peak, s.brk) d') ∧
          tr.peak + 16 ≤ s.brk ∧ s.brk ≤ maxHeap) ∧
      ((Play.initial (segregatedInterface A)).replay tr.ops = none →
        ∃ d', Exits (evalMmUtil (segregatedPackage A) tr) d 1 d')) :=
  ⟨fun _ => evalMmUtil_cases htr implicit_unbroken, fun hsane _ => evalMmUtil_cases htr hsane⟩

theorem resizing_util : ∃ n d', Returns (evalMmUtil (segregatedPackage .low) resizing)
    (blank ⟨0, fun _ => 0⟩) (200, n) d' ∧ 216 ≤ n := by
  have hlegal : resizing.Legal := by decide +kernel
  have hpeak : resizing.peak = 200 := by decide +kernel
  have hreplay : ((Play.initial (segregatedInterface .low)).replay resizing.ops).isSome := by
    decide +kernel
  obtain ⟨s, hs⟩ := Option.isSome_iff_exists.mp hreplay
  obtain ⟨⟨d', hret⟩, hle, -⟩ :=
    ((util_of_legal hlegal).2 (by decide +kernel) (blank ⟨0, fun _ => 0⟩)).1 s hs
  rw [hpeak] at hret hle
  exact ⟨s.brk, d', hret, hle⟩

/-- When `eval_mm_valid` returns 1 for a legal trace, `eval_mm_util` and `eval_mm_speed` go
through it too, from any state.  The break and the pointers to the live blocks end up the same
in all three. -/
theorem evaluations_agree (htr : tr.Legal) :
    (∀ (supply : Supply) (tracenum : Nat) (d₁ d₁' : State A Implicit.Statics),
      Returns (evalMmValid (implicitPackage A) supply tr tracenum) d₁ true d₁' →
      ∀ d₂ d₃, ∃ n d₂' d₃', Returns (evalMmUtil (implicitPackage A) tr) d₂ (tr.peak, n) d₂' ∧
        Returns (evalMmSpeed (implicitPackage A) tr) d₃ () d₃' ∧
        d₁'.machine.memBrk = A.start + n ∧ d₂'.machine.memBrk = A.start + n ∧
        d₃'.machine.memBrk = A.start + n ∧
        ∀ i ∈ tr.live, d₂'.blocks i = d₁'.blocks i ∧ d₃'.blocks i = d₁'.blocks i) ∧
    ((Play.initial (segregatedInterface A)).Unbroken tr.ops →
      ∀ (supply : Supply) (tracenum : Nat) (d₁ d₁' : State A Segregated.Statics),
      Returns (evalMmValid (segregatedPackage A) supply tr tracenum) d₁ true d₁' →
      ∀ d₂ d₃, ∃ n d₂' d₃', Returns (evalMmUtil (segregatedPackage A) tr) d₂ (tr.peak, n) d₂' ∧
        Returns (evalMmSpeed (segregatedPackage A) tr) d₃ () d₃' ∧
        d₁'.machine.memBrk = A.start + n ∧ d₂'.machine.memBrk = A.start + n ∧
        d₃'.machine.memBrk = A.start + n ∧
        ∀ i ∈ tr.live, d₂'.blocks i = d₁'.blocks i ∧ d₃'.blocks i = d₁'.blocks i) :=
  ⟨fun _ _ _ _ hret => evaluations_follow (I := implicitInterface A) htr implicit_unbroken
      implicit_grows hret,
    fun hsane _ _ _ _ hret => evaluations_follow (I := segregatedInterface A) htr hsane
      segregated_grows hret⟩

theorem resizing_agrees : ∃ n d', Returns (evalMmUtil (segregatedPackage .low) resizing)
      (blank ⟨0, fun _ => 0⟩) (resizing.peak, n) d' ∧
    d'.blocks 0 = (after (evalMmValid (segregatedPackage .low) plenty resizing 0)
      (blank ⟨0, fun _ => 0⟩)).blocks 0 := by
  have hlegal : resizing.Legal := by decide +kernel
  have hpass : result (evalMmValid (segregatedPackage .low) plenty resizing 0)
      (blank ⟨0, fun _ => 0⟩) = some true := by decide +kernel
  obtain ⟨n, d₂', d₃', hutil, -, -, -, -, hblocks⟩ := (evaluations_agree hlegal).2
    (by decide +kernel) plenty 0 _ _ (.of_result hpass) (blank ⟨0, fun _ => 0⟩)
    (blank ⟨0, fun _ => 0⟩)
  exact ⟨n, d₂', hutil, (hblocks 0 (by decide +kernel)).1⟩

end CToys.Malloc.Driver
