import CToys.Malloc.Breaks
import CToys.Malloc.Driver.Checks
import CToys.Malloc.Driver.Interface

/-!
# What a verdict is worth

`eval_mm_valid` may be run on any package.  When it returns 1 for a legal trace, then after
every request the live payloads are aligned, lie in the heap and are recorded, and two of them
are apart or the one that was given out later lies around the other (`valid_checked`).  The
package only has to move the break as `mem_sbrk` does.

`Checked d live` is the invariant.  The range list has exactly the extents of the live
payloads, the newest first, since a payload is removed by its first byte and no two payloads
have the same one.
-/

namespace CToys.Malloc.Driver

variable {A : Arena} {ρ α : Type} {d d' : State A ρ} {tr : Trace} {live : Live}

/-- The package only raises the break, and not out of the storage. -/
structure Package.Grows (P : Package A ρ) : Prop where
  mmInit : Malloc.Grows P.mmInit
  mmMalloc : ∀ size, Malloc.Grows (P.mmMalloc size)
  mmFree : ∀ p, Malloc.Grows (P.mmFree p)
  mmRealloc : ∀ p size, Malloc.Grows (P.mmRealloc p size)

/-- The range of a live payload. -/
def State.extent (d : State A ρ) (e : (_ : Nat) × Nat) : Range :=
  ⟨d.blocks e.1, d.blocks e.1 + e.2 - 1⟩

/-- What holds while every request passes. -/
structure Checked (d : State A ρ) (live : Live) : Prop where
  brk : A.start ≤ d.machine.memBrk ∧ d.machine.memBrk ≤ A.start + maxHeap
  ranges : d.ranges = live.entries.map d.extent
  sizes : ∀ e ∈ live.entries, d.blockSizes e.1 = e.2
  inHeap : ∀ e ∈ live.entries, 0 < e.2 ∧ d.blocks e.1 % 8 = 0 ∧ A.start ≤ d.blocks e.1 ∧
    d.blocks e.1 + e.2 ≤ d.machine.memBrk
  apart : live.entries.Pairwise fun e e' =>
    meets (d.extent e).lo (d.extent e).hi (d.extent e') = false

/-! ## Extents -/

/-- An accepted payload does not wrap. -/
theorem Accepts.bounds {lo : Nat} {size : Int} (h : Accepts d lo size) (hsize : size ≤ intMax)
    (hbrk : A.start ≤ d.machine.memBrk ∧ d.machine.memBrk ≤ A.start + maxHeap) :
    lastByte lo size = lo + size.toNat - 1 ∧ lo + size.toNat ≤ d.machine.memBrk := by
  have hA := A.pos
  have hfits := A.fits
  have hmax := maxHeap_eq
  have hint : (intMax : Int) = 2147483647 := rfl
  have hpos := h.pos
  have hfirst := h.first
  have hlast := h.last
  have hsub : sub32 d.machine.memBrk 1 = d.machine.memBrk - 1 := by
    unfold sub32
    omega
  rw [hsub] at hfirst hlast
  unfold lastByte sizeT at *
  omega

theorem meets_eq_false_iff {lo hi : Nat} {r : Range} : meets lo hi r = false ↔
    ¬ (r.lo ≤ lo ∧ lo ≤ r.hi) ∧ ¬ (r.lo ≤ hi ∧ hi ≤ r.hi) := by
  simp only [meets, decide_eq_false_iff_not, not_or, ge_iff_le]

/-- The list without the entry of an index. -/
theorem eraseP_extent {entries : List ((_ : Nat) × Nat)} {i : Nat}
    (h : ∀ e ∈ entries, d.blocks e.1 = d.blocks i → e.1 = i) :
    (entries.map d.extent).eraseP (·.lo = d.blocks i) = (entries.kerase i).map d.extent := by
  induction entries with
  | nil => rfl
  | cons e entries ih =>
    have hrest := ih fun e he => h e (List.mem_cons_of_mem _ he)
    by_cases hi : e.1 = i
    · rw [List.map_cons, List.kerase_cons_eq hi.symm]
      simp [State.extent, hi]
    · have hlo : d.blocks e.1 ≠ d.blocks i := fun hb => hi (h e List.mem_cons_self hb)
      rw [List.map_cons, List.kerase_cons_ne (Ne.symm hi), List.map_cons, ← hrest]
      simp [State.extent, hlo]

namespace Checked

/-- Nothing is live after `clear_ranges`. -/
theorem empty (hbrk : A.start ≤ d.machine.memBrk ∧ d.machine.memBrk ≤ A.start + maxHeap)
    (hr : d.ranges = []) : Checked d ∅ :=
  ⟨hbrk, hr, by simp, by simp, .nil⟩

/-- A call that moves the break up. -/
theorem grow (h : Checked d live) {σ' : Machine A ρ} (hle : d.machine.memBrk ≤ σ'.memBrk)
    (hmax : σ'.memBrk ≤ A.start + maxHeap) : Checked { d with machine := σ' } live :=
  ⟨⟨h.brk.1.trans hle, hmax⟩, h.ranges, h.sizes, fun e he =>
    have hin := h.inHeap e he
    ⟨hin.1, hin.2.1, hin.2.2.1, hin.2.2.2.trans hle⟩, h.apart⟩

/-- Two payloads do not start at the same address. -/
theorem blocks_inj (h : Checked d live) {e e' : (_ : Nat) × Nat} (he : e ∈ live.entries)
    (he' : e' ∈ live.entries) (hb : d.blocks e.1 = d.blocks e'.1) : e = e' := by
  have hne : ∀ {e e'}, e' ∈ live.entries →
      meets (d.extent e).lo (d.extent e).hi (d.extent e') = false →
      d.blocks e.1 ≠ d.blocks e'.1 := by
    intro e e' he' hmeets
    have hpos := (h.inHeap e' he').1
    have hfirst := (meets_eq_false_iff.mp hmeets).1
    simp only [State.extent] at hfirst
    omega
  have hdistinct : live.entries.Pairwise fun e e' => d.blocks e.1 ≠ d.blocks e'.1 :=
    h.apart.imp_of_mem fun _ he' hmeets => hne he' hmeets
  have hsymm : Std.Symm fun e e' : (_ : Nat) × Nat => d.blocks e.1 ≠ d.blocks e'.1 :=
    ⟨fun _ _ => Ne.symm⟩
  by_contra hee
  exact hdistinct.forall he he' hee hb

/-- A block that is not live any more. -/
theorem erase (h : Checked d live) {i : Nat} (hi : i ∈ live) :
    Checked { d with ranges := d.ranges.eraseP (·.lo = d.blocks i) } (live.erase i) := by
  obtain ⟨n, hn⟩ := Live.exists_of_mem hi
  have hmem : ⟨i, n⟩ ∈ live.entries := Live.mem_entries.mpr hn
  have hsub : (live.erase i).entries.Sublist live.entries := List.kerase_sublist i live.entries
  refine ⟨h.brk, ?_, fun e he => h.sizes e (hsub.subset he), fun e he =>
    h.inHeap e (hsub.subset he), h.apart.sublist hsub⟩
  have herase := eraseP_extent (d := d) (i := i) fun e he hb =>
    congrArg Sigma.fst (h.blocks_inj he hmem hb)
  simp only [h.ranges]
  exact herase

/-- A new block. -/
theorem insert (h : Checked d live) {i p : Nat} {size : Int} (hi : i ∉ live)
    (hok : Accepts d p size) (hsize : size ≤ intMax) (m : Memory) :
    Checked ⟨d.machine.withStorage m, ⟨p, lastByte p size⟩ :: d.ranges,
      Function.update d.blocks i p, Function.update d.blockSizes i (sizeT size), d.errors⟩
      (live.insert i size.toNat) := by
  obtain ⟨hlast, hbrk⟩ := hok.bounds hsize h.brk
  have hsized := sizeT_of_sized ⟨hok.pos, hsize⟩
  have hold : ∀ e ∈ live.entries, e.1 ≠ i := fun e he hei =>
    hi (hei ▸ Live.mem_of_lookup (Live.mem_entries.mp he))
  have hblocks : ∀ e ∈ live.entries, Function.update d.blocks i p e.1 = d.blocks e.1 :=
    fun e he => Function.update_of_ne (hold e he) _ _
  have hsizes : ∀ e ∈ live.entries,
      Function.update d.blockSizes i (sizeT size) e.1 = d.blockSizes e.1 :=
    fun e he => Function.update_of_ne (hold e he) _ _
  have hextent : ∀ e ∈ live.entries, State.extent ⟨d.machine.withStorage m,
      ⟨p, lastByte p size⟩ :: d.ranges, Function.update d.blocks i p,
      Function.update d.blockSizes i (sizeT size), d.errors⟩ e = d.extent e := fun e he => by
    simp only [State.extent, hblocks e he]
  refine ⟨h.brk, ?_, ?_, ?_, ?_⟩
  all_goals rw [AList.entries_insert_of_notMem hi]
  · rw [List.map_cons, List.map_congr_left hextent, h.ranges]
    simp only [State.extent, Function.update_self, hlast]
  · rw [List.forall_mem_cons]
    refine ⟨?_, fun e he => (hsizes e he).trans (h.sizes e he)⟩
    simp only [Function.update_self, hsized.1]
  · rw [List.forall_mem_cons]
    refine ⟨?_, fun e he => ?_⟩
    · simp only [Function.update_self]
      exact ⟨hsized.2, hok.aligned, hok.first.1, hbrk⟩
    · simp only [hblocks e he]
      exact h.inHeap e he
  · refine List.pairwise_cons.mpr ⟨fun e he => ?_, h.apart.imp_of_mem fun he he' hmeets => ?_⟩
    · have hclear := hok.apart (d.extent e) (by
        rw [h.ranges]
        exact List.mem_map_of_mem he)
      rw [hextent e he]
      simpa only [State.extent, Function.update_self, ← hlast] using hclear
    · rwa [hextent _ he, hextent _ he']

/-- Every request that passes keeps the invariant. -/
theorem step {P : Package A ρ} {supply : Supply} (hP : P.Grows) (h : Checked d live) {op : TraceOp}
    (hop : op.Legal tr.numIds live) {tracenum i : Nat}
    (hret : Returns (validOp P supply tr tracenum i op) d true d') :
    Checked d' (live.next op) ∧ d'.errors = d.errors := by
  obtain ⟨kind, index, size⟩ := op
  cases kind with
  | alloc =>
    obtain ⟨hi, -, hsized⟩ := hop
    obtain ⟨-, p, σ₁, σ₂, hmalloc, -, hok, hset, -, rfl⟩ := validOp_alloc_iff.mp hret
    obtain ⟨hle, hmax⟩ := (hP.mmMalloc _).rel hmalloc h.brk.2
    obtain ⟨m, rfl⟩ := Returns.of_memset hset
    exact ⟨(h.grow hle hmax).insert hi hok hsized.2 m, rfl⟩
  | free =>
    obtain ⟨σ₁, -, hfree, rfl⟩ := validOp_free_iff.mp hret
    obtain ⟨hle, hmax⟩ := (hP.mmFree _).rel hfree h.brk.2
    exact ⟨(h.erase hop).grow hle hmax, rfl⟩
  | realloc =>
    obtain ⟨hi, hsized⟩ := hop
    obtain ⟨-, p, σ₁, σ₂, -, hrealloc, -, hok, -, hset, rfl⟩ := validOp_realloc_iff.mp hret
    obtain ⟨hle, hmax⟩ := (hP.mmRealloc _ _).rel hrealloc h.brk.2
    obtain ⟨m, rfl⟩ := Returns.of_memset hset
    have hinsert : (live.erase index).insert index size.toNat = live.insert index size.toNat :=
      AList.ext (by rw [AList.entries_insert_of_notMem (by simp), AList.entries_insert]; rfl)
    have hnext := ((h.erase hi).grow hle hmax).insert (i := index) (by simp) hok hsized.2 m
    rw [hinsert] at hnext
    exact ⟨hnext, rfl⟩

/-- So do several. -/
theorem run {P : Package A ρ} {supply : Supply} (hP : P.Grows) {ops : List TraceOp}
    (h : Checked d live) (hops : Legal tr.numIds live ops) {tracenum i : Nat}
    (hret : Returns (validOps P supply tr tracenum i ops) d true d') :
    Checked d' (live.after ops) ∧ d'.errors = d.errors := by
  induction ops generalizing d live i with
  | nil =>
    obtain ⟨-, rfl⟩ := returns_pure_iff.mp hret
    exact ⟨h, rfl⟩
  | cons op ops ih =>
    obtain ⟨ok, d₁, hop, hret⟩ := hret.of_bind
    cases ok with
    | false => cases hret
    | true =>
      obtain ⟨h₁, herrors₁⟩ := h.step hP hops.1 hop
      obtain ⟨h₂, herrors₂⟩ := ih h₁ hops.2 hret
      exact ⟨h₂, herrors₂.trans herrors₁⟩

end Checked

/-! ## The verdict -/

section

variable {P : Package A ρ} {supply : Supply} {tracenum : Nat}

/-- The state in which the requests start. -/
def State.fresh (d : State A ρ) (σ₀ : Machine A ρ) : State A ρ :=
  { d with machine := σ₀, ranges := [] }

/-- A trace without errors starts with `mm_init` and then passes every request. -/
theorem evalMmValid_returns_iff : Returns (evalMmValid P supply tr tracenum) d true d' ↔
    ∃ r σ₀, Returns P.mmInit (d.machine.withBrk A.start) r σ₀ ∧ ¬ r < 0 ∧
      Returns (validOps P supply tr tracenum 0 tr.ops) (d.fresh σ₀) true d' := by
  have hreset : Returns (call memResetBrk) d () { d with machine := d.machine.withBrk A.start } :=
    call_returns (a := ()) rfl
  have hclear : Returns clearRanges { d with machine := d.machine.withBrk A.start } ()
      { d with machine := d.machine.withBrk A.start, ranges := [] } := rfl
  unfold evalMmValid
  rw [Returns, hreset.bind_apply, hclear.bind_apply]
  refine ⟨fun h => ?_, fun h => ?_⟩
  · obtain ⟨r, d₁, hcall, h⟩ := Returns.of_bind h
    obtain ⟨σ₀, hinit, rfl⟩ := call_returns_iff.mp hcall
    split at h
    · exact absurd h not_complained
    · next hr => exact ⟨r, σ₀, hinit, hr, h⟩
  · obtain ⟨r, σ₀, hinit, hr, h⟩ := h
    refine Returns.bind (call_returns hinit) ?_
    rw [if_neg hr]
    exact h

/-- To pass a trace is to pass a prefix and then the rest. -/
theorem validOps_append {pre post : List TraceOp} {i : Nat} :
    Returns (validOps P supply tr tracenum i (pre ++ post)) d true d' ↔
      ∃ d₁, Returns (validOps P supply tr tracenum i pre) d true d₁ ∧
        Returns (validOps P supply tr tracenum (i + pre.length) post) d₁ true d' := by
  induction pre generalizing d i with
  | nil => simp [validOps, returns_pure_iff]
  | cons op pre ih =>
    have hlen : i + (op :: pre).length = i + 1 + pre.length := by
      rw [List.length_cons]
      omega
    simp only [List.cons_append, validOps, returns_bind_iff, hlen]
    refine ⟨fun h => ?_, fun h => ?_⟩
    · obtain ⟨ok, d₁, hop, h⟩ := h
      cases ok with
      | false => cases h
      | true =>
        obtain ⟨d₂, hpre, hpost⟩ := ih.mp h
        exact ⟨d₂, ⟨true, d₁, hop, hpre⟩, hpost⟩
    · obtain ⟨d₂, ⟨ok, d₁, hop, hpre⟩, hpost⟩ := h
      cases ok with
      | false => cases hpre
      | true => exact ⟨true, d₁, hop, ih.mpr ⟨d₂, hpre, hpost⟩⟩

/-- The requests matter one by one, and of the trace only the lengths of its arrays. -/
theorem validOps_ops {ops ops' : List TraceOp} {i : Nat} :
    validOps P supply { tr with ops := ops' } tracenum i ops =
      validOps P supply tr tracenum i ops := by
  induction ops generalizing i with
  | nil => rfl
  | cons op ops ih =>
    have hop : validOp P supply { tr with ops := ops' } tracenum i op =
      validOp P supply tr tracenum i op := rfl
    simp only [validOps, ih, hop]

end

/-- Two payloads are apart, or the second one lies inside the first. -/
def State.Clear (d : State A ρ) (e e' : (_ : Nat) × Nat) : Prop :=
  d.blocks e.1 + e.2 ≤ d.blocks e'.1 ∨ d.blocks e'.1 + e'.2 ≤ d.blocks e.1 ∨
    (d.blocks e.1 < d.blocks e'.1 ∧ d.blocks e'.1 + e'.2 < d.blocks e.1 + e.2)

theorem Checked.clear (h : Checked d live) : live.entries.Pairwise d.Clear := by
  refine h.apart.imp_of_mem fun {e e'} he he' hmeets => ?_
  have hpos := (h.inHeap e he).1
  have hpos' := (h.inHeap e' he').1
  have hends := meets_eq_false_iff.mp hmeets
  simp only [State.extent, State.Clear] at hends ⊢
  omega

theorem implicit_grows : (implicitPackage A).Grows :=
  ⟨inferInstanceAs (Grows Implicit.mmInit), fun size => Implicit.mmMalloc_grows size,
    fun p => Implicit.mmFree_grows p, fun p size => Implicit.mmRealloc_grows p size⟩

theorem segregated_grows : (segregatedPackage A).Grows :=
  ⟨inferInstanceAs (Grows Segregated.mmInit), fun size => Segregated.mmMalloc_grows size,
    fun p => Segregated.mmFree_grows p, fun p size => Segregated.mmRealloc_grows p size⟩

/-- A trace that allocates, moves and frees. -/
def moving : Trace := ⟨0, 2, 1, [⟨.alloc, 0, 24⟩, ⟨.alloc, 1, 8⟩, ⟨.realloc, 0, 40⟩, ⟨.free, 1, 0⟩]⟩

/-- The driver at its start, on zeroed memory. -/
def blank {ρ : Type} (statics : ρ) : State .low ρ :=
  ⟨⟨fun _ => 0, Arena.low.start, statics⟩, [], fun _ => 0, fun _ => 0, []⟩

/-- When the verdict on a legal trace is good, no error was printed, and after each request the
live payloads are aligned, in the heap and recorded, and a payload is apart from each older
one or around it. -/
theorem verdict_sound {P : Package A ρ} {supply : Supply} (hP : P.Grows) (htr : tr.Legal)
    {tracenum : Nat}
    (hret : Returns (evalMmValid P supply tr tracenum) d true d') {pre post : List TraceOp}
    (hops : tr.ops = pre ++ post) :
    ∃ d₁, Returns (evalMmValid P supply { tr with ops := pre } tracenum) d true d₁ ∧
      d₁.errors = d.errors ∧
      (∀ i n, (Live.after ∅ pre).lookup i = some n → d₁.blocks i % 8 = 0 ∧
        A.start ≤ d₁.blocks i ∧ d₁.blocks i + n ≤ d₁.machine.memBrk ∧ d₁.blockSizes i = n) ∧
      (Live.after ∅ pre).entries.Pairwise d₁.Clear := by
  obtain ⟨r, σ₀, hinit, hr, hrun⟩ := evalMmValid_returns_iff.mp hret
  rw [hops, validOps_append] at hrun
  obtain ⟨d₁, hpre, -⟩ := hrun
  have hlegal : Legal tr.numIds ∅ (pre ++ post) := hops ▸ htr
  obtain ⟨hle, hmax⟩ := hP.mmInit.rel hinit (Nat.le_add_right _ _)
  have hstart : Checked (d.fresh σ₀) ∅ := .empty ⟨hle, hmax⟩ rfl
  obtain ⟨hchecked, herrors⟩ := hstart.run hP (Legal.append.mp hlegal).1 hpre
  refine ⟨d₁, evalMmValid_returns_iff.mpr ⟨r, σ₀, hinit, hr, ?_⟩, herrors, fun i n hi => ?_,
    hchecked.clear⟩
  · rw [validOps_ops]
    exact hpre
  have he : ⟨i, n⟩ ∈ (Live.after ∅ pre).entries := Live.mem_entries.mpr hi
  obtain ⟨-, hal, hlo, hhi⟩ := hchecked.inHeap _ he
  exact ⟨hal, hlo, hhi, hchecked.sizes _ he⟩

theorem moving_sound : ∃ d₁, Returns (evalMmValid (implicitPackage .low) plenty
      { moving with ops := moving.ops.take 2 } 0) (blank ⟨0, 0⟩) true d₁ ∧
    d₁.blocks 0 % 8 = 0 ∧ d₁.blocks 0 + 24 ≤ d₁.machine.memBrk := by
  have hlegal : moving.Legal := by decide +kernel
  have hpass : result (evalMmValid (implicitPackage .low) plenty moving 0) (blank ⟨0, 0⟩)
      = some true := by decide +kernel
  have hsplit : moving.ops = moving.ops.take 2 ++ moving.ops.drop 2 := rfl
  obtain ⟨d₁, hret, -, hlive, -⟩ := verdict_sound implicit_grows hlegal (.of_result hpass) hsplit
  obtain ⟨hal, -, hle, -⟩ := hlive 0 24 rfl
  exact ⟨d₁, hret, hal, hle⟩

end CToys.Malloc.Driver
