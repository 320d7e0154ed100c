import CToys.Malloc.Driver.Trace

/-!
# What the checks find

`add_range` accepts a payload that is aligned and in the heap, and neither end of which lies in
a payload of the range list (`addRange_returns_iff`).  It does not look for an old payload
inside the new one.  If there is no memory for the range, it ends the driver.

`Checked d live` says what the driver knows when every request so far passed: the range list
has the extents of the live payloads, the newest first, and every payload is aligned, in the
heap and apart from the older ones or around them.  The package may be any that only moves the
break up and keeps it in the storage.
-/

namespace CToys.Malloc.Driver

variable {A : Arena} {ρ α : Type} {d d' : State A ρ} {tr : Trace}

/-! ## Statements -/

theorem call_returns {x : Prog A ρ α} {a : α} {σ' : Machine A ρ}
    (h : Returns x d.machine a σ') : Returns (call x) d a { d with machine := σ' } := by
  unfold Returns at *
  simp only [call, h]

theorem call_returns_iff {x : Prog A ρ α} {a : α} : Returns (call x) d a d' ↔
    ∃ σ', Returns x d.machine a σ' ∧ d' = { d with machine := σ' } := by
  refine ⟨fun h => ?_, fun h => ?_⟩
  · unfold Returns call at h
    split at h
    · next b σ' hx =>
      cases h
      exact ⟨σ', hx, rfl⟩
    · cases h
    · cases h
  · obtain ⟨σ', hret, rfl⟩ := h
    exact call_returns hret

theorem getBlock_returns_iff {i p : Nat} :
    Returns (getBlock tr i) d p d' ↔ i < capacity tr.numIds 4 ∧ p = d.blocks i ∧ d' = d := by
  unfold Returns getBlock
  split <;> simp_all [eq_comm]

theorem getBlockSize_returns_iff {i n : Nat} : Returns (getBlockSize tr i) d n d' ↔
    i < capacity tr.numIds 4 ∧ n = d.blockSizes i ∧ d' = d := by
  unfold Returns getBlockSize
  split <;> simp_all [eq_comm]

theorem setBlock_returns_iff {i p : Nat} {u : Unit} : Returns (setBlock tr i p) d u d' ↔
    i < capacity tr.numIds 4 ∧ d' = { d with blocks := Function.update d.blocks i p } := by
  have hupdate : (fun j => if j = i then p else d.blocks j) = Function.update d.blocks i p := by
    funext j
    rw [Function.update_apply]
  unfold Returns setBlock
  rw [hupdate]
  split <;> simp_all [eq_comm]

theorem setBlockSize_returns_iff {i n : Nat} {u : Unit} : Returns (setBlockSize tr i n) d u d' ↔
    i < capacity tr.numIds 4 ∧
      d' = { d with blockSizes := Function.update d.blockSizes i n } := by
  have hupdate : (fun j => if j = i then n else d.blockSizes j)
      = Function.update d.blockSizes i n := by
    funext j
    rw [Function.update_apply]
  unfold Returns setBlockSize
  rw [hupdate]
  split <;> simp_all [eq_comm]

theorem memset_returns {σ : Machine A ρ} {o n : Nat} {v : UInt8} (hn : 0 < n)
    (h : o + n ≤ maxHeap) :
    Returns (memset (A.start + o) v n) σ () (σ.withStorage (fill σ.storage o n v)) := by
  have hin : A.InStorage (A.start + o) n := ⟨by omega, by omega⟩
  have hn' : n ≠ 0 := by omega
  simp [Returns, memset, hin, hn']

/-- `memset` only changes bytes. -/
theorem Returns.of_memset {σ σ' : Machine A ρ} {p n : Nat} {v : UInt8}
    (h : Returns (memset p v n) σ () σ') : ∃ m, σ' = σ.withStorage m := by
  unfold Returns memset at h
  split at h
  · cases h
    exact ⟨σ.storage, rfl⟩
  · split at h
    · cases h
      exact ⟨_, rfl⟩
    · cases h

/-! ## The range list -/

/-- What `add_range` asks of a payload. -/
structure Accepts (d : State A ρ) (lo : Nat) (size : Int) : Prop where
  pos : 0 < size
  aligned : lo % 8 = 0
  first : A.start ≤ lo ∧ lo ≤ sub32 d.machine.memBrk 1
  last : A.start ≤ lastByte lo size ∧ lastByte lo size ≤ sub32 d.machine.memBrk 1
  apart : ∀ r ∈ d.ranges, meets lo (lastByte lo size) r = false

/-- A request that prints an error does not pass. -/
theorem not_complained {x : Eval A ρ Unit} :
    ¬ Returns (x >>= fun _ => (return false : Eval A ρ Bool)) d true d' := by
  intro h
  obtain ⟨-, d₁, -, h⟩ := h.of_bind
  cases h

theorem memHeapLo_returns : Returns memHeapLo d A.start d := rfl

theorem memHeapHi_returns : Returns memHeapHi d (sub32 d.machine.memBrk 1) d := rfl

/-- A payload is refused, or the range is added if there is memory for it. -/
theorem addRange_apply (supply : Supply) (d' : State A ρ) {lo tracenum i : Nat} {size : Int} :
    (¬ Accepts d lo size ∧ ¬ Returns (addRange supply lo size tracenum i) d true d') ∨
    Accepts d lo size ∧ addRange supply lo size tracenum i d = (do
      reserve supply i rangeSize
      modify fun d => { d with ranges := ⟨lo, lastByte lo size⟩ :: d.ranges }
      return true : Eval A ρ Bool) d := by
  unfold addRange
  by_cases hpos : size ≤ 0
  · rw [if_pos hpos]
    refine .inl ⟨fun h => absurd h.pos (by omega), fun h => ?_⟩
    cases h
  rw [if_neg hpos]
  by_cases hal : lo % 8 = 0
  swap
  · rw [if_pos hal]
    exact .inl ⟨fun h => absurd h.aligned hal, not_complained⟩
  rw [if_neg (not_not.mpr hal), Returns, memHeapLo_returns.bind_apply,
    memHeapHi_returns.bind_apply]
  by_cases hout : lo < A.start ∨ lo > sub32 d.machine.memBrk 1 ∨ lastByte lo size < A.start ∨
      lastByte lo size > sub32 d.machine.memBrk 1
  · rw [if_pos hout]
    refine .inl ⟨fun h => ?_, not_complained⟩
    have := h.first
    have := h.last
    omega
  rw [if_neg hout]
  have hget : Returns (get : Eval A ρ (State A ρ)) d d d := rfl
  rw [hget.bind_apply]
  have hin : A.start ≤ lo ∧ lo ≤ sub32 d.machine.memBrk 1 := by omega
  have hin' : A.start ≤ lastByte lo size ∧ lastByte lo size ≤ sub32 d.machine.memBrk 1 := by
    omega
  cases hfind : d.ranges.find? (meets lo (lastByte lo size)) with
  | some p =>
    refine .inl ⟨fun h => ?_, not_complained⟩
    have hmeets := List.find?_some hfind
    rw [h.apart p (List.mem_of_find?_eq_some hfind)] at hmeets
    cases hmeets
  | none =>
    have hapart : ∀ r ∈ d.ranges, meets lo (lastByte lo size) r = false := by
      simpa using hfind
    exact .inr ⟨⟨by omega, hal, hin, hin', hapart⟩, rfl⟩

theorem addRange_returns_iff {supply : Supply} {lo tracenum i : Nat} {size : Int} :
    Returns (addRange supply lo size tracenum i) d true d' ↔
      supply i rangeSize = true ∧ Accepts d lo size ∧
        d' = { d with ranges := ⟨lo, lastByte lo size⟩ :: d.ranges } := by
  rcases addRange_apply supply d' with ⟨hrefused, hnot⟩ | ⟨hok, happly⟩
  · exact ⟨fun h => absurd h hnot, fun h => absurd h.2.1 hrefused⟩
  · rw [Returns, happly]
    cases hs : supply i rangeSize with
    | false =>
      refine ⟨fun h => ?_, fun h => absurd h.1 Bool.false_ne_true⟩
      exact absurd ((reserve_exits hs d).bind) (Returns.not_fails h)
    | true =>
      rw [(reserve_returns hs d).bind_apply]
      refine ⟨fun h => ⟨rfl, hok, ?_⟩, fun h => ?_⟩
      · cases h
        rfl
      · rw [h.2.2]
        rfl

/-- Without memory for the range the driver ends. -/
theorem addRange_exits {supply : Supply} {lo tracenum i : Nat} {size : Int}
    (hs : supply i rangeSize = false) (hok : Accepts d lo size) :
    Exits (addRange supply lo size tracenum i) d 1 d := by
  rcases addRange_apply supply d with ⟨hrefused, -⟩ | ⟨-, happly⟩
  · exact absurd hok hrefused
  · rw [Exits, Fails, happly]
    exact (reserve_exits hs d).bind

/-! ## Requests -/

section

variable {P : Package A ρ} {supply : Supply} {tracenum i index : Nat} {size : Int}

theorem removeRange_returns_iff {lo : Nat} {u : Unit} : Returns (removeRange lo) d u d' ↔
    d' = { d with ranges := d.ranges.eraseP (·.lo = lo) } := by
  refine ⟨fun h => ?_, fun h => ?_⟩
  · cases h
    rfl
  · rw [h]
    rfl

/-- The end of a request that passes. -/
theorem remember_iff {p n : Nat} {v : UInt8} : Returns (do
      call (memset p v n)
      setBlock tr index p
      setBlockSize tr index n
      return true) d true d' ↔
    ∃ σ₂, Returns (memset p v n) d.machine () σ₂ ∧ index < capacity tr.numIds 4 ∧
      d' = ⟨σ₂, d.ranges, Function.update d.blocks index p,
        Function.update d.blockSizes index n, d.errors⟩ := by
  simp only [returns_bind_iff, call_returns_iff, setBlock_returns_iff, setBlockSize_returns_iff,
    returns_pure_iff]
  refine ⟨fun h => ?_, fun h => ?_⟩
  · obtain ⟨_, _, ⟨σ₂, hset, rfl⟩, _, _, ⟨hi, rfl⟩, _, _, ⟨-, rfl⟩, -, rfl⟩ := h
    exact ⟨σ₂, hset, hi, rfl⟩
  · obtain ⟨σ₂, hset, hi, rfl⟩ := h
    exact ⟨(), _, ⟨σ₂, hset, rfl⟩, (), _, ⟨hi, rfl⟩, (), _, ⟨hi, rfl⟩, trivial, rfl⟩

/-- When a request to allocate passes. -/
theorem validOp_alloc_iff :
    Returns (validOp P supply tr tracenum i ⟨.alloc, index, size⟩) d true d' ↔
      supply i rangeSize = true ∧
      ∃ p σ₁ σ₂, Returns (P.mmMalloc (sizeT size)) d.machine p σ₁ ∧ p ≠ 0 ∧
        Accepts { d with machine := σ₁ } p size ∧
        Returns (memset p (UInt8.ofNat index) (sizeT size)) σ₁ () σ₂ ∧
        index < capacity tr.numIds 4 ∧
        d' = ⟨σ₂, ⟨p, lastByte p size⟩ :: d.ranges, Function.update d.blocks index p,
          Function.update d.blockSizes index (sizeT size), d.errors⟩ := by
  unfold validOp
  refine ⟨fun h => ?_, fun h => ?_⟩
  · obtain ⟨p, d₁, hcall, h⟩ := h.of_bind
    obtain ⟨σ₁, hmalloc, rfl⟩ := call_returns_iff.mp hcall
    split at h
    · exact absurd h not_complained
    next hp =>
    obtain ⟨ok, d₂, hadd, h⟩ := h.of_bind
    cases ok with
    | false => cases h
    | true =>
      obtain ⟨hs, hok, rfl⟩ := addRange_returns_iff.mp hadd
      obtain ⟨σ₂, hset, hi, rfl⟩ := remember_iff.mp h
      exact ⟨hs, p, σ₁, σ₂, hmalloc, hp, hok, hset, hi, rfl⟩
  · obtain ⟨hs, p, σ₁, σ₂, hmalloc, hp, hok, hset, hi, rfl⟩ := h
    refine (call_returns hmalloc).bind ?_
    rw [if_neg hp]
    exact (addRange_returns_iff.mpr ⟨hs, hok, rfl⟩).bind (remember_iff.mpr ⟨σ₂, hset, hi, rfl⟩)

/-- When a request to free passes. -/
theorem validOp_free_iff :
    Returns (validOp P supply tr tracenum i ⟨.free, index, size⟩) d true d' ↔
    ∃ σ₁, index < capacity tr.numIds 4 ∧ Returns (P.mmFree (d.blocks index)) d.machine () σ₁ ∧
      d' = { d with machine := σ₁, ranges := d.ranges.eraseP (·.lo = d.blocks index) } := by
  simp only [validOp, returns_bind_iff, call_returns_iff, getBlock_returns_iff,
    removeRange_returns_iff, returns_pure_iff]
  refine ⟨fun h => ?_, fun h => ?_⟩
  · obtain ⟨_, _, ⟨hi, rfl, rfl⟩, _, _, rfl, _, _, ⟨σ₁, hfree, rfl⟩, -, rfl⟩ := h
    exact ⟨σ₁, hi, hfree, rfl⟩
  · obtain ⟨σ₁, hi, hfree, rfl⟩ := h
    exact ⟨_, _, ⟨hi, rfl, rfl⟩, (), _, rfl, (), _, ⟨σ₁, hfree, rfl⟩, trivial, rfl⟩

/-- The bytes of a block that a reallocation has to keep. -/
def keptBytes (d : State A ρ) (index : Nat) (size : Int) : Nat :=
  (if size < toInt32 (d.blockSizes index) then size else toInt32 (d.blockSizes index)).toNat

/-- The driver before it checks the answer of `mm_realloc`. -/
def State.moved (d : State A ρ) (index : Nat) (σ₁ : Machine A ρ) : State A ρ :=
  { d with machine := σ₁, ranges := d.ranges.eraseP (·.lo = d.blocks index) }

/-- The comparison only reads. -/
theorem preserved_keeps {newp c left j : Nat} {ok : Bool} {σ σ' : Machine A ρ}
    (h : Returns (preserved newp c left j) σ ok σ') : σ' = σ := by
  induction left generalizing j with
  | zero => exact (returns_pure_iff.mp h).2
  | succ left ih =>
    obtain ⟨v, σ₁, hload, hrest⟩ := h.of_bind
    have hσ : σ₁ = σ := by
      unfold Returns loadChar at hload
      split at hload
      · cases hload
        rfl
      · cases hload
    rw [hσ] at hrest
    split at hrest
    · exact (returns_pure_iff.mp hrest).2
    · exact ih hrest

/-- When a request to reallocate passes. -/
theorem validOp_realloc_iff :
    Returns (validOp P supply tr tracenum i ⟨.realloc, index, size⟩) d true d' ↔
      supply i rangeSize = true ∧
      ∃ p σ₁ σ₂, index < capacity tr.numIds 4 ∧
        Returns (P.mmRealloc (d.blocks index) (sizeT size)) d.machine p σ₁ ∧ p ≠ 0 ∧
        Accepts (d.moved index σ₁) p size ∧
        Returns (preserved p (index % 256) (keptBytes d index size) 0) σ₁ true σ₁ ∧
        Returns (memset p (UInt8.ofNat index) (sizeT size)) σ₁ () σ₂ ∧
        d' = ⟨σ₂, ⟨p, lastByte p size⟩ :: (d.moved index σ₁).ranges,
          Function.update d.blocks index p, Function.update d.blockSizes index (sizeT size),
          d.errors⟩ := by
  unfold validOp
  refine ⟨fun h => ?_, fun h => ?_⟩
  · obtain ⟨oldp, d₁, hold, h⟩ := h.of_bind
    obtain ⟨hi, rfl, rfl⟩ := getBlock_returns_iff.mp hold
    obtain ⟨p, d₁, hcall, h⟩ := h.of_bind
    obtain ⟨σ₁, hrealloc, rfl⟩ := call_returns_iff.mp hcall
    split at h
    · exact absurd h not_complained
    next hp =>
    obtain ⟨_, d₁, hremove, h⟩ := h.of_bind
    obtain rfl := removeRange_returns_iff.mp hremove
    obtain ⟨ok, d₂, hadd, h⟩ := h.of_bind
    cases ok with
    | false => cases h
    | true =>
      obtain ⟨hs, hok, rfl⟩ := addRange_returns_iff.mp hadd
      obtain ⟨oldsize, d₁, hsize, h⟩ := h.of_bind
      obtain ⟨-, rfl, rfl⟩ := getBlockSize_returns_iff.mp hsize
      obtain ⟨same, d₁, hsame, h⟩ := h.of_bind
      obtain ⟨σ₁', hkept, rfl⟩ := call_returns_iff.mp hsame
      obtain rfl := preserved_keeps hkept
      cases same with
      | false => exact absurd h not_complained
      | true =>
        obtain ⟨σ₂, hset, -, rfl⟩ := remember_iff.mp h
        exact ⟨hs, p, _, σ₂, hi, hrealloc, hp, hok, hkept, hset, rfl⟩
  · obtain ⟨hs, p, σ₁, σ₂, hi, hrealloc, hp, hok, hkept, hset, rfl⟩ := h
    refine (getBlock_returns_iff.mpr ⟨hi, rfl, rfl⟩).bind ?_
    refine (call_returns hrealloc).bind ?_
    rw [if_neg hp]
    refine ((removeRange_returns_iff (u := ())).mpr rfl).bind ?_
    refine (addRange_returns_iff.mpr ⟨hs, hok, rfl⟩).bind ?_
    refine (getBlockSize_returns_iff.mpr ⟨hi, rfl, rfl⟩).bind ?_
    refine (call_returns hkept).bind ?_
    exact remember_iff.mpr ⟨σ₂, hset, hi, rfl⟩

end

end CToys.Malloc.Driver
