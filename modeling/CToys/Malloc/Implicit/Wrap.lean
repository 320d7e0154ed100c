import CToys.Malloc.Implicit.Client

/-!
# Sizes that wrap

As in the segregated allocator, the block size for the last 15 sizes comes out as 0 or 8.
Any free block fits then, and `place` writes headers of that size into it.  All other
sizes are served or refused properly.
-/

namespace CToys.Malloc.Implicit

variable {A : Arena}

/-- The blocks that one finds by following the headers from the prologue on tile the heap up
to the epilogue. -/
structure Walks (m : Memory) (bs : List Block) (e : Nat) : Prop where
  shape : Shape bs e
  prologue : HasTag m 4 8 true
  header : ∀ b ∈ bs, HasTag m (b.off - 4) b.size b.alloc
  epilogue : HasTag m (e - 4) 0 true

/-- `mm_malloc(size)` returns `NULL` and changes nothing, or it leaves a heap of proper
blocks and returns one with `size` payload bytes. -/
def MallocFits (σ : Machine A Statics) (size : Nat) : Prop :=
  ∃ p σ', Returns (mmMalloc size) σ p σ' ∧ (p = 0 ∧ σ' = σ ∨
    ∃ bs e b, σ'.memBrk = A.start + e ∧ Walks σ'.storage bs e ∧ b ∈ bs ∧
      p = A.start + b.off ∧ size + 8 ≤ b.size)

/-- The block size for a request that wraps. -/
theorem newSizeOf_wraps {size : Nat} (hsize : 2 ^ 32 - 16 < size) (hlt : size < 2 ^ 32) :
    newSizeOf size ≤ 8 := by
  unfold newSizeOf mul32 add32 dsize
  rw [if_neg (by omega)]
  omega

section

variable {σ : Machine A Statics} {h : Heap} {size : Nat}

/-- All other requests are served or refused. -/
private theorem mallocFits_of_le (hr : Holds σ h) (hpos : 0 < size)
    (hsize : size ≤ 2 ^ 32 - 16) : MallocFits σ size := by
  have hneed := (need_ok size).2
  obtain ⟨p, σ', hret, hq⟩ := mmMalloc_ensures hr hpos hsize
  refine ⟨p, σ', hret, ?_⟩
  cases hm : h.malloc (need size) (need_ok size).1 with
  | none =>
    rw [hm] at hq
    exact .inl hq
  | some res =>
    obtain ⟨b, h'⟩ := res
    rw [hm] at hq
    obtain ⟨rfl, hr', -⟩ := hq
    have hserved := Heap.malloc_served hm
    have henough := hserved.enough
    have ht := hr'.tagged
    exact .inr ⟨h'.blocks, h'.brk, b, hr'.brk,
      ⟨h'.shape, ht.prologueHeader, ht.header, ht.epilogue⟩, hserved.mem, rfl, by omega⟩

/-- Where a request that wraps is refused. -/
private theorem mallocFits_of_wraps (hr : Holds σ h) (hsize : 2 ^ 32 - 16 < size)
    (hlt : size < 2 ^ 32) : MallocFits σ size ↔
      (∀ b ∈ h.blocks, b.alloc = true) ∧ maxHeap < h.brk + chunksize := by
  have hA := A.pos
  have hmax := maxHeap_eq
  have hchunk : chunksize = 4096 := rfl
  have hnew := newSizeOf_wraps hsize hlt
  have hext : mmMax (newSizeOf size) chunksize = chunksize := if_neg (by omega)
  -- no block has room for such a request
  have hplace {ptr : Nat} (hptr : ptr ≠ 0) {σ₁ : Machine A Statics} : ¬ ∃ p σ',
      Returns (do place ptr (newSizeOf size); return ptr) σ₁ p σ' ∧ (p = 0 ∧ σ' = σ ∨
        ∃ bs e b, σ'.memBrk = A.start + e ∧ Walks σ'.storage bs e ∧ b ∈ bs ∧
          p = A.start + b.off ∧ size + 8 ≤ b.size) := by
    rintro ⟨p, σ', hret, hor⟩
    obtain rfl : p = ptr :=
      (Yields.bind fun _ => .pure rfl : Yields _ (· = ptr)) σ₁ p σ' hret
    rcases hor with hnull | ⟨bs, e, b, -, hwalks, hb, -, hle⟩
    · exact hptr hnull.1
    · have := hwalks.shape.bounds hb
      omega
  have hnone : fit h.blocks h.rover (newSizeOf size) = none ↔
      ∀ b ∈ h.blocks, b.alloc = true := by
    rw [fit_eq_none]
    refine forall₂_congr fun b hb => ?_
    have := (h.shape.size b hb).2
    cases b.alloc
    · simp
      omega
    · simp
  have hfind := findFit_returns (n := newSizeOf size) hr h.shape h.current
  unfold MallocFits Returns mmMalloc
  rw [if_neg (by omega), hfind.bind_apply, hext]
  cases hfit : fit h.blocks h.rover (newSizeOf size) with
  | some b =>
    have hptr : (hit A (some b)).getD 0 = A.start + b.off := rfl
    rw [hptr, if_pos (by omega)]
    refine iff_of_false (hplace (by omega)) fun hfull => ?_
    rw [hnone.mpr hfull.1] at hfit
    cases hfit
  | none =>
    rw [if_neg (by simp [hit]), roverTo]
    rcases Nat.lt_or_ge maxHeap (h.brk + chunksize) with hfull | hroom
    · refine iff_of_true ⟨0, σ, ?_, .inl ⟨rfl, rfl⟩⟩ ⟨hnone.mp hfit, hfull⟩
      rw [(extendHeap_refused hr (by decide) (by decide) hfull).bind_apply, if_pos rfl]
      rfl
    · refine iff_of_false ?_ fun hfull => absurd hfull.2 (Nat.not_lt.mpr hroom)
      obtain ⟨p, σ₁, hret, rfl, -⟩ := extendHeap_ensures hr (by decide) hroom
      rw [hret.bind_apply, if_neg (by omega)]
      exact hplace (by omega)

end

/-- Which sizes do not break the heap. -/
theorem mallocFits_iff {c : Client A Statics} (hc : Reachable c) :
    ∃ h, Sound c h ∧ ∀ size, 1 ≤ size → size < 2 ^ 32 →
      (MallocFits c.machine size ↔ size ≤ 2 ^ 32 - 16 ∨
        ((∀ b ∈ h.blocks, b.alloc = true) ∧ maxHeap < h.brk + chunksize)) := by
  obtain ⟨h, hs⟩ := hc.sound
  refine ⟨h, hs, fun size hpos hlt => ?_⟩
  rcases Nat.lt_or_ge (2 ^ 32 - 16) size with hwraps | hle
  · rw [mallocFits_of_wraps hs.holds hwraps hlt]
    exact ⟨.inr, fun h => h.resolve_left (Nat.not_le.mpr hwraps)⟩
  · exact iff_of_true (mallocFits_of_le hs.holds hpos hle) (.inl hle)

theorem single_mallocFits : MallocFits single.machine 24 := by
  obtain ⟨h, -, hiff⟩ := mallocFits_iff single_reachable
  exact (hiff 24 (by decide) (by decide)).mpr (.inl (by decide))

/-- A request for all of the address space is served with a block of 8 bytes. -/
theorem not_mallocFits_booted :
    Reachable booted ∧ ¬ MallocFits booted.machine (2 ^ 32 - 1) := by
  refine ⟨booted_started.reachable, ?_⟩
  rintro ⟨p, σ', hret, hor⟩
  have hserved : result (mmMalloc (2 ^ 32 - 1)) booted.machine = some 4112 := by decide +kernel
  obtain ⟨rfl, -⟩ := (Returns.of_result hserved).unique hret
  rcases hor with hnull | ⟨bs, e, b, -, hwalks, hb, -, hle⟩
  · exact absurd hnull.1 (by decide)
  · have := hwalks.shape.bounds hb
    have := maxHeap_eq
    omega

end CToys.Malloc.Implicit
