import CToys.Malloc.Segregated.Client

/-!
# Reuse of free memory

`mm_malloc` should grow the heap, or fail, only if no free block is large enough, and
allocating and freeing the same size over and over should grow the heap at most once.

Below `2 ^ 16` bytes this holds, since `find_fit` looks at every list that can hold a
large enough block.  From `2 ^ 16` bytes on `find_fit` looks at no list at all: its shift
does not come down to 1 within the 16 lists, while `insert_node` files such blocks in the
last one.  A block that was freed is then never used again, and the property holds only
if there is neither a large enough block nor room to grow.
-/

namespace CToys.Malloc.Segregated

variable {A : Arena}

/-- The heap has a free block of at least `n` bytes. -/
def HasFree (c : Client A Statics) (n : Nat) : Prop :=
  ∃ h, Holds c.machine h ∧ ∃ b ∈ h.blocks, b.alloc = false ∧ n ≤ b.size

/-- `mm_malloc` and `mm_free` of what it returned.  The label says what was returned and
whether the break moved. -/
inductive Cycle (r : Request) : Client A Statics → Nat × Bool → Client A Statics → Prop
  | served {c c₁ c₂ : Client A Statics} {p : Nat} : Step c (.malloc r p) c₁ → p ≠ 0 →
      Step c₁ (.free c.ledger.calls) c₂ →
      Cycle r c (p, decide (c₁.machine.memBrk ≠ c.machine.memBrk)) c₂
  | refused {c c₁ : Client A Statics} : Step c (.malloc r 0) c₁ →
      Cycle r c (0, decide (c₁.machine.memBrk ≠ c.machine.memBrk)) c₁

/-- Free memory is reused. -/
structure Reuses (r : Request) (c : Client A Statics) : Prop where
  /-- The heap grows, or the call fails, only without a free block that is large enough. -/
  grows : ∀ p c', Step c (.malloc r p) c' →
    p = 0 ∨ c'.machine.memBrk ≠ c.machine.memBrk → ¬ HasFree c (need r.1)
  /-- In a row of cycles the heap grows once and no call fails after one that did not. -/
  cycles : ∀ ls c', Run (Cycle r) c ls c' →
    ls.countP (·.2) ≤ 1 ∧ ls.Pairwise fun x y => x.1 ≠ 0 → y.1 ≠ 0

section

variable {c c' : Client A Statics} {h : Heap} {r : Request} {x : Nat × Bool}

theorem Sound.hasFree_iff (hs : Sound c h) {n : Nat} :
    HasFree c n ↔ ∃ b ∈ h.blocks, b.alloc = false ∧ n ≤ b.size := by
  constructor
  · rintro ⟨h', hr, hfree⟩
    rwa [hr.blocks_eq hs.holds] at hfree
  · exact fun hfree => ⟨h, hs.holds, hfree⟩

theorem Sound.memBrk_ne_iff {h' : Heap} (hs : Sound c h) (hs' : Sound c' h') :
    c'.machine.memBrk ≠ c.machine.memBrk ↔ h'.brk ≠ h.brk := by
  rw [hs.holds.brk, hs'.holds.brk]
  omega

/-- A freed block is a free block that is large enough again. -/
theorem Heap.release_free (h : Heap) (s : Spot h.blocks) (hal : s.block.alloc = true) :
    ∃ b ∈ (h.release s hal).blocks, b.alloc = false ∧ s.block.size ≤ b.size := by
  have hcov := merged_covers (h.shape_freed s)
  refine ⟨merged s.pre s.block.freed s.post, by simp [release, Layout.release, merge], rfl, ?_⟩
  simp only [Block.freed] at *
  omega

/-! ## One cycle -/

/-- What a cycle does: nothing if the call is refused.  Otherwise the break moves if no
fit is found, and there is a large enough free block afterwards. -/
theorem Cycle.cases (hc : Cycle r c x c') (hs : Sound c h) :
    (h.malloc (need r.1) (need_ok r.1).1 = none ∧ x = (0, false) ∧ Sound c' h) ∨
    (x.1 ≠ 0 ∧ (x.2 = true ↔ fit h.bins (need r.1) = none) ∧
      ∃ h', Sound c' h' ∧ ∃ b ∈ h'.blocks, b.alloc = false ∧ need r.1 ≤ b.size) := by
  cases hc with
  | @served c₁ c₂ p hm hp hf =>
    cases hm with | @malloc _ _ σ₁ hret =>
    rcases hs.malloc r with ⟨b, h₁, hmalloc, σ, hret', hs₁, -⟩ | ⟨-, hret', -⟩
    swap
    · exact absurd (hret'.unique hret).1.symm hp
    obtain ⟨rfl, rfl⟩ := hret'.unique hret
    cases hf with | @free _ g σ₂ hk hret₂ =>
    -- the block that is freed is the one that was taken
    obtain ⟨s, hal, hg, hsize⟩ := hs₁.spot hk
    obtain ⟨σ, hret₂', hs₂, -⟩ := hs₁.free hk s hal hg
    obtain ⟨-, rfl⟩ := hret₂'.unique hret₂
    have hlive : (c.ledger.record (A.start + b.off) r.1).live c.ledger.calls = _ :=
      Ledger.record_live_self _ _ hp
    obtain rfl := Option.some.inj (hk.symm.trans hlive)
    obtain ⟨b', hb', hal', hle⟩ := h₁.release_free s hal
    refine .inr ⟨hp, ?_, _, hs₂, b', hb', hal', ?_⟩
    · rw [decide_eq_true_iff, hs.memBrk_ne_iff hs₁, Heap.malloc_brk hmalloc]
    · simp only at hsize
      omega
  | @refused c₁ hm =>
    cases hm with | @malloc _ _ σ₁ hret =>
    rcases hs.malloc r with ⟨b, h₁, -, σ, hret', -⟩ | ⟨hmalloc, hret', hs'⟩
    · have := A.pos
      have := (hret'.unique hret).1
      omega
    · obtain ⟨-, rfl⟩ := hret'.unique hret
      exact .inl ⟨hmalloc, by simp, hs'⟩

/-- There is always a next cycle. -/
theorem Sound.cycle (hs : Sound c h) (r : Request) : ∃ x c', Cycle r c x c' := by
  have hA := A.pos
  rcases hs.malloc r with ⟨b, h₁, -, σ, hret, hs₁, -⟩ | ⟨-, hret, -⟩
  · have hp : A.start + b.off ≠ 0 := by omega
    have hk := c.ledger.record_live_self r.1 hp
    obtain ⟨s, hal, hg, -⟩ := hs₁.spot hk
    obtain ⟨σ₂, hret₂, -⟩ := hs₁.free hk s hal hg
    exact ⟨_, _, .served (.malloc hret) hp (.free hk hret₂)⟩
  · exact ⟨_, _, .refused (.malloc hret)⟩

/-! ## Many cycles -/

/-- As long as requests are refused, nothing changes. -/
theorem cycles_refused {ls : List (Nat × Bool)} (hrun : Run (Cycle r) c ls c')
    (hs : Sound c h) (hm : h.malloc (need r.1) (need_ok r.1).1 = none) :
    ∀ x ∈ ls, x = (0, false) := by
  induction hrun with
  | nil => simp
  | cons hc _ ih =>
    rcases hc.cases hs with ⟨-, hx, hs'⟩ | ⟨hx, -, -⟩
    · exact List.forall_mem_cons.mpr ⟨hx, ih hs'⟩
    · -- a cycle that served the request would have found a block
      exfalso
      cases hc with
      | served hstep hp _ =>
        cases hstep with | @malloc _ _ σ₁ hret =>
        rcases hs.malloc r with ⟨b, h₁, hmalloc, -⟩ | ⟨-, hret', -⟩
        · rw [hm] at hmalloc
          cases hmalloc
        · exact hp (hret'.unique hret).1.symm
      | refused _ => exact hx rfl

/-- With a large enough free block in reach, every cycle reuses one. -/
theorem cycles_served {ls : List (Nat × Bool)} (hrun : Run (Cycle r) c ls c')
    (hn : need r.1 < 2 ^ 16) (hs : Sound c h)
    (hfree : ∃ b ∈ h.blocks, b.alloc = false ∧ need r.1 ≤ b.size) :
    ∀ x ∈ ls, x.1 ≠ 0 ∧ x.2 = false := by
  induction hrun generalizing h with
  | nil => simp
  | cons hc _ ih =>
    have hfit : fit h.bins (need r.1) ≠ none := by
      rw [Ne, h.filed.fit_eq_none hn]
      obtain ⟨b, hb, hal, hle⟩ := hfree
      exact fun hall => absurd (hall b hb hal) (by omega)
    rcases hc.cases hs with ⟨hm, -, -⟩ | ⟨hx, hgrow, h', hs', hfree'⟩
    · rcases h.malloc_cases (need r.1) (need_ok r.1).1 with
        ⟨s, hal, hle, -, heq⟩ | ⟨hnone, -⟩ | ⟨hnone, -⟩
      · rw [hm] at heq
        cases heq
      · exact absurd hnone hfit
      · exact absurd hnone hfit
    · refine List.forall_mem_cons.mpr ⟨⟨hx, ?_⟩, ih hs' hfree'⟩
      rw [← Bool.not_eq_true, hgrow]
      exact hfit

end

/-! ## When free memory is reused -/

section

variable {c : Client A Statics} {r : Request}

/-- A request that is refused from the start keeps being refused. -/
private theorem reuses_of_refused {h : Heap} (hs : Sound c h)
    (hm : h.malloc (need r.1) (need_ok r.1).1 = none) (hnot : ¬ HasFree c (need r.1)) :
    Reuses r c := by
  refine ⟨fun _ _ _ _ => hnot, fun ls c' hrun => ?_⟩
  have hall := cycles_refused hrun hs hm
  constructor
  · rw [List.countP_eq_zero.mpr fun x hx => by simp [hall x hx]]
    exact Nat.zero_le 1
  · exact List.pairwise_of_forall_mem_list fun x hx y _ h => absurd (by rw [hall x hx]) h

/-- Below `2 ^ 16` bytes. -/
private theorem reuses_of_lt {h : Heap} (hs : Sound c h) (hn : need r.1 < 2 ^ 16) :
    Reuses r c := by
  have hfit : fit h.bins (need r.1) = none ↔ ¬ HasFree c (need r.1) := by
    rw [h.filed.fit_eq_none hn, hs.hasFree_iff]
    push Not
    exact Iff.rfl
  refine ⟨fun p c' hstep hor => ?_, fun ls c' hrun => ?_⟩
  · rw [← hfit]
    cases hstep with | @malloc _ _ σ hret =>
    rcases hs.malloc r with ⟨b, h', hm, σ', hret', hs', -⟩ | ⟨hm, hret', -⟩
    · obtain ⟨rfl, rfl⟩ := hret'.unique hret
      have hA := A.pos
      rcases hor with hp | hbrk
      · omega
      · rwa [hs.memBrk_ne_iff hs', Heap.malloc_brk hm] at hbrk
    · rcases h.malloc_cases (need r.1) (need_ok r.1).1 with
        ⟨s, hal, hle, -, heq⟩ | ⟨hnone, -⟩ | ⟨hnone, -⟩
      · rw [hm] at heq
        cases heq
      · exact hnone
      · exact hnone
  · cases hrun with
    | nil => simp
    | @cons _ c₁ _ x ls hc hrest =>
      rcases hc.cases hs with ⟨hm, hx, hs₁⟩ | ⟨hx, -, h₁, hs₁, hfree⟩
      · have hall := cycles_refused (.cons hc hrest) hs hm
        constructor
        · rw [List.countP_eq_zero.mpr fun y hy => by simp [hall y hy]]
          exact Nat.zero_le 1
        · exact List.pairwise_of_forall_mem_list fun y hy z _ h => absurd (by rw [hall y hy]) h
      · have hall := cycles_served hrest hn hs₁ hfree
        constructor
        · rw [List.countP_cons, List.countP_eq_zero.mpr fun y hy => by simp [hall y hy]]
          split <;> omega
        · refine List.pairwise_cons.mpr ⟨fun y hy _ => (hall y hy).1, ?_⟩
          exact List.pairwise_of_forall_mem_list fun _ _ y hy _ => (hall y hy).1

/-- From `2 ^ 16` bytes on the first call already takes new memory or fails. -/
private theorem not_hasFree_of_ge {h : Heap} (hs : Sound c h) (hn : 2 ^ 16 ≤ need r.1)
    (hreuse : Reuses r c) : ¬ HasFree c (need r.1) := by
  rcases hs.malloc r with ⟨b, h', hm, σ, hret, hs', -⟩ | ⟨-, hret, -⟩
  · refine hreuse.grows _ _ (.malloc hret) (.inr ?_)
    exact (hs.memBrk_ne_iff hs').mpr ((Heap.malloc_brk hm).mpr (fit_of_ge hn))
  · exact hreuse.grows _ _ (.malloc hret) (.inl rfl)

/-- From `2 ^ 16` bytes on a second cycle takes new memory again or fails. -/
private theorem no_room_of_ge {h : Heap} (hs : Sound c h) (hn : 2 ^ 16 ≤ need r.1)
    (hreuse : Reuses r c) : maxHeap < h.brk + need r.1 := by
  by_contra hroom
  have hext : extension (need r.1) = need r.1 := by
    have hchunk : chunksize = 4096 := rfl
    unfold extension
    omega
  obtain ⟨x, c₁, hc₁⟩ := hs.cycle r
  rcases hc₁.cases hs with ⟨hm, -, -⟩ | ⟨hx, hgrow, h₁, hs₁, -⟩
  · rcases h.malloc_cases (need r.1) (need_ok r.1).1 with
      ⟨s, hal, hle, -, heq⟩ | ⟨-, hgrow, heq⟩ | ⟨-, hfull, -⟩
    · rw [hm] at heq
      cases heq
    · rw [hm] at heq
      cases heq
    · omega
  · have hx₂ : x.2 = true := hgrow.mpr (fit_of_ge hn)
    obtain ⟨y, c₂, hc₂⟩ := hs₁.cycle r
    obtain ⟨hcount, hfail⟩ := hreuse.cycles [x, y] c₂ (.cons hc₁ (.single hc₂))
    rcases hc₂.cases hs₁ with ⟨-, hy, -⟩ | ⟨-, hgrow', -⟩
    · have := (List.pairwise_pair.mp hfail) hx
      rw [hy] at this
      exact this rfl
    · have hy₂ : y.2 = true := hgrow'.mpr (fit_of_ge hn)
      simp [hx₂, hy₂] at hcount

/-- Free memory is reused exactly for requests below `2 ^ 16` bytes, and where there is
neither a large enough free block nor room for a new one. -/
theorem reuses_iff (hc : Reachable c) (r : Request) :
    Reuses r c ↔ need r.1 < 2 ^ 16 ∨
      (¬ HasFree c (need r.1) ∧ A.start + maxHeap < c.machine.memBrk + need r.1) := by
  obtain ⟨h, hs⟩ := hc.sound
  have hbrk := hs.holds.brk
  constructor
  · intro hreuse
    by_cases hn : need r.1 < 2 ^ 16
    · exact .inl hn
    · have hn : 2 ^ 16 ≤ need r.1 := Nat.not_lt.mp hn
      have := no_room_of_ge hs hn hreuse
      exact .inr ⟨not_hasFree_of_ge hs hn hreuse, by omega⟩
  · rintro (hn | ⟨hfree, hroom⟩)
    · exact reuses_of_lt hs hn
    · rcases h.malloc_cases (need r.1) (need_ok r.1).1 with
        ⟨s, hal, hle, -, -⟩ | ⟨-, hgrow, -⟩ | ⟨-, -, hm⟩
      · exact absurd (hs.hasFree_iff.mpr ⟨s.block, s.mem, hal, hle⟩) hfree
      · have : need r.1 ≤ extension (need r.1) := Nat.le_max_left _ _
        omega
      · exact reuses_of_refused hs hm hfree

theorem booted_reuses : Reuses .small booted :=
  (reuses_iff booted_started.reachable .small).mpr (.inl (by decide))

private theorem cycle_of_result {p : Nat} {grew : Bool}
    (hm : result (mmMalloc r.1) c.machine = some p) (hp : p ≠ 0)
    (hf : result (mmFree p) (mallocAt c r p).machine = some ())
    (hgrew : decide ((mallocAt c r p).machine.memBrk ≠ c.machine.memBrk) = grew) :
    Cycle r c (p, grew) (freeAt (mallocAt c r p) c.ledger.calls p) := by
  subst hgrew
  exact .served (step_mallocAt hm) hp (step_freeAt (Ledger.record_live_self _ _ hp) hf)

/-- A request for a block of 65536 bytes takes new memory every time. -/
theorem not_reuses_booted : Reachable booted ∧ ¬ Reuses ⟨65528, by decide⟩ booted := by
  refine ⟨booted_started.reachable, fun hreuse => ?_⟩
  have h₁ : Cycle ⟨65528, by decide⟩ booted (8208, true) _ :=
    cycle_of_result (by decide +kernel) (by decide) (by decide +kernel) (by decide +kernel)
  have h₂ : Cycle ⟨65528, by decide⟩ (freeAt (mallocAt booted ⟨65528, by decide⟩ 8208) 0 8208)
      (73744, true) _ :=
    cycle_of_result (by decide +kernel) (by decide) (by decide +kernel) (by decide +kernel)
  obtain ⟨hcount, -⟩ := hreuse.cycles _ _ (.cons h₁ (.single h₂))
  exact absurd hcount (by decide)

end

end CToys.Malloc.Segregated
