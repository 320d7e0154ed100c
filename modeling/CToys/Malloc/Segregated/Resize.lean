import CToys.Malloc.Exchange
import CToys.Malloc.Segregated.Realloc

/-!
# Reallocating on heaps

`mm_realloc` takes one of the bad paths if the call `Breaks`.  Otherwise what it does depends on
the heap alone: `Heap.resize` is the block that it returns and the heap that it leaves, or
`none` if it returns `NULL`.  The block stays, takes in the one behind it, reaches to the new
end of the heap, or moves.
-/

namespace CToys.Malloc.Segregated

variable {A : Arena}

/-- `mm_realloc` takes one of the two bad paths. -/
def Breaks (h : Heap) (s : Spot h.blocks) (n : Nat) : Prop := Overruns h s n ∨ Stuck h s n

instance (h : Heap) (s : Spot h.blocks) (n : Nat) : Decidable (Overruns h s n) :=
  inferInstanceAs (Decidable (_ ∧ _ ∧ _ ∧ _))

instance (h : Heap) (n : Nat) : Decidable (Starved h n) := inferInstanceAs (Decidable (_ ∧ _))

instance (h : Heap) (s : Spot h.blocks) (n : Nat) : Decidable (Stuck h s n) :=
  inferInstanceAs (Decidable (_ ∧ _ ∧ _))

instance (h : Heap) (s : Spot h.blocks) (n : Nat) : Decidable (Breaks h s n) :=
  inferInstanceAs (Decidable (_ ∨ _))

/-- The size of the block behind is a multiple of 8, also for the epilogue. -/
theorem nextSize_dvd (h : Heap) (s : Spot h.blocks) : 8 ∣ nextSize h s := by
  unfold nextSize
  cases hpost : s.post with
  | nil => exact Nat.dvd_zero 8
  | cons y rest =>
    have hy : y ∈ h.blocks := s.mem_of_sides (by simp [hpost])
    exact (h.shape.bounds hy).2.2.1

theorem reallocExtension_size (h : Heap) (s : Spot h.blocks) {n : Nat} (hn : 8 ∣ n) :
    8 ∣ reallocExtension h s n ∧ 16 ≤ reallocExtension h s n := by
  have hnext := nextSize_dvd h s
  have hsize := (h.shape.bounds s.mem).2.2.1
  have hchunk : chunksize = 4096 := rfl
  unfold reallocExtension
  omega

namespace Heap

/-- Free an allocated block of the heap. -/
def free (h : Heap) (b : Block) : Heap :=
  if hb : b ∈ h.blocks ∧ b.alloc = true then
    h.release (.of h.blocks b hb.1) (by rw [Spot.of_block]; exact hb.2)
  else h

section

variable (h : Heap) (s : Spot h.blocks) {n : Nat}

theorem free_spot (hal : s.block.alloc = true) : h.free s.block = h.release s hal := by
  have hspot : Spot.of h.blocks s.block s.mem = s :=
    Spot.eq_of_block h.shape (Spot.of_block s.mem)
  rw [free, dif_pos ⟨s.mem, hal⟩]
  congr 1

theorem free_alloc {b c : Block} (hb : b ∈ h.blocks) (hal : b.alloc = true)
    (hc : c.alloc = true) : c ∈ (h.free b).blocks ↔ c ∈ h.blocks ∧ c ≠ b := by
  obtain ⟨s, rfl⟩ := Spot.exists_of_mem hb
  rw [h.free_spot s hal]
  exact Layout.release_alloc hc

theorem free_brk (b : Block) : (h.free b).brk = h.brk := by
  unfold free
  split <;> rfl

/-- The block at `s` when nothing in use is behind it and the heap is extended. -/
def lastSpot (hal : s.block.alloc = true) (hopen : Open h s) (hlast : s.post.length ≤ 1)
    (m : Nat) (hm : 8 ∣ m ∧ 16 ≤ m) (hroom : h.brk + m ≤ maxHeap) :
    Spot (h.grow m hm hroom).blocks where
  pre := s.pre
  block := s.block
  post := [h.top m]
  split := by
    simp only [grow, Layout.grow, merge, (grow_last (m := m) hal hopen hlast).1,
      List.append_assoc, List.singleton_append]
    rfl

/-- Extend the heap, and let the block reach to its end. -/
def stretch (hal : s.block.alloc = true) (hopen : Open h s) (hlast : s.post.length ≤ 1)
    (m : Nat) (hm : 8 ∣ m ∧ 16 ≤ m) (hroom : h.brk + m ≤ maxHeap) : Block × Heap :=
  (joined s.block (h.top m),
    (h.grow m hm hroom).absorb (h.lastSpot s hal hopen hlast m hm hroom) hal rfl)

/-- `mm_realloc`: the block for `n` bytes and the heap after it. -/
def resize (hal : s.block.alloc = true) (n : Nat) (hn : 8 ∣ n ∧ 16 ≤ n) :
    Option (Block × Heap) :=
  if n ≤ s.block.size then some (s.block, h)
  else if hopen : Open h s then
    if s.block.size + nextSize h s < n then
      if hfits : s.post.length ≤ 1 ∧ h.brk + reallocExtension h s n ≤ maxHeap then
        some (h.stretch s hal hopen hfits.1 _ (reallocExtension_size h s hn.1) hfits.2)
      else none
    else
      match hpost : s.post with
      | [] => none
      | y :: _ => some (joined s.block y, h.absorb s hal hpost)
  else (h.malloc n hn).map fun r => (r.1, r.2.free s.block)

/-! ## The heap afterwards -/

variable {h s}

theorem absorb_exchanged {y : Block} {rest : List Block} (hal : s.block.alloc = true)
    (hpost : s.post = y :: rest) (hy : y.alloc = false) (hle : n ≤ s.block.size + y.size) :
    Exchanged h.toLayout s.block n (joined s.block y) (h.absorb s hal hpost).toLayout := by
  refine .inPlace s.mem rfl rfl hle fun c hc => ?_
  have hmem : c ∈ h.blocks ↔ c ∈ s.pre ++ [s.block, y] ++ rest := by
    rw [h.split_next s hpost]
  have hcy : c ≠ y := fun e => by
    rw [e, hy] at hc
    cases hc
  have hnot : c ∈ s.pre ++ s.post → c ≠ s.block := by
    rintro hm rfl
    exact (h.shape_at s).notMem hm
  rw [hpost] at hnot
  rw [hmem]
  simp only [absorb, List.mem_append, List.mem_cons, List.not_mem_nil, or_false, hcy,
    false_or] at hnot ⊢
  tauto

theorem stretch_exchanged (hal : s.block.alloc = true) (hopen : Open h s)
    (hlast : s.post.length ≤ 1) {m : Nat} (hm : 8 ∣ m ∧ 16 ≤ m) (hroom : h.brk + m ≤ maxHeap)
    (hle : n ≤ s.block.size + nextSize h s + m) :
    Exchanged h.toLayout s.block n (h.stretch s hal hopen hlast m hm hroom).1
      (h.stretch s hal hopen hlast m hm hroom).2.toLayout := by
  have htop := (grow_last (m := m) hal hopen hlast).2
  have hgrown : Exchanged (h.grow m hm hroom).toLayout s.block n (joined s.block (h.top m))
      (h.stretch s hal hopen hlast m hm hroom).2.toLayout :=
    absorb_exchanged (s := h.lastSpot s hal hopen hlast m hm hroom) hal rfl rfl (by
      change n ≤ s.block.size + (h.top m).size
      omega)
  exact hgrown.of_alloc fun c hc => Layout.grow_alloc hm hroom hc

theorem resize_exchanged {hal : s.block.alloc = true} {hn : 8 ∣ n ∧ 16 ≤ n} {t : Block}
    {h' : Heap} (hres : h.resize s hal n hn = some (t, h')) :
    Exchanged h.toLayout s.block n t h'.toLayout := by
  unfold resize at hres
  split at hres
  · next hle =>
    cases hres
    exact .refl s.mem hal hle
  split at hres
  · next hopen =>
    split at hres
    · split at hres
      · next hfits =>
        cases hres
        refine stretch_exchanged hal hopen hfits.1 _ _ ?_
        unfold reallocExtension
        omega
      · cases hres
    · next hgrow =>
      split at hres
      · cases hres
      · next y rest hpost =>
        cases hres
        refine absorb_exchanged hal hpost (hopen y (by simp [hpost])) ?_
        simpa [nextSize, hpost, nextOf] using hgrow
  · obtain ⟨r, hm, hr⟩ := Option.map_eq_some_iff.mp hres
    cases hr
    refine .move (malloc_served hm) s.mem hal fun c hc => r.2.free_alloc ?_ hal hc
    exact ((malloc_served hm).blocks _ hal).mpr (.inr s.mem)

theorem malloc_brk_le {hn : 8 ∣ n ∧ 16 ≤ n} {b : Block} {h' : Heap}
    (hm : h.malloc n hn = some (b, h')) : h.brk ≤ h'.brk ∧ h'.brk ≤ h.brk + extension n := by
  rcases h.malloc_cases n hn with ⟨s, hal, hle, -, heq⟩ | ⟨-, hgrow, heq⟩ | ⟨-, -, heq⟩
  · rw [heq] at hm
    cases hm
    exact ⟨Nat.le_refl _, Nat.le_add_right _ _⟩
  · rw [heq] at hm
    cases hm
    exact ⟨Nat.le_add_right _ _, Nat.le_refl _⟩
  · rw [heq] at hm
    cases hm

theorem resize_brk {hal : s.block.alloc = true} {hn : 8 ∣ n ∧ 16 ≤ n} {t : Block} {h' : Heap}
    (hres : h.resize s hal n hn = some (t, h')) :
    h.brk ≤ h'.brk ∧ h'.brk ≤ h.brk + extension n := by
  unfold resize at hres
  split at hres
  · cases hres
    exact ⟨Nat.le_refl _, Nat.le_add_right _ _⟩
  split at hres
  · split at hres
    · split at hres
      · cases hres
        refine ⟨Nat.le_add_right _ _, Nat.add_le_add_left ?_ _⟩
        unfold reallocExtension extension
        omega
      · cases hres
    · split at hres
      · cases hres
      · cases hres
        exact ⟨Nat.le_refl _, Nat.le_add_right _ _⟩
  · obtain ⟨r, hm, hr⟩ := Option.map_eq_some_iff.mp hres
    cases hr
    rw [free_brk]
    exact malloc_brk_le hm

/-- A call that does not break is refused only if the heap cannot grow. -/
theorem resize_refused {hal : s.block.alloc = true} {hn : 8 ∣ n ∧ 16 ≤ n}
    (hnot : ¬ Breaks h s n) (hres : h.resize s hal n hn = none) :
    maxHeap < h.brk + extension n := by
  unfold resize at hres
  split at hres
  · cases hres
  next hkeep =>
  split at hres
  · next hopen =>
    split at hres
    · next hgrow =>
      split at hres
      · cases hres
      · next hfits =>
        have hover : ¬ Overruns h s n := fun h => hnot (.inl h)
        have hle : reallocExtension h s n ≤ extension n := by
          unfold reallocExtension extension
          omega
        by_contra hroom
        refine hover ⟨hopen, ?_, hgrow, by omega⟩
        by_contra hlast
        exact hfits ⟨by omega, by omega⟩
    · next hgrow =>
      split at hres
      · next hpost =>
        -- the block alone is too small
        simp only [nextSize, hpost, nextOf, List.head?_nil, Option.getD_none,
          Block.epilogue] at hgrow
        omega
      · cases hres
  · next hopen =>
    rw [Option.map_eq_none_iff] at hres
    rcases h.malloc_cases n hn with ⟨_, _, _, -, heq⟩ | ⟨-, _, heq⟩ | ⟨-, hgrow, -⟩
    · cases heq.symm.trans hres
    · cases heq.symm.trans hres
    · exact hgrow

end

end Heap

/-! ## The machine afterwards -/

section

variable {σ : Machine A Statics} {h : Heap} {s : Spot h.blocks} {n size : Nat}

/-- The heap is extended and the last block takes the extension in. -/
theorem extendNext_stretch {m : Nat} (hr : Holds σ h) (hal : s.block.alloc = true)
    (hopen : Open h s) (hlast : s.post.length ≤ 1) (hm : 8 ∣ m ∧ 16 ≤ m)
    (hroom : h.brk + m ≤ maxHeap) :
    Ensures (extendNext (A.start + s.block.off) (s.block.size + nextSize h s) m) σ fun p σ' =>
      p = A.start + s.block.off ∧ Holds σ' (h.stretch s hal hopen hlast m hm hroom).2 := by
  have hA := A.pos
  have hmax := maxHeap_eq
  have hb := h.shape.bounds s.mem
  have hnext := (h.shape_at s).next
  have htop := (grow_last (m := m) hal hopen hlast).2
  have havail : add32 (s.block.size + nextSize h s) m = s.block.size + (h.top m).size := by
    unfold nextSize at *
    rw [add32_of_lt (by omega), htop, Nat.add_assoc]
  unfold extendNext
  refine (extendHeap_ensures hr hm hroom).bind ?_
  rintro p σ₁ ⟨rfl, hr₁, -⟩
  rw [if_neg (by omega), havail]
  exact (absorbNext_ensures (s := h.lastSpot s hal hopen hlast m hm hroom) hr₁ hal rfl rfl).mono
    fun _ _ hq => ⟨hq.1, hq.2.1⟩

/-- The block is moved to where `mm_malloc` finds room. -/
theorem relocate_moves {t : Block} {h₁ : Heap} (hr : Holds σ h) (hal : s.block.alloc = true)
    (hpos : 0 < size) (hsize : size ≤ 2 ^ 32 - 16) (hlarge : s.block.size < need size)
    (hm : h.malloc (need size) (need_ok size).1 = some (t, h₁)) :
    Ensures (relocate (A.start + s.block.off) size s.block.size) σ fun p σ' =>
      p = A.start + t.off ∧ Holds σ' (h₁.free s.block) := by
  obtain ⟨σ₁, σ₂, σ', h', hmoved⟩ := exists_relocated hr hal hpos hsize hlarge hm
  have hserved := Heap.malloc_served hm
  have hmem₁ : s.block ∈ h₁.blocks := (hserved.blocks _ hal).mpr (.inr s.mem)
  obtain ⟨s₁, hs₁⟩ := Spot.exists_of_mem hmem₁
  have hal₁ : s₁.block.alloc = true := by rw [hs₁, hal]
  have hb := h₁.shape.bounds hmem₁
  have ht := h₁.shape.bounds hserved.mem
  have hapart := hserved.apart s.block s.mem hal
  have henough := hserved.enough
  have hmove := memcpy_returns (A := A) (σ := σ₁) (d := t.off) (s := s.block.off)
    (n := s.block.size) (by omega) (by omega) (by omega)
  obtain ⟨-, rfl⟩ := hmoved.copy.unique hmove
  -- the copy stays within the payload of the new block
  have hr₂ := hmoved.holds.of_payload (m := σ₁.storage.copy t.off s.block.off s.block.size)
    fun a ha => Memory.copy_apply_of_ne (by
      have := ha t hserved.mem hserved.alloc
      unfold Block.Payload at this
      omega)
  obtain ⟨⟨⟩, σ₃, hfree, hr₃, -⟩ := mmFree_ensures hr₂ s₁ hal₁
  rw [hs₁] at hfree
  obtain ⟨-, rfl⟩ := hmoved.free.unique hfree
  refine ⟨_, _, hmoved.returns, rfl, ?_⟩
  rw [← hs₁, h₁.free_spot s₁ hal₁]
  exact hr₃

namespace Heap

variable {hal : s.block.alloc = true} {hn : 8 ∣ n ∧ 16 ≤ n}

theorem resize_keep (hkeep : n ≤ s.block.size) : h.resize s hal n hn = some (s.block, h) :=
  if_pos hkeep

theorem resize_stretch (hkeep : ¬ n ≤ s.block.size) (hopen : Open h s)
    (hgrow : s.block.size + nextSize h s < n) (hlast : s.post.length ≤ 1)
    (hroom : h.brk + reallocExtension h s n ≤ maxHeap) : h.resize s hal n hn =
      some (h.stretch s hal hopen hlast _ (reallocExtension_size h s hn.1) hroom) := by
  rw [resize, if_neg hkeep, dif_pos hopen, if_pos hgrow, dif_pos ⟨hlast, hroom⟩]

theorem resize_cramped (hkeep : ¬ n ≤ s.block.size) (hopen : Open h s)
    (hgrow : s.block.size + nextSize h s < n)
    (hroom : maxHeap < h.brk + reallocExtension h s n) : h.resize s hal n hn = none := by
  rw [resize, if_neg hkeep, dif_pos hopen, if_pos hgrow, dif_neg fun h => Nat.not_le.mpr hroom h.2]

theorem resize_absorb {y : Block} {rest : List Block} (hkeep : ¬ n ≤ s.block.size)
    (hopen : Open h s) (hgrow : ¬ s.block.size + nextSize h s < n) (hpost : s.post = y :: rest) :
    h.resize s hal n hn = some (joined s.block y, h.absorb s hal hpost) := by
  rw [resize, if_neg hkeep, dif_pos hopen, if_neg hgrow]
  split
  · next hnil =>
    rw [hnil] at hpost
    cases hpost
  · next y' rest' hpost' =>
    cases hpost'.symm.trans hpost
    rfl

theorem resize_move (hkeep : ¬ n ≤ s.block.size) (hopen : ¬ Open h s) :
    h.resize s hal n hn = (h.malloc n hn).map fun r => (r.1, r.2.free s.block) := by
  rw [resize, if_neg hkeep, dif_neg hopen]

end Heap

/-- The heap that `mm_realloc` leaves. -/
theorem mmRealloc_resize (hr : Holds σ h) (hal : s.block.alloc = true) (hpos : 0 < size)
    (hsize : size ≤ 2 ^ 32 - 16) (hnot : ¬ Breaks h s (need size)) :
    Ensures (mmRealloc (A.start + s.block.off) size) σ fun p σ' =>
      match h.resize s hal (need size) (need_ok size).1 with
      | some (b, h') => p = A.start + b.off ∧ Holds σ' h'
      | none => p = 0 ∧ σ' = σ := by
  obtain ⟨-, hlt⟩ := newSizeOf_eq hsize
  obtain ⟨hn, -⟩ := need_ok size
  refine .of_apply (mmRealloc_apply hr hpos hsize) ?_
  by_cases hkeep : need size ≤ s.block.size
  · rw [if_pos hkeep, Heap.resize_keep hkeep]
    exact .pure ⟨rfl, hr⟩
  rw [if_neg hkeep]
  by_cases hopen : Open h s
  · rw [if_pos hopen]
    by_cases hgrow : s.block.size + nextSize h s < need size
    · rw [if_pos hgrow]
      rcases Nat.lt_or_ge maxHeap (h.brk + reallocExtension h s (need size)) with hfull | hroom
      · rw [Heap.resize_cramped hkeep hopen hgrow hfull]
        exact (extend_refused hr hn.1 hlt hfull).ensures ⟨rfl, rfl⟩
      · have hlast : s.post.length ≤ 1 := by
          by_contra hlong
          exact hnot (.inl ⟨hopen, by omega, hgrow, hroom⟩)
        rw [Heap.resize_stretch hkeep hopen hgrow hlast hroom]
        exact extendNext_stretch hr hal hopen hlast _ hroom
    · rw [if_neg hgrow]
      cases hpost : s.post with
      | nil =>
        simp only [nextSize, hpost, nextOf, List.head?_nil, Option.getD_none,
          Block.epilogue] at hgrow
        omega
      | cons y rest =>
        have hnext : nextSize h s = y.size := by simp [nextSize, hpost, nextOf]
        rw [Heap.resize_absorb hkeep hopen hgrow hpost, hnext]
        exact (absorbNext_ensures hr hal hpost (hopen y (by simp [hpost]))).mono
          fun _ _ hq => ⟨hq.1, hq.2.1⟩
  · rw [if_neg hopen, Heap.resize_move hkeep hopen]
    cases hm : h.malloc (need size) (need_ok size).1 with
    | none =>
      rcases h.malloc_cases (need size) hn with
        ⟨_, _, _, -, heq⟩ | ⟨-, _, heq⟩ | ⟨hfit, hfull, -⟩
      · cases heq.symm.trans hm
      · cases heq.symm.trans hm
      · exact absurd (.inr ⟨hopen, Nat.not_le.mp hkeep, hfit, hfull⟩) hnot
    | some r => exact relocate_moves hr hal hpos hsize (Nat.not_le.mp hkeep) hm

/-- What `mm_realloc` does on a heap, if the call does not break. -/
theorem mmRealloc_resizes (hr : Holds σ h) (s : Spot h.blocks) (hal : s.block.alloc = true)
    (hpos : 0 < size) (hsize : size ≤ 2 ^ 32 - 16) (hnot : ¬ Breaks h s (need size)) :
    Ensures (mmRealloc (A.start + s.block.off) size) σ fun p σ' =>
      match h.resize s hal (need size) (need_ok size).1 with
      | some (b, h') => p = A.start + b.off ∧ Holds σ' h' ∧
          σ.storage.AgreeOn σ'.storage (InUse (s.pre ++ s.post)) ∧
          ∀ i < s.block.size - 8, σ'.storage (b.off + i) = σ.storage (s.block.off + i)
      | none => p = 0 ∧ σ' = σ := by
  have hA := A.pos
  obtain ⟨p, σ', hret, hq⟩ := mmRealloc_resize hr hal hpos hsize hnot
  refine ⟨p, σ', hret, ?_⟩
  cases hres : h.resize s hal (need size) (need_ok size).1 with
  | none => rwa [hres] at hq
  | some r =>
    rw [hres] at hq
    obtain ⟨rfl, hr'⟩ := hq
    rcases mmRealloc_cases hr s hal hpos hsize with
      ⟨-, -, -, b, h₁, σ₁, hret', hresized⟩ | ⟨-, hret'⟩ | ⟨hover, -⟩ | ⟨hstuck, -⟩
    · obtain ⟨hoff, rfl⟩ := hret'.unique hret
      have hoff : b.off = r.1.off := Nat.add_left_cancel hoff
      exact ⟨rfl, hr', hresized.frame, hoff ▸ hresized.contents⟩
    · exact absurd (hret'.unique hret).1 (by omega)
    · exact absurd (.inl hover) hnot
    · exact absurd (.inr hstuck) hnot

end

end CToys.Malloc.Segregated
