import CToys.Malloc.Driver.Program
import CToys.Malloc.Implicit.Realloc
import CToys.Malloc.Segregated.Resize

/-!
# What the driver relies on

The driver knows a package by its four functions.  An `Interface` says what they do in terms
of heaps: which block is handed out and which heap is left depend on the heap alone, so two
machines that hold the same heap go on alike.  Both allocators have one.

`breaks` are the calls of `mm_realloc` of which nothing is said.  The implicit allocator has no
such calls.  The segregated allocator has those that overrun other blocks or copy to `NULL`.
-/

namespace CToys.Malloc

namespace Driver

variable {A : Arena} {ρ : Type}

/-- What the functions of a package do to the heap. -/
structure Interface (P : Package A ρ) where
  Heap : Type
  /-- The machine holds the heap. -/
  Holds : Machine A ρ → Heap → Prop
  layout : Heap → Layout
  /-- The heap after `mm_init`. -/
  initial : Heap
  /-- The block for a request, and the heap after it. -/
  malloc : Heap → (size : Nat) → Option (Block × Heap)
  /-- The heap after the block is freed. -/
  free : Heap → Block → Heap
  /-- The block that is given for an old one, and the heap after it. -/
  realloc : Heap → Block → (size : Nat) → Option (Block × Heap)
  /-- `mm_realloc` goes wrong. -/
  breaks : Heap → Block → (size : Nat) → Bool
  initial_free : ∀ b ∈ (layout initial).blocks, b.alloc = false
  initial_brk : (layout initial).brk = 16 + chunksize
  brk : ∀ {σ h}, Holds σ h → σ.memBrk = A.start + (layout h).brk
  of_payload : ∀ {σ h m}, Holds σ h → σ.storage.AgreeOn m
    (fun a => ∀ b ∈ (layout h).blocks, b.alloc = true → ¬ b.Payload a) → Holds (σ.withStorage m) h
  malloc_served : ∀ {h size b h'}, malloc h size = some (b, h') →
    Served (layout h) (need size) b (layout h')
  malloc_brk : ∀ {h size b h'}, malloc h size = some (b, h') → (layout h).brk ≤ (layout h').brk ∧
    (layout h').brk ≤ (layout h).brk + extension (need size)
  malloc_refused : ∀ {h size}, malloc h size = none →
    maxHeap < (layout h).brk + extension (need size)
  free_alloc : ∀ {h b}, b ∈ (layout h).blocks → b.alloc = true → ∀ c, c.alloc = true →
    (c ∈ (layout (free h b)).blocks ↔ c ∈ (layout h).blocks ∧ c ≠ b)
  free_brk : ∀ h b, (layout (free h b)).brk = (layout h).brk
  realloc_exchanged : ∀ {h b size t h'}, b ∈ (layout h).blocks → b.alloc = true →
    realloc h b size = some (t, h') → Exchanged (layout h) b (need size) t (layout h')
  realloc_brk : ∀ {h b size t h'}, realloc h b size = some (t, h') →
    (layout h).brk ≤ (layout h').brk ∧
      (layout h').brk ≤ (layout h).brk + extension (need size)
  realloc_refused : ∀ {h b size}, b ∈ (layout h).blocks → b.alloc = true →
    breaks h b size = false → realloc h b size = none →
      maxHeap < (layout h).brk + extension (need size)
  mmInit_ensures : ∀ {σ : Machine A ρ}, σ.memBrk = A.start →
    Ensures P.mmInit σ fun r σ' => r = 0 ∧ Holds σ' initial
  mmMalloc_ensures : ∀ {σ h size}, Holds σ h → 0 < size → size ≤ intMax →
    Ensures (P.mmMalloc size) σ fun p σ' =>
      match malloc h size with
      | some (b, h') => p = A.start + b.off ∧ Holds σ' h' ∧
          σ.storage.AgreeOn σ'.storage (InUse (layout h).blocks)
      | none => p = 0 ∧ σ' = σ
  mmFree_ensures : ∀ {σ h b}, Holds σ h → b ∈ (layout h).blocks → b.alloc = true →
    Ensures (P.mmFree (A.start + b.off)) σ fun _ σ' => Holds σ' (free h b) ∧
      σ.storage.AgreeOn σ'.storage (InUse (layout (free h b)).blocks)
  mmRealloc_ensures : ∀ {σ h b size}, Holds σ h → b ∈ (layout h).blocks → b.alloc = true →
    0 < size → size ≤ intMax → breaks h b size = false →
    Ensures (P.mmRealloc (A.start + b.off) size) σ fun p σ' =>
      match realloc h b size with
      | some (t, h') => p = A.start + t.off ∧ Holds σ' h' ∧
          σ.storage.AgreeOn σ'.storage
            (fun a => ∃ c ∈ (layout h).blocks, c.alloc = true ∧ c ≠ b ∧ c.Payload a) ∧
          ∀ i < min (b.size - 8) size, σ'.storage (t.off + i) = σ.storage (b.off + i)
      | none => p = 0 ∧ σ' = σ

theorem size_ok {size : Nat} (h : size ≤ intMax) : size ≤ 2 ^ 32 - 16 := by
  have hint : intMax = 2147483647 := rfl
  omega

/-! ## The implicit allocator -/

/-- `mm_implicit.c`. -/
def implicitPackage (A : Arena) : Package A Implicit.Statics :=
  ⟨Implicit.mmInit, Implicit.mmMalloc, Implicit.mmFree, Implicit.mmRealloc⟩

/-- Free a block of the heap. -/
def implicitFree (h : Implicit.Heap) (b : Block) : Implicit.Heap :=
  if hb : b ∈ h.blocks then h.release (.of h.blocks b hb) else h

theorem implicitFree_spot {h : Implicit.Heap} (s : Spot h.blocks) :
    implicitFree h s.block = h.release s := by
  have hspot : Spot.of h.blocks s.block s.mem = s :=
    Spot.eq_of_block h.shape (Spot.of_block s.mem)
  rw [implicitFree, dif_pos s.mem, hspot]

/-- After a move the old block is free. -/
theorem holds_moved {σ σ' : Machine A Implicit.Statics} {h h' : Implicit.Heap}
    {s : Spot h.blocks} {s' : Spot h'.blocks} {size : Nat} {b : Block}
    (hmoved : Implicit.Moved s size σ σ' b h' s') :
    Implicit.Holds σ' (implicitFree h' s.block) := by
  rw [← hmoved.same, implicitFree_spot]
  exact hmoved.holds

theorem implicit_malloc_brk {h h' : Implicit.Heap} {n : Nat} {hn : 8 ∣ n ∧ 16 ≤ n} {b : Block}
    (hm : h.malloc n hn = some (b, h')) : h.brk ≤ h'.brk ∧ h'.brk ≤ h.brk + extension n := by
  rcases h.malloc_cases n hn with ⟨s, hal, hle, -, heq⟩ | ⟨-, hgrow, heq⟩ | ⟨-, -, heq⟩
  · rw [heq] at hm
    cases hm
    exact ⟨Nat.le_refl _, Nat.le_add_right _ _⟩
  · rw [heq] at hm
    cases hm
    exact ⟨Nat.le_add_right _ _, Nat.le_refl _⟩
  · rw [heq] at hm
    cases hm

theorem implicit_malloc_refused {h : Implicit.Heap} {n : Nat} {hn : 8 ∣ n ∧ 16 ≤ n}
    (hm : h.malloc n hn = none) : maxHeap < h.brk + extension n := by
  rcases h.malloc_cases n hn with ⟨_, _, _, -, heq⟩ | ⟨-, _, heq⟩ | ⟨-, hgrow, -⟩
  · cases heq.symm.trans hm
  · cases heq.symm.trans hm
  · exact hgrow

theorem implicitFree_alloc {h : Implicit.Heap} {b c : Block} (hb : b ∈ h.blocks)
    (hc : c.alloc = true) : c ∈ (implicitFree h b).blocks ↔ c ∈ h.blocks ∧ c ≠ b := by
  obtain ⟨s, rfl⟩ := Spot.exists_of_mem hb
  rw [implicitFree_spot]
  exact Layout.release_alloc hc

theorem implicitFree_brk (h : Implicit.Heap) (b : Block) : (implicitFree h b).brk = h.brk := by
  unfold implicitFree
  split <;> rfl

/-- Every block moves. -/
def implicitRealloc (h : Implicit.Heap) (b : Block) (size : Nat) :
    Option (Block × Implicit.Heap) :=
  (h.malloc (need size) (need_ok size).1).map fun r => (r.1, implicitFree r.2 b)

theorem implicit_mmRealloc_ensures {σ : Machine A Implicit.Statics} {h : Implicit.Heap}
    {b : Block} {size : Nat} (hr : Implicit.Holds σ h) (hb : b ∈ h.blocks)
    (hal : b.alloc = true) (hpos : 0 < size) (hsize : size ≤ intMax) :
    Ensures (Implicit.mmRealloc (A.start + b.off) size) σ fun p σ' =>
      match implicitRealloc h b size with
      | some (t, h') => p = A.start + t.off ∧ Implicit.Holds σ' h' ∧
          σ.storage.AgreeOn σ'.storage
            (fun a => ∃ c ∈ h.blocks, c.alloc = true ∧ c ≠ b ∧ c.Payload a) ∧
          ∀ i < min (b.size - 8) size, σ'.storage (t.off + i) = σ.storage (b.off + i)
      | none => p = 0 ∧ σ' = σ := by
  obtain ⟨s, rfl⟩ := Spot.exists_of_mem hb
  refine (Implicit.mmRealloc_ensures hr s hal hpos (size_ok hsize)).mono fun p σ' hq => ?_
  unfold implicitRealloc
  cases hm : h.malloc (need size) (need_ok size).1 with
  | none => rwa [hm] at hq
  | some r =>
    rw [hm] at hq
    obtain ⟨rfl, s', hmoved⟩ := hq
    refine ⟨rfl, holds_moved hmoved, hmoved.frame.mono fun a ha => ?_, hmoved.contents⟩
    obtain ⟨c, hc, hcal, hne, hp⟩ := ha
    exact ⟨c, s.mem_sides hc hne, hcal, hp⟩

/-- The heaps of the implicit allocator. -/
def implicitInterface (A : Arena) : Interface (implicitPackage A) where
  Heap := Implicit.Heap
  Holds := Implicit.Holds
  layout := Implicit.Heap.toLayout
  initial := Implicit.Heap.initial
  malloc h size := h.malloc (need size) (need_ok size).1
  free := implicitFree
  realloc := implicitRealloc
  breaks _ _ _ := false
  initial_free := by decide
  initial_brk := rfl
  brk hr := hr.brk
  of_payload hr hm := hr.of_payload (hm.mono fun _ ha b hb _ => ha b hb)
  malloc_served := Implicit.Heap.malloc_served
  malloc_brk := implicit_malloc_brk
  malloc_refused := implicit_malloc_refused
  free_alloc hb _ _ hc := implicitFree_alloc hb hc
  free_brk := implicitFree_brk
  realloc_exchanged hb hal hres := by
    obtain ⟨r, hm, hr⟩ := Option.map_eq_some_iff.mp hres
    cases hr
    have hserved := Implicit.Heap.malloc_served hm
    exact .move hserved hb hal fun c hc =>
      implicitFree_alloc ((hserved.blocks _ hal).mpr (.inr hb)) hc
  realloc_brk hres := by
    obtain ⟨r, hm, hr⟩ := Option.map_eq_some_iff.mp hres
    cases hr
    rw [implicitFree_brk]
    exact implicit_malloc_brk hm
  realloc_refused _ _ _ hres := implicit_malloc_refused (Option.map_eq_none_iff.mp hres)
  mmInit_ensures := Implicit.mmInit_ensures
  mmMalloc_ensures {σ h size} hr hpos hsize := by
    refine (Implicit.mmMalloc_ensures hr hpos (size_ok hsize)).mono fun p σ' hq => ?_
    cases hm : h.malloc (need size) (need_ok size).1 with
    | none => rwa [hm] at hq
    | some res => rwa [hm] at hq
  mmFree_ensures {σ h b} hr hb _ := by
    obtain ⟨s, rfl⟩ := Spot.exists_of_mem hb
    rw [implicitFree_spot]
    exact Implicit.mmFree_ensures hr s
  mmRealloc_ensures {σ h b size} hr hb hal hpos hsize _ := by
    refine (implicit_mmRealloc_ensures hr hb hal hpos hsize).mono fun p σ' hq => ?_
    cases hm : implicitRealloc h b size with
    | none => rwa [hm] at hq
    | some r => rwa [hm] at hq

/-! ## The segregated allocator -/

/-- `mm_segregated.c`. -/
def segregatedPackage (A : Arena) : Package A Segregated.Statics :=
  ⟨Segregated.mmInit, Segregated.mmMalloc, Segregated.mmFree, Segregated.mmRealloc⟩

/-- Resize an allocated block of the heap. -/
def segregatedRealloc (h : Segregated.Heap) (b : Block) (size : Nat) :
    Option (Block × Segregated.Heap) :=
  if hb : b ∈ h.blocks then
    if hal : (Spot.of h.blocks b hb).block.alloc = true then
      h.resize (.of h.blocks b hb) hal (need size) (need_ok size).1
    else none
  else none

/-- Resizing it goes wrong. -/
def segregatedBreaks (h : Segregated.Heap) (b : Block) (size : Nat) : Bool :=
  if hb : b ∈ h.blocks then decide (Segregated.Breaks h (.of h.blocks b hb) (need size))
  else false

theorem segregatedRealloc_spot {h : Segregated.Heap} (s : Spot h.blocks)
    (hal : s.block.alloc = true) (size : Nat) : segregatedRealloc h s.block size =
      h.resize s hal (need size) (need_ok size).1 := by
  have hspot : Spot.of h.blocks s.block s.mem = s :=
    Spot.eq_of_block h.shape (Spot.of_block s.mem)
  rw [segregatedRealloc, dif_pos s.mem]
  simp only [hspot, dif_pos hal]

theorem segregatedBreaks_spot {h : Segregated.Heap} (s : Spot h.blocks) (size : Nat) :
    segregatedBreaks h s.block size = false ↔ ¬ Segregated.Breaks h s (need size) := by
  have hspot : Spot.of h.blocks s.block s.mem = s :=
    Spot.eq_of_block h.shape (Spot.of_block s.mem)
  rw [segregatedBreaks, dif_pos s.mem, hspot, decide_eq_false_iff_not]

theorem segregated_malloc_refused {h : Segregated.Heap} {n : Nat} {hn : 8 ∣ n ∧ 16 ≤ n}
    (hm : h.malloc n hn = none) : maxHeap < h.brk + extension n := by
  rcases h.malloc_cases n hn with ⟨_, _, _, -, heq⟩ | ⟨-, _, heq⟩ | ⟨-, hgrow, -⟩
  · cases heq.symm.trans hm
  · cases heq.symm.trans hm
  · exact hgrow

theorem segregatedRealloc_brk {h h' : Segregated.Heap} {b t : Block} {size : Nat}
    (hres : segregatedRealloc h b size = some (t, h')) :
    h.brk ≤ h'.brk ∧ h'.brk ≤ h.brk + extension (need size) := by
  unfold segregatedRealloc at hres
  split at hres
  · split at hres
    · exact Segregated.Heap.resize_brk hres
    · cases hres
  · cases hres

theorem segregated_mmRealloc_ensures {σ : Machine A Segregated.Statics} {h : Segregated.Heap}
    {b : Block} {size : Nat} (hr : Segregated.Holds σ h) (hb : b ∈ h.blocks)
    (hal : b.alloc = true) (hpos : 0 < size) (hsize : size ≤ intMax)
    (hnot : segregatedBreaks h b size = false) :
    Ensures (Segregated.mmRealloc (A.start + b.off) size) σ fun p σ' =>
      match segregatedRealloc h b size with
      | some (t, h') => p = A.start + t.off ∧ Segregated.Holds σ' h' ∧
          σ.storage.AgreeOn σ'.storage
            (fun a => ∃ c ∈ h.blocks, c.alloc = true ∧ c ≠ b ∧ c.Payload a) ∧
          ∀ i < min (b.size - 8) size, σ'.storage (t.off + i) = σ.storage (b.off + i)
      | none => p = 0 ∧ σ' = σ := by
  obtain ⟨s, rfl⟩ := Spot.exists_of_mem hb
  have hres := Segregated.mmRealloc_resizes hr s hal hpos (size_ok hsize)
    ((segregatedBreaks_spot s size).mp hnot)
  rw [segregatedRealloc_spot s hal]
  refine hres.mono fun p σ' hq => ?_
  cases hm : h.resize s hal (need size) (need_ok size).1 with
  | none => rwa [hm] at hq
  | some r =>
    rw [hm] at hq
    obtain ⟨rfl, hr', hframe, hcontents⟩ := hq
    refine ⟨rfl, hr', hframe.mono fun a ha => ?_, fun i hi => hcontents i (by omega)⟩
    obtain ⟨c, hc, hcal, hne, hp⟩ := ha
    exact ⟨c, s.mem_sides hc hne, hcal, hp⟩

/-- The heaps of the segregated allocator. -/
def segregatedInterface (A : Arena) : Interface (segregatedPackage A) where
  Heap := Segregated.Heap
  Holds := Segregated.Holds
  layout := Segregated.Heap.toLayout
  initial := Segregated.Heap.initial
  malloc h size := h.malloc (need size) (need_ok size).1
  free := Segregated.Heap.free
  realloc := segregatedRealloc
  breaks := segregatedBreaks
  initial_free := by decide
  initial_brk := rfl
  brk hr := hr.brk
  of_payload hr hm := hr.of_payload hm
  malloc_served := Segregated.Heap.malloc_served
  malloc_brk := Segregated.Heap.malloc_brk_le
  malloc_refused := segregated_malloc_refused
  free_alloc hb hal _ hc := Segregated.Heap.free_alloc _ hb hal hc
  free_brk := Segregated.Heap.free_brk
  realloc_exchanged {h b size t h'} hb hal hres := by
    obtain ⟨s, rfl⟩ := Spot.exists_of_mem hb
    rw [segregatedRealloc_spot s hal] at hres
    exact Segregated.Heap.resize_exchanged hres
  realloc_brk := segregatedRealloc_brk
  realloc_refused {h b size} hb hal hnot hres := by
    obtain ⟨s, rfl⟩ := Spot.exists_of_mem hb
    rw [segregatedRealloc_spot s hal] at hres
    exact Segregated.Heap.resize_refused ((segregatedBreaks_spot s size).mp hnot) hres
  mmInit_ensures := Segregated.mmInit_ensures
  mmMalloc_ensures {σ h size} hr hpos hsize := by
    refine (Segregated.mmMalloc_ensures hr hpos (size_ok hsize)).mono fun p σ' hq => ?_
    cases hm : h.malloc (need size) (need_ok size).1 with
    | none => rwa [hm] at hq
    | some res => rwa [hm] at hq
  mmFree_ensures {σ h b} hr hb hal := by
    obtain ⟨s, rfl⟩ := Spot.exists_of_mem hb
    rw [h.free_spot s hal]
    exact Segregated.mmFree_ensures hr s hal
  mmRealloc_ensures {σ h b size} hr hb hal hpos hsize hnot := by
    refine (segregated_mmRealloc_ensures hr hb hal hpos hsize hnot).mono fun p σ' hq => ?_
    cases hm : segregatedRealloc h b size with
    | none => rwa [hm] at hq
    | some r => rwa [hm] at hq

end Driver

end CToys.Malloc
