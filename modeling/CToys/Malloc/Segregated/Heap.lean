import CToys.Malloc.Segregated.Fit
import CToys.Malloc.Client
import CToys.Malloc.Segregated.Place

/-!
# The segregated heap

A `Heap` is a layout with its bins, and `Holds σ h` says that the machine holds it.  On
heaps the allocator is a pure function: `Heap.release` is `mm_free` and `Heap.malloc` is
`mm_malloc` for a given block size.  The theorems of this module say that the program
does what these functions say, and that it leaves the bytes in use alone.

Since `Heap.malloc` knows nothing of the memory, neither stale bytes nor the clients' own
bytes can influence where a block is placed.
-/

namespace CToys.Malloc.Segregated

variable {A : Arena}

/-- A layout with its free lists. -/
structure Heap extends Layout where
  /-- The blocks in each of the lists. -/
  bins : Nat → List Block
  filed : Filed blocks bins

/-- The machine holds the heap. -/
def Holds (σ : Machine A Statics) (h : Heap) : Prop :=
  Represents σ h.blocks h.brk h.bins

namespace Heap

/-- The heap before the first extension. -/
def empty : Heap where
  toLayout := .empty
  bins := fun _ => []
  filed := ⟨by simp [Layout.empty], by simp, by simp⟩

section

variable (h : Heap) (s : Spot h.blocks)

theorem filed_at : Filed (s.pre ++ s.block :: s.post) h.bins := by
  rw [s.split]
  exact h.filed

/-- An allocated block is in no bin. -/
theorem filed_sides (hal : s.block.alloc = true) : Filed (s.pre ++ s.post) h.bins := by
  refine (h.filed_at s).congr fun c hc => ?_
  have hne : c ≠ s.block := fun e => by
    rw [e, hal] at hc
    cases hc
  simp [hne]

/-- Free a block. -/
def release (hal : s.block.alloc = true) : Heap where
  toLayout := h.toLayout.release s
  bins := mergeBins s.pre s.block.freed s.post h.bins
  filed := filed_merge (h.filed_sides s hal) (h.shape_freed s)

/-- The cut that `place` makes in a free block. -/
def cut (n : Nat) (hn : 8 ∣ n ∧ 16 ≤ n) (hle : n ≤ s.block.size) : Cut s.block n :=
  placeCut s.block n (h.shape.size _ s.mem) hn hle

/-- Take `n` bytes of a free block. -/
def place (hal : s.block.alloc = false) (n : Nat) (hn : 8 ∣ n ∧ 16 ≤ n)
    (hle : n ≤ s.block.size) : Heap where
  toLayout := h.toLayout.take s hal (h.cut s n hn hle)
  bins := placeBins (h.cut s n hn hle) h.bins
  filed := filed_place (h.filed_at s) (h.shape_at s) _

/-- Add a free block at the end. -/
def grow (n : Nat) (hn : 8 ∣ n ∧ 16 ≤ n) (hle : h.brk + n ≤ maxHeap) : Heap where
  toLayout := h.toLayout.grow n hn hle
  bins := mergeBins h.blocks (Malloc.grown h.brk n) [] h.bins
  filed := filed_merge (by simpa using h.filed) (h.shape.grow hn hle)

end

/-- `place`: the block that is taken and the heap after it. -/
def serve (h : Heap) (s : Spot h.blocks) (hal : s.block.alloc = false) (n : Nat)
    (hn : 8 ∣ n ∧ 16 ≤ n) (hle : n ≤ s.block.size) : Block × Heap :=
  ((h.cut s n hn hle).taken, h.place s hal n hn hle)

/-- Extend the heap and take `n` bytes at its end. -/
def serveGrown (h : Heap) (n : Nat) (hn : 8 ∣ n ∧ 16 ≤ n)
    (hgrow : h.brk + extension n ≤ maxHeap) : Block × Heap :=
  (h.grow (extension n) (extension_ok hn) hgrow).serve
    (h.topSpot (extension n) (extension_ok hn) hgrow) rfl n hn (Layout.top_fits hn hgrow)

/-- `mm_malloc` for a block of `n` bytes. -/
def malloc (h : Heap) (n : Nat) (hn : 8 ∣ n ∧ 16 ≤ n) : Option (Block × Heap) :=
  match hfit : fit h.bins n with
  | some b =>
    have hb := h.filed.fit_mem hfit
    have hs := Spot.of_block hb.1
    some (h.serve (Spot.of h.blocks b hb.1) (by rw [hs]; exact hb.2.1) n hn
      (by rw [hs]; exact hb.2.2))
  | none =>
    if hgrow : h.brk + extension n ≤ maxHeap then some (h.serveGrown n hn hgrow) else none

/-- What `mm_malloc` can do: reuse a block, grow the heap, or refuse. -/
theorem malloc_cases (h : Heap) (n : Nat) (hn : 8 ∣ n ∧ 16 ≤ n) :
    (∃ (s : Spot h.blocks) (hal : s.block.alloc = false) (hle : n ≤ s.block.size),
      fit h.bins n = some s.block ∧ h.malloc n hn = some (h.serve s hal n hn hle)) ∨
    (fit h.bins n = none ∧ ∃ hgrow : h.brk + extension n ≤ maxHeap,
      h.malloc n hn = some (h.serveGrown n hn hgrow)) ∨
    (fit h.bins n = none ∧ maxHeap < h.brk + extension n ∧ h.malloc n hn = none) := by
  rw [malloc]
  split
  · next b hfit =>
    have hb := h.filed.fit_mem hfit
    have hs := Spot.of_block hb.1
    refine .inl ⟨Spot.of h.blocks b hb.1, ?_, ?_, ?_, rfl⟩
    · rw [hs]
      exact hb.2.1
    · rw [hs]
      exact hb.2.2
    · rw [hs]
      exact hfit
  · next hfit =>
    by_cases hgrow : h.brk + extension n ≤ maxHeap
    · exact .inr (.inl ⟨hfit, hgrow, dif_pos hgrow⟩)
    · exact .inr (.inr ⟨hfit, Nat.not_le.mp hgrow, dif_neg hgrow⟩)

/-- `Heap.malloc` serves the request. -/
theorem malloc_served {h h' : Heap} {n : Nat} {hn : 8 ∣ n ∧ 16 ≤ n} {b : Block}
    (hm : h.malloc n hn = some (b, h')) : Served h.toLayout n b h'.toLayout := by
  rcases h.malloc_cases n hn with ⟨s, hal, hle, -, heq⟩ | ⟨-, hgrow, heq⟩ | ⟨-, -, heq⟩
  · rw [heq] at hm
    cases hm
    exact Layout.take_served hal _
  · rw [heq] at hm
    cases hm
    exact Layout.served_of_grow (Layout.take_served (l := h.toLayout.grow _ _ hgrow) rfl _)
  · rw [heq] at hm
    cases hm

/-- Only an extension moves the break. -/
theorem malloc_brk {h h' : Heap} {n : Nat} {hn : 8 ∣ n ∧ 16 ≤ n} {b : Block}
    (hm : h.malloc n hn = some (b, h')) : h'.brk ≠ h.brk ↔ fit h.bins n = none := by
  have hext := (extension_ok hn).2
  rcases h.malloc_cases n hn with ⟨s, hal, hle, hfit, heq⟩ | ⟨hfit, hgrow, heq⟩ | ⟨-, -, heq⟩
  · rw [heq] at hm
    cases hm
    simp [hfit, place, Layout.take]
  · rw [heq] at hm
    cases hm
    simp only [hfit, iff_true, place, Layout.take, grow, Layout.grow]
    omega
  · rw [heq] at hm
    cases hm

end Heap

/-- Payload bytes of allocated blocks may change without the machine holding another heap. -/
theorem Holds.of_payload {σ : Machine A Statics} {h : Heap} {m : Memory} (hr : Holds σ h)
    (hm : σ.storage.AgreeOn m fun a => ∀ b ∈ h.blocks, b.alloc = true → ¬ b.Payload a) :
    Holds (σ.withStorage m) h := by
  refine ⟨hr.brk, hr.listp, hr.tagged.of_payload h.shape (hm.mono fun a ha b hb _ => ha b hb),
    hr.listed.congr fun i hi q hq => ?_⟩
  obtain ⟨b, hb, rfl⟩ := List.mem_map.mp hq
  obtain ⟨hb, hal, -⟩ := (h.filed.mem i hi b).mp hb
  have hbd := h.shape.bounds hb
  -- the link words are payload of a free block
  have hfree {a : Nat} (h1 : b.off ≤ a) (h2 : a < b.off + 8) :
      ∀ c ∈ h.blocks, c.alloc = true → ¬ c.Payload a :=
    fun c hc hcal hp => not_freeByte_of_inUse h.shape ⟨c, hc, hcal, hp⟩
      ⟨b, hb, hal, h1, by omega⟩
  exact ⟨hm.word fun a h1 h2 => hfree h1 (by omega), hm.word fun a h1 h2 => hfree (by omega)
    (by omega)⟩

/-- The memory determines the blocks of the heap. -/
theorem Holds.blocks_eq {σ : Machine A Statics} {h h' : Heap} (hr : Holds σ h)
    (hr' : Holds σ h') : h.blocks = h'.blocks := by
  have hbrk : h'.brk = h.brk := Nat.add_left_cancel (hr'.brk.symm.trans hr.brk)
  exact hr.tagged.unique h.shape (hbrk ▸ hr'.tagged) (hbrk ▸ h'.shape)

/-! ## Extending the heap -/

section

variable {σ : Machine A Statics} {h : Heap} {n : Nat}

/-- After the three `PUT`s the new block is free and in no list. -/
private theorem represents_grown (hr : Holds σ h) (hn : 8 ∣ n ∧ 16 ≤ n)
    (hle : h.brk + n ≤ maxHeap) :
    Represents ((σ.withBrk (A.start + (h.brk + n))).withStorage (growStorage σ.storage h.brk n))
      (h.blocks ++ [grown h.brk n]) (h.brk + n) h.bins := by
  have h16 := h.shape.tiles.le
  have hagree := growStorage_agree (m := σ.storage) h16 hn hle
  refine ⟨rfl, hr.listp, hr.tagged.grow h.shape hn hle, hr.listed.congr fun i hi q hq => ?_⟩
  obtain ⟨b, hb, rfl⟩ := List.mem_map.mp hq
  have := h.shape.bounds ((h.filed.mem i hi b).mp hb).1
  exact ⟨hagree.word fun a _ _ => by omega, hagree.word fun a _ _ => by omega⟩

/-- `extend_heap` adds a free block. -/
theorem extendHeap_ensures (hr : Holds σ h) (hn : 8 ∣ n ∧ 16 ≤ n)
    (hle : h.brk + n ≤ maxHeap) :
    Ensures (extendHeap (n / wsize)) σ fun p σ' =>
      p = A.start + (h.top n).off ∧ Holds σ' (h.grow n hn hle) ∧
        σ.storage.AgreeOn σ'.storage (InUse h.blocks) := by
  have hA := A.fits
  have hmax := maxHeap_eq
  have h16 := h.shape.tiles.le
  have hnot : A.start + h.brk ≠ sbrkFailed := by
    unfold sbrkFailed
    omega
  have hsh := h.shape.grow hn hle
  unfold extendHeap
  simp only [extend_size hn.1 (by omega)]
  refine (memSbrk_returns hr.brk hle).step ?_
  rw [if_neg hnot]
  refine growTags_step h16 hn hle ?_
  refine (coalesce_ensures (represents_grown hr hn hle) hsh (by simpa using h.filed)
    rfl).mono ?_
  intro p σ' hσ
  obtain ⟨hp, hr', hag⟩ := hσ
  refine ⟨hp, hr', Memory.AgreeOn.trans ?_ (hag.mono ?_)⟩
  · refine (growStorage_agree h16 hn hle).mono ?_
    intro a ha
    obtain ⟨b, hb, -, hp⟩ := ha
    have := h.shape.bounds hb
    unfold Block.Payload at hp
    omega
  · intro a ha
    obtain ⟨b, hb, h⟩ := ha
    exact ⟨b, by simp [hb], h⟩

/-- `extend_heap` returns `NULL` and changes nothing when the break cannot move. -/
theorem extendHeap_refused (hr : Holds σ h) (hn : 8 ∣ n) (hlt : n < 2 ^ 32)
    (hle : maxHeap < h.brk + n) : Returns (extendHeap (n / wsize)) σ 0 σ := by
  unfold extendHeap
  simp only [extend_size hn hlt]
  refine (memSbrk_refused hr.brk hlt hle).bind ?_
  rw [if_pos rfl]
  exact .pure _ _

/-! ## Initialising -/

/-- The heap after `mm_init`. -/
def Heap.initial : Heap := Heap.empty.grow chunksize chunksize_ok Layout.empty_room

/-- The machine with another `heap_listp`. -/
private def withListp (σ : Machine A Statics) (p : Nat) : Machine A Statics :=
  { σ with statics := { σ.statics with heapListp := p } }

private theorem setHeapListp_returns (σ : Machine A Statics) (p : Nat) :
    Returns (setHeapListp p) σ () (withListp σ p) := rfl

/-- The loop of `mm_init` makes the first `n` lists empty. -/
private theorem clearLists_ensures (σ : Machine A Statics) : ∀ n, n ≤ listMax →
    Ensures (clearLists n) σ fun _ σ' =>
      (∀ i < n, σ'.statics.freeLists i = 0) ∧
        σ' = relist σ σ.storage σ'.statics.freeLists
  | 0, _ => .pure ⟨by simp, rfl⟩
  | n + 1, hn => by
      refine (clearLists_ensures σ n (by omega)).bind ?_
      intro _ σ₁ hσ
      obtain ⟨hzero, hσ₁⟩ := hσ
      refine (setFreeList_returns (by omega)).ensures ⟨fun i hi => ?_, ?_⟩
      · by_cases hin : i = n
        · simp [relist, hin]
        · simp [relist, hin, hzero i (by omega)]
      · rw [hσ₁]
        rfl

/-- `mm_init` on a reset heap, whatever the bytes and the static variables are. -/
theorem mmInit_ensures (hbrk : σ.memBrk = A.start) :
    Ensures mmInit σ fun r σ' => r = 0 ∧ Holds σ' Heap.initial := by
  have hA := A.fits
  have hpos := A.pos
  have hmax := maxHeap_eq
  unfold mmInit
  refine (memSbrk_returns (e := 0) (n := 4 * wsize) hbrk (by decide)).step ?_
  refine (setHeapListp_returns _ _).step ?_
  rw [if_neg (by unfold sbrkFailed; omega)]
  refine initTags_step ?_
  have hlistp : add32 A.start (2 * wsize) = A.start + 8 := add32_of_lt (by unfold wsize; omega)
  simp only [Nat.add_zero, hlistp]
  refine (setHeapListp_returns _ _).step ?_
  refine (clearLists_ensures _ listMax le_rfl).bind ?_
  intro _ σ₁ hσ
  obtain ⟨hzero, hσ₁⟩ := hσ
  have hr₁ : Holds σ₁ Heap.empty := by
    refine ⟨?_, ?_, ?_, fun i hi => ?_, fun i _ => .nil⟩
    · rw [hσ₁]; rfl
    · rw [hσ₁]; rfl
    · rw [hσ₁]; exact .init _
    · rw [hzero i hi]; rfl
  refine (extendHeap_ensures hr₁ (n := chunksize) (by decide) (by decide)).bind ?_
  intro p σ₂ hσ
  obtain ⟨rfl, hr₂, -⟩ := hσ
  rw [if_neg (by omega)]
  exact .pure ⟨rfl, hr₂⟩

/-! ## Allocating -/

/-- The block size that the code computes, unless it wraps. -/
theorem newSizeOf_eq {size : Nat} (hsize : size ≤ 2 ^ 32 - 16) :
    newSizeOf size = need size ∧ need size < 2 ^ 32 := by
  unfold newSizeOf align need dsize
  split
  · omega
  · rw [add32_of_lt (b := 8) (by omega), add32_of_lt (by omega), and_size_mask (by omega)]
    omega

/-- `place` on a heap. -/
private theorem place_spot (hr : Holds σ h) (s : Spot h.blocks) (hal : s.block.alloc = false)
    (hn : 8 ∣ n ∧ 16 ≤ n) (hle : n ≤ s.block.size) :
    Ensures (place (A.start + s.block.off) n) σ fun p σ' =>
      p = A.start + (h.cut s n hn hle).taken.off ∧ Holds σ' (h.place s hal n hn hle) ∧
        σ.storage.AgreeOn σ'.storage (InUse h.blocks) := by
  have hr' : Represents σ (s.pre ++ s.block :: s.post) h.brk h.bins := by
    rw [s.split]
    exact hr
  have hp := place_ensures hr' (h.shape_at s) (h.filed_at s) hal (h.shape.size _ s.mem) hn hle
  rw [s.split] at hp
  exact hp

/-- `mm_malloc` is `Heap.malloc` for the block size it computes. -/
theorem mmMalloc_ensures {size : Nat} (hr : Holds σ h) (hpos : 0 < size)
    (hsize : size ≤ 2 ^ 32 - 16) :
    Ensures (mmMalloc size) σ fun p σ' =>
      match h.malloc (need size) (need_ok size).1 with
      | some (b, h') => p = A.start + b.off ∧ Holds σ' h' ∧
          σ.storage.AgreeOn σ'.storage (InUse h.blocks)
      | none => p = 0 ∧ σ' = σ := by
  have hA := A.pos
  obtain ⟨hnew, hlt⟩ := newSizeOf_eq hsize
  have hn := (need_ok size).1
  have hext := extension_ok hn
  unfold mmMalloc
  rw [if_neg (by omega), hnew]
  refine (findFit_returns hr h.shape h.filed).step ?_
  simp only [mmMax_chunksize]
  rcases h.malloc_cases (need size) hn with
    ⟨s, hal, hle, hfit, hmalloc⟩ | ⟨hfit, hgrow, hmalloc⟩ | ⟨hfit, hgrow, hmalloc⟩
  · rw [hmalloc, hfit, if_pos (by simp only [blockPtr, Option.map_some, ptrOf_some]; omega)]
    exact place_spot hr s hal hn hle
  · rw [hmalloc, hfit, if_neg (by simp [blockPtr])]
    refine (extendHeap_ensures hr hext hgrow).bind ?_
    intro p σ₁ hσ
    obtain ⟨rfl, hr₁, hag₁⟩ := hσ
    rw [if_neg (by omega)]
    refine (place_spot hr₁ (h.topSpot _ hext hgrow) rfl hn (Layout.top_fits hn hgrow)).mono ?_
    intro p σ₂ hσ
    obtain ⟨rfl, hr₂, hag₂⟩ := hσ
    exact ⟨rfl, hr₂, hag₁.trans (hag₂.mono fun a => Layout.grow_inUse hext hgrow)⟩
  · rw [hmalloc, hfit, if_neg (by simp [blockPtr])]
    refine (extendHeap_refused hr hext.1 ?_ hgrow).step ?_
    · have hchunk : chunksize = 4096 := rfl
      unfold extension
      omega
    · rw [if_pos rfl]
      exact .pure ⟨rfl, rfl⟩

/-! ## Freeing -/

/-- The tags that `mm_free` writes make the block free. -/
private theorem represents_freed (hr : Holds σ h) (s : Spot h.blocks)
    (hal : s.block.alloc = true) :
    Represents (σ.withStorage (tagBlock σ.storage s.block.freed))
        (s.pre ++ s.block.freed :: s.post) h.brk h.bins ∧
      σ.storage.AgreeOn (tagBlock σ.storage s.block.freed) (InUse (s.pre ++ s.post)) := by
  have hr' : Represents σ (s.pre ++ [s.block] ++ s.post) h.brk h.bins := by
    rw [List.append_assoc, List.singleton_append, s.split]
    exact hr
  have hs' := h.shape_at s
  rw [← List.singleton_append, ← List.append_assoc] at hs'
  have hret := hr'.retag hs' (h.filed_sides s hal) (fun _ h => h) [s.block.freed]
    (fun _ _ h => h) fun b hb => by
      rw [List.mem_singleton.mp hb]
      exact h.shape.size s.block s.mem
  rw [List.append_assoc, List.singleton_append] at hret
  exact hret

/-- `mm_free` is `Heap.release`. -/
theorem mmFree_ensures (hr : Holds σ h) (s : Spot h.blocks) (hal : s.block.alloc = true) :
    Ensures (mmFree (A.start + s.block.off)) σ fun _ σ' =>
      Holds σ' (h.release s hal) ∧
        σ.storage.AgreeOn σ'.storage (InUse (h.release s hal).blocks) := by
  have hbd := h.shape.bounds s.mem
  have ht := hr.tagged.header s.block s.mem
  obtain ⟨hr₁, hag₁⟩ := represents_freed hr s hal
  unfold mmFree
  refine (getSize_hdrp_returns (by omega) (by omega) ht).step ?_
  refine putTags_step (b := s.block.freed) rfl ((h.shape_freed s).inHeap (by simp)) ?_
  refine (coalesce_ensures hr₁ (h.shape_freed s) (h.filed_sides s hal) rfl).bind ?_
  intro p σ₂ hσ
  obtain ⟨-, hr₂, hag₂⟩ := hσ
  refine .pure ⟨hr₂, Memory.AgreeOn.trans (hag₁.mono fun a ha => ?_) (hag₂.mono fun a ha => ?_)⟩
  · exact ((inUse_merge rfl).mp ha).sides rfl
  · exact (inUse_merge rfl).mp ha

end

end CToys.Malloc.Segregated
