import CToys.Malloc.Client
import CToys.Malloc.Implicit.Fit

/-!
# The implicit heap

A `Heap` is a layout with a rover, and `Holds σ h` says that the machine holds it.  As for
the segregated allocator, `Heap.release` is `mm_free` and `Heap.malloc` is `mm_malloc` for
a given block size, and the theorems say that the program does what these functions say
and leaves the bytes in use alone.

`place` always takes the front of a block, so a rover at a block stays at one.
-/

namespace CToys.Malloc.Implicit

variable {A : Arena}

/-- The cut that `place` makes. -/
def placeCut (b : Block) (n : Nat) (hb : 8 ∣ b.size ∧ 16 ≤ b.size) (hn : 8 ∣ n ∧ 16 ≤ n)
    (hle : n ≤ b.size) : Cut b n :=
  if h : b.size - n < 2 * dsize then .whole hb hn hle h
  else .front hb hn h

/-- The front of the block is taken. -/
theorem placeCut_off {b : Block} {n : Nat} (hb : 8 ∣ b.size ∧ 16 ≤ b.size)
    (hn : 8 ∣ n ∧ 16 ≤ n) (hle : n ≤ b.size) : (placeCut b n hb hn hle).taken.off = b.off := by
  unfold placeCut
  split <;> rfl

/-- A layout with a rover. -/
structure Heap extends Layout where
  /-- The offset of the rover. -/
  rover : Nat
  current : AtBlock blocks rover

/-- The machine holds the heap. -/
def Holds (σ : Machine A Statics) (h : Heap) : Prop := Represents σ h.blocks h.brk h.rover

namespace Heap

/-- The heap before the first extension. -/
def empty : Heap where
  toLayout := .empty
  rover := 8
  current := ⟨.prologue, List.mem_cons_self, rfl⟩

section

variable (h : Heap) (s : Spot h.blocks)

theorem current_at : AtBlock (s.pre ++ s.block :: s.post) h.rover := by
  rw [s.split]
  exact h.current

theorem current_freed : AtBlock (s.pre ++ s.block.freed :: s.post) h.rover := by
  obtain ⟨c, hc, hoff⟩ := h.current_at s
  by_cases hcs : c = s.block
  · exact ⟨s.block.freed, by simp, by rw [← hoff, hcs]; rfl⟩
  · have hc' : c ∈ (.prologue :: s.pre) ++ s.block :: s.post := hc
    have hfreed : c ∈ (.prologue :: s.pre) ++ s.block.freed :: s.post := mem_replace hc' hcs
    exact ⟨c, hfreed, hoff⟩

/-- Free a block. -/
def release : Heap where
  toLayout := h.toLayout.release s
  rover := follow (merged s.pre s.block.freed s.post) h.rover
  current := (h.current_freed s).merge (h.shape_freed s)

/-- Put the rover at a block. -/
def aim : Heap where
  toLayout := h.toLayout
  rover := s.block.off
  current := ⟨s.block, List.mem_cons_of_mem _ s.mem, rfl⟩

/-- The cut that `place` makes in a free block. -/
def cut (n : Nat) (hn : 8 ∣ n ∧ 16 ≤ n) (hle : n ≤ s.block.size) : Cut s.block n :=
  placeCut s.block n (h.shape.size _ s.mem) hn hle

theorem current_place (n : Nat) (hn : 8 ∣ n ∧ 16 ≤ n) (hle : n ≤ s.block.size) :
    AtBlock (s.pre ++ (h.cut s n hn hle).pieces ++ s.post) h.rover := by
  obtain ⟨c, hc, hoff⟩ := h.current_at s
  by_cases hcs : c = s.block
  · refine ⟨(h.cut s n hn hle).taken, List.mem_cons_of_mem _ (Cut.taken_mem _), ?_⟩
    rw [← hoff, hcs]
    exact placeCut_off _ hn hle
  · have hc' : c ∈ (.prologue :: s.pre) ++ s.block :: s.post := hc
    have hside := (mem_middle.mp hc').resolve_left hcs
    refine ⟨c, ?_, hoff⟩
    simp only [List.cons_append, List.mem_cons, List.mem_append] at hside ⊢
    tauto

/-- Take `n` bytes of a free block. -/
def place (hal : s.block.alloc = false) (n : Nat) (hn : 8 ∣ n ∧ 16 ≤ n)
    (hle : n ≤ s.block.size) : Heap where
  toLayout := h.toLayout.take s hal (h.cut s n hn hle)
  rover := h.rover
  current := h.current_place s n hn hle

/-- Add a free block at the end. -/
def grow (n : Nat) (hn : 8 ∣ n ∧ 16 ≤ n) (hle : h.brk + n ≤ maxHeap) : Heap where
  toLayout := h.toLayout.grow n hn hle
  rover := follow (h.top n) h.rover
  current := by
    obtain ⟨c, hc, hoff⟩ := h.current
    refine AtBlock.merge ⟨c, ?_, hoff⟩ (h.shape.grow hn hle)
    rw [← List.cons_append]
    exact List.mem_append_left _ hc

/-- `place`: the block that is taken and the heap after it. -/
def serve (hal : s.block.alloc = false) (n : Nat) (hn : 8 ∣ n ∧ 16 ≤ n)
    (hle : n ≤ s.block.size) : Block × Heap :=
  ((h.cut s n hn hle).taken, h.place s hal n hn hle)

/-- Extend the heap and take `n` bytes at its end. -/
def serveGrown (n : Nat) (hn : 8 ∣ n ∧ 16 ≤ n) (hgrow : h.brk + extension n ≤ maxHeap) :
    Block × Heap :=
  (h.grow (extension n) (extension_ok hn) hgrow).serve
    (h.topSpot (extension n) (extension_ok hn) hgrow) rfl n hn (Layout.top_fits hn hgrow)

/-- `mm_malloc` for a block of `n` bytes. -/
def malloc (n : Nat) (hn : 8 ∣ n ∧ 16 ≤ n) : Option (Block × Heap) :=
  match hfit : fit h.blocks h.rover n with
  | some b =>
    have hb := fit_mem hfit
    have hs := Spot.of_block hb.1
    some ((h.aim (.of h.blocks b hb.1)).serve (.of h.blocks b hb.1) (by rw [hs]; exact hb.2.1)
      n hn (by rw [hs]; exact hb.2.2))
  | none =>
    if hgrow : h.brk + extension n ≤ maxHeap then some (h.serveGrown n hn hgrow) else none

/-- What `mm_malloc` can do: reuse a block, grow the heap, or refuse. -/
theorem malloc_cases (n : Nat) (hn : 8 ∣ n ∧ 16 ≤ n) :
    (∃ (s : Spot h.blocks) (hal : s.block.alloc = false) (hle : n ≤ s.block.size),
      fit h.blocks h.rover n = some s.block ∧
        h.malloc n hn = some ((h.aim s).serve s hal n hn hle)) ∨
    (fit h.blocks h.rover n = none ∧ ∃ hgrow : h.brk + extension n ≤ maxHeap,
      h.malloc n hn = some (h.serveGrown n hn hgrow)) ∨
    (fit h.blocks h.rover n = none ∧ maxHeap < h.brk + extension n ∧
      h.malloc n hn = none) := by
  rw [malloc]
  split
  · next b hfit =>
    have hb := fit_mem hfit
    have hs := Spot.of_block hb.1
    refine .inl ⟨.of h.blocks b hb.1, ?_, ?_, ?_, rfl⟩
    · rw [hs]
      exact hb.2.1
    · rw [hs]
      exact hb.2.2
    · rw [hs]
      exact hfit
  · next hfit =>
    by_cases hgrow : h.brk + extension n ≤ maxHeap
    · exact .inr (.inl ⟨hfit, hgrow, dif_pos hgrow⟩)
    · exact .inr (.inr ⟨hfit, Nat.not_le.mp hgrow, dif_neg hgrow⟩)

end

/-- `Heap.malloc` serves the request. -/
theorem malloc_served {h h' : Heap} {n : Nat} {hn : 8 ∣ n ∧ 16 ≤ n} {b : Block}
    (hm : h.malloc n hn = some (b, h')) : Served h.toLayout n b h'.toLayout := by
  rcases h.malloc_cases n hn with ⟨s, hal, hle, -, heq⟩ | ⟨-, hgrow, heq⟩ | ⟨-, -, heq⟩
  · rw [heq] at hm
    cases hm
    exact Layout.take_served (l := h.toLayout) hal _
  · rw [heq] at hm
    cases hm
    exact Layout.served_of_grow (Layout.take_served (l := h.toLayout.grow _ _ hgrow) rfl _)
  · rw [heq] at hm
    cases hm

end Heap

section

variable {σ : Machine A Statics} {h : Heap} {n : Nat}

/-- Payload bytes of blocks may change without the machine holding another heap. -/
theorem Holds.of_payload {m : Memory} (hr : Holds σ h)
    (hm : σ.storage.AgreeOn m fun a => ∀ b ∈ h.blocks, ¬ b.Payload a) :
    Holds (σ.withStorage m) h :=
  ⟨hr.brk, hr.listp, hr.prevBp, hr.tagged.of_payload h.shape hm⟩

/-! ## Extending the heap -/

/-- `extend_heap` adds a free block. -/
theorem extendHeap_ensures (hr : Holds σ h) (hn : 8 ∣ n ∧ 16 ≤ n)
    (hle : h.brk + n ≤ maxHeap) :
    Ensures (extendHeap (n / wsize)) σ fun p σ' =>
      p = A.start + (h.top n).off ∧ Holds σ' (h.grow n hn hle) ∧
        σ.storage.AgreeOn σ'.storage (InUse h.blocks) := by
  have hA := A.fits
  have hmax := maxHeap_eq
  have h16 := h.shape.tiles.le
  have hnot : A.start + h.brk ≠ sbrkFailed := by
    unfold sbrkFailed
    omega
  have hgrown : Represents ((σ.withBrk (A.start + (h.brk + n))).withStorage
      (growStorage σ.storage h.brk n)) (h.blocks ++ [grown h.brk n]) (h.brk + n) h.rover :=
    ⟨rfl, hr.listp, hr.prevBp, hr.tagged.grow h.shape hn hle⟩
  have hcur : AtBlock (h.blocks ++ [grown h.brk n]) h.rover := by
    obtain ⟨c, hc, hoff⟩ := h.current
    refine ⟨c, ?_, hoff⟩
    rw [← List.cons_append]
    exact List.mem_append_left _ hc
  unfold extendHeap
  simp only [extend_size hn.1 (by omega)]
  refine (memSbrk_returns hr.brk hle).step ?_
  rw [if_neg hnot]
  refine growTags_step h16 hn hle ?_
  refine (coalesce_ensures hgrown (h.shape.grow hn hle) hcur rfl).mono ?_
  intro p σ' hσ
  obtain ⟨hp, hr', hag⟩ := hσ
  refine ⟨hp, hr', Memory.AgreeOn.trans ?_ (hag.mono ?_)⟩
  · refine (growStorage_agree h16 hn hle).mono ?_
    intro a ha
    obtain ⟨b, hb, -, hp⟩ := ha
    have := h.shape.bounds hb
    unfold Block.Payload at hp
    omega
  · intro a ha
    obtain ⟨b, hb, h⟩ := ha
    exact ⟨b, by simp [hb], h⟩

/-- `extend_heap` returns `NULL` and changes nothing when the break cannot move. -/
theorem extendHeap_refused (hr : Holds σ h) (hn : 8 ∣ n) (hlt : n < 2 ^ 32)
    (hle : maxHeap < h.brk + n) : Returns (extendHeap (n / wsize)) σ 0 σ := by
  unfold extendHeap
  simp only [extend_size hn hlt]
  refine (memSbrk_refused hr.brk hlt hle).bind ?_
  rw [if_pos rfl]
  exact .pure _ _

/-! ## Initialising -/

/-- The heap after `mm_init`. -/
def Heap.initial : Heap := Heap.empty.grow chunksize chunksize_ok Layout.empty_room

/-- The machine with another `heap_listp`. -/
private def listpAt (σ : Machine A Statics) (p : Nat) : Machine A Statics :=
  { σ with statics := { σ.statics with heapListp := p } }

private theorem listpAt_returns (σ : Machine A Statics) (p : Nat) :
    Returns (setHeapListp p) σ () (listpAt σ p) := rfl

private theorem setPrevBp_returns (σ : Machine A Statics) (o : Nat) :
    Returns (setPrevBp (A.start + o)) σ () (withRover σ o) := rfl

/-- `mm_init` on a reset heap, whatever the bytes and the static variables are. -/
theorem mmInit_ensures (hbrk : σ.memBrk = A.start) :
    Ensures mmInit σ fun r σ' => r = 0 ∧ Holds σ' Heap.initial := by
  have hA := A.fits
  have hpos := A.pos
  have hmax := maxHeap_eq
  unfold mmInit
  refine (memSbrk_returns (e := 0) (n := 4 * wsize) hbrk (by decide)).step ?_
  refine (listpAt_returns _ _).step ?_
  rw [if_neg (by unfold sbrkFailed; omega)]
  refine initTags_step ?_
  have hlistp : add32 A.start (2 * wsize) = A.start + 8 := add32_of_lt (by unfold wsize; omega)
  simp only [Nat.add_zero, hlistp]
  refine (listpAt_returns _ _).step ((setPrevBp_returns _ 8).step ?_)
  have hr : Holds (withRover (listpAt ((listpAt (σ.withBrk (A.start + 16)) A.start).withStorage
      (initStorage σ.storage)) (A.start + 8)) 8) Heap.empty := ⟨rfl, rfl, rfl, .init _⟩
  refine (extendHeap_ensures hr (n := chunksize) (by decide) (by decide)).bind ?_
  intro p σ₂ hσ
  obtain ⟨rfl, hr₂, -⟩ := hσ
  rw [if_neg (by omega)]
  exact .pure ⟨rfl, hr₂⟩

/-! ## Allocating -/

/-- The block size that the code computes, unless it wraps. -/
theorem newSizeOf_eq {size : Nat} (hsize : size ≤ 2 ^ 32 - 16) :
    newSizeOf size = need size ∧ need size < 2 ^ 32 := by
  unfold newSizeOf need dsize
  split
  · omega
  · rw [add32_of_lt (b := 8) (by omega), add32_of_lt (by omega), mul32_of_lt (by omega)]
    omega

/-- `place` cuts `n` bytes out of a free block. -/
theorem place_ensures (hr : Holds σ h) (s : Spot h.blocks) (hal : s.block.alloc = false)
    (hn : 8 ∣ n ∧ 16 ≤ n) (hle : n ≤ s.block.size) :
    Ensures (place (A.start + s.block.off) n) σ fun _ σ' =>
      Holds σ' (h.place s hal n hn hle) ∧ σ.storage.AgreeOn σ'.storage (InUse h.blocks) := by
  have hmax := maxHeap_eq
  have hb := h.shape.bounds s.mem
  have hs := h.shape_at s
  have hdiff : sub32 s.block.size n = s.block.size - n := sub32_of_le hle (by omega)
  have hr₀ : Represents σ (s.pre ++ s.block :: s.post) h.brk h.rover := by
    rw [s.split]
    exact hr
  have hrest (a : Nat) (ha : InUse h.blocks a) : InUse (s.pre ++ s.post) a := by
    rw [← s.split] at ha
    exact ha.sides hal
  have hin (c : Cut s.block n) {x : Block} (hx : x ∈ c.pieces) : x.InHeap :=
    c.inHeap (h.shape_at s) hx
  have hretag (c : Cut s.block n) := by
    rw [← List.singleton_append, ← List.append_assoc] at hr₀ hs
    exact hr₀.retag hs c.pieces (fun _ _ => c.tiles) c.size
  unfold place
  refine (getSize_block hr₀.tagged hs).step ?_
  simp only [hdiff]
  by_cases hsmall : s.block.size - n < 2 * dsize
  · -- the whole block
    have hc : h.cut s n hn hle = .whole (h.shape.size _ s.mem) hn hle hsmall := dif_pos hsmall
    obtain ⟨hr₁, hag₁⟩ := hretag (.whole (h.shape.size _ s.mem) hn hle hsmall)
    rw [if_pos hsmall]
    refine (putTags_returns (b := ⟨s.block.off, s.block.size, true⟩) rfl
      (hin (.whole (h.shape.size _ s.mem) hn hle hsmall) List.mem_cons_self)).ensures ⟨?_, ?_⟩
    · simp only [Holds, Heap.place, Layout.take, hc]
      exact hr₁
    · exact hag₁.mono hrest
  · -- the request at the front
    have hc : h.cut s n hn hle = .front (h.shape.size _ s.mem) hn hsmall := dif_neg hsmall
    obtain ⟨hr₁, hag₁⟩ := hretag (.front (h.shape.size _ s.mem) hn hsmall)
    have hx : (⟨s.block.off, n, true⟩ : Block).InHeap :=
      hin (.front (h.shape.size _ s.mem) hn hsmall) List.mem_cons_self
    have hy : (⟨s.block.off + n, s.block.size - n, false⟩ : Block).InHeap :=
      hin (.front (h.shape.size _ s.mem) hn hsmall) (List.mem_cons_of_mem _ List.mem_cons_self)
    rw [if_neg hsmall]
    refine putTags_step (b := ⟨s.block.off, n, true⟩) rfl hx ?_
    refine (putTags_next_returns (b := ⟨s.block.off, n, true⟩) rfl (tagBlock_tags hx).1 hx hy
      rfl).ensures ⟨?_, ?_⟩
    · simp only [Holds, Heap.place, Layout.take, hc]
      exact hr₁
    · exact hag₁.mono hrest

/-- `mm_malloc` is `Heap.malloc` for the block size it computes. -/
theorem mmMalloc_ensures {size : Nat} (hr : Holds σ h) (hpos : 0 < size)
    (hsize : size ≤ 2 ^ 32 - 16) :
    Ensures (mmMalloc size) σ fun p σ' =>
      match h.malloc (need size) (need_ok size).1 with
      | some (b, h') => p = A.start + b.off ∧ Holds σ' h' ∧
          σ.storage.AgreeOn σ'.storage (InUse h.blocks)
      | none => p = 0 ∧ σ' = σ := by
  have hA := A.pos
  obtain ⟨hnew, hlt⟩ := newSizeOf_eq hsize
  have hn := (need_ok size).1
  have hext := extension_ok hn
  unfold mmMalloc
  rw [if_neg (by omega), hnew]
  refine (findFit_returns hr h.shape h.current).step ?_
  simp only [mmMax_chunksize]
  rcases h.malloc_cases (need size) hn with
    ⟨s, hal, hle, hfit, hmalloc⟩ | ⟨hfit, hgrow, hmalloc⟩ | ⟨hfit, hgrow, hmalloc⟩
  · have hr₁ : Holds (withRover σ s.block.off) (h.aim s) :=
      ⟨hr.brk, hr.listp, rfl, hr.tagged⟩
    rw [hmalloc, hfit, if_pos (by simp only [hit, Option.map_some, Option.getD_some]; omega)]
    refine (place_ensures hr₁ s hal hn hle).bind ?_
    intro _ σ₂ hσ
    obtain ⟨hr₂, hag₂⟩ := hσ
    exact .pure ⟨congrArg (A.start + ·) (placeCut_off _ hn hle).symm, hr₂, hag₂⟩
  · rw [hmalloc, hfit, if_neg (by simp [hit])]
    refine (extendHeap_ensures hr hext hgrow).bind ?_
    intro p σ₁ hσ
    obtain ⟨rfl, hr₁, hag₁⟩ := hσ
    rw [if_neg (by omega)]
    refine (place_ensures hr₁ (h.topSpot _ hext hgrow) rfl hn (Layout.top_fits hn hgrow)).bind ?_
    intro _ σ₂ hσ
    obtain ⟨hr₂, hag₂⟩ := hσ
    refine .pure ⟨congrArg (A.start + ·) (placeCut_off _ hn _).symm, hr₂, ?_⟩
    exact hag₁.trans (hag₂.mono fun a => Layout.grow_inUse hext hgrow)
  · rw [hmalloc, hfit, if_neg (by simp [hit])]
    refine (extendHeap_refused hr hext.1 ?_ hgrow).step ?_
    · have hchunk : chunksize = 4096 := rfl
      unfold extension
      omega
    · rw [if_pos rfl]
      exact .pure ⟨rfl, rfl⟩

/-! ## Freeing -/

/-- `mm_free` is `Heap.release`. -/
theorem mmFree_ensures (hr : Holds σ h) (s : Spot h.blocks) :
    Ensures (mmFree (A.start + s.block.off)) σ fun _ σ' =>
      Holds σ' (h.release s) ∧
        σ.storage.AgreeOn σ'.storage (InUse (h.release s).blocks) := by
  have hbd := h.shape.bounds s.mem
  have ht := hr.tagged.header s.block s.mem
  have hr₀ : Represents σ (s.pre ++ [s.block] ++ s.post) h.brk h.rover := by
    rw [List.append_assoc, List.singleton_append, s.split]
    exact hr
  have hs₀ := h.shape_at s
  rw [← List.singleton_append, ← List.append_assoc] at hs₀
  obtain ⟨hr₁, hag₁⟩ := hr₀.retag hs₀ [s.block.freed] (fun _ _ h => h) fun b hb => by
    rw [List.mem_singleton.mp hb]
    exact h.shape.size s.block s.mem
  rw [List.append_assoc, List.singleton_append] at hr₁
  unfold mmFree
  refine (getSize_hdrp_returns (by omega) (by omega) ht).step ?_
  refine putTags_step (b := s.block.freed) rfl ((h.shape_freed s).inHeap (by simp)) ?_
  refine (coalesce_ensures hr₁ (h.shape_freed s) (h.current_freed s) rfl).bind ?_
  intro p σ₂ hσ
  obtain ⟨-, hr₂, hag₂⟩ := hσ
  refine .pure ⟨hr₂, Memory.AgreeOn.trans (hag₁.mono fun a ha => ?_) (hag₂.mono fun a ha => ?_)⟩
  · exact ((inUse_merge rfl).mp ha).sides rfl
  · exact (inUse_merge rfl).mp ha

end

end CToys.Malloc.Implicit
