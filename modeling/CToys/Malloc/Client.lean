import CToys.Malloc.Layout
import Mathlib.Logic.Function.Basic

/-!
# Clients

What the clients of an allocator hold.  Calls of `mm_malloc` are numbered, and the
`Ledger` records for every call the pointer and the requested size until the block is
freed.  Clients refer to a block by the number of the call that returned it, so two runs
can free the same block even where the pointers differ.

`Served l n b l'` says what an allocator may do for a request of `n` bytes: allocate one
new block of that size, apart from all others, and nothing else.  `Serves A L l` ties a
ledger to a layout: live pointers and allocated blocks correspond one to one.
-/

namespace CToys.Malloc

/-- `INT_MAX`. -/
def intMax : Nat := 2 ^ 31 - 1

/-- A request that clients make. -/
abbrev Request : Type := { n : Nat // 1 ≤ n ∧ n ≤ intMax }

/-- A request of 24 bytes. -/
def Request.small : Request := ⟨24, by decide⟩

/-- The block size for a request: payload, header and footer, rounded up. -/
def need (size : Nat) : Nat := max 16 (8 * ((size + 15) / 8))

theorem need_ok (size : Nat) : (8 ∣ need size ∧ 16 ≤ need size) ∧ size + 8 ≤ need size := by
  unfold need
  omega

/-- A block that was given out. -/
structure Grant where
  /-- The pointer. -/
  ptr : Nat
  /-- The size that was asked for. -/
  size : Nat

/-- What the clients hold. -/
structure Ledger where
  /-- The number of calls so far. -/
  calls : Nat
  /-- The block that a call returned, while it is live. -/
  live : Nat → Option Grant

namespace Ledger

/-- Nothing was allocated yet. -/
def empty : Ledger := ⟨0, fun _ => none⟩

/-- A call returned `p`. -/
def record (L : Ledger) (p size : Nat) : Ledger where
  calls := L.calls + 1
  live := if p = 0 then L.live else Function.update L.live L.calls (some ⟨p, size⟩)

/-- The block of call `k` was freed. -/
def drop (L : Ledger) (k : Nat) : Ledger := ⟨L.calls, Function.update L.live k none⟩

/-- `mm_realloc` of the block of call `k` to `size` bytes returned `p`. -/
def resize (L : Ledger) (k size p : Nat) : Ledger :=
  if size = 0 then L.drop k else if p = 0 then L.record 0 size else (L.record p size).drop k

section

variable {L : Ledger} {j k p size : Nat}

theorem record_live_self (L : Ledger) (size : Nat) (hp : p ≠ 0) :
    (L.record p size).live L.calls = some ⟨p, size⟩ := by
  simp [record, hp]

theorem record_live_of_ne (hk : k ≠ L.calls) : (L.record p size).live k = L.live k := by
  unfold record
  split <;> simp [hk]

theorem resize_moved (hs : size ≠ 0) (hp : p ≠ 0) :
    L.resize k size p = (L.record p size).drop k := by
  simp [resize, hs, hp]

theorem resize_refused (hs : size ≠ 0) : L.resize k size 0 = L.record 0 size := by
  simp [resize, hs]

theorem drop_live_self : (L.drop k).live k = none := by simp [drop]

theorem drop_live_of_ne (hj : j ≠ k) : (L.drop k).live j = L.live j := by simp [drop, hj]

end

end Ledger

/-- An allocator's machine and its clients. -/
structure Client (A : Arena) (ρ : Type) where
  /-- The machine. -/
  machine : Machine A ρ
  /-- What the clients hold. -/
  ledger : Ledger

/-- `GET_SIZE(HDRP(p))` of a pointer into the storage. -/
def Machine.blockSize {A : Arena} {ρ : Type} (σ : Machine A ρ) (p : Nat) : Nat :=
  σ.storage.word (p - A.start - 4) &&& 0xFFFFFFF8

theorem blockSize_eq {A : Arena} {ρ : Type} {σ : Machine A ρ} {b : Block}
    (h : HasTag σ.storage (b.off - 4) b.size b.alloc) :
    σ.blockSize (A.start + b.off) = b.size := by
  have := maxHeap_eq
  have hle := h.le
  rw [Machine.blockSize, Nat.add_sub_cancel_left, h.word, tag_and_size h.dvd (by omega)]

/-! ## Serving a request -/

/-- One new block for a request of `n` bytes. -/
structure Served (l : Layout) (n : Nat) (b : Block) (l' : Layout) : Prop where
  alloc : b.alloc = true
  enough : b.size = n ∨ b.size = n + 8
  blocks : ∀ c, c.alloc = true → (c ∈ l'.blocks ↔ c = b ∨ c ∈ l.blocks)
  apart : ∀ c ∈ l.blocks, c.alloc = true →
    c.off + c.size ≤ b.off ∨ b.off + b.size ≤ c.off

theorem Served.mem {l l' : Layout} {n : Nat} {b : Block} (h : Served l n b l') :
    b ∈ l'.blocks :=
  (h.blocks b h.alloc).mpr (.inl rfl)

theorem Served.ne_nil {l l' : Layout} {n : Nat} {b : Block} (h : Served l n b l') :
    l'.blocks ≠ [] :=
  List.ne_nil_of_mem h.mem

namespace Layout

variable {l : Layout} {n : Nat}

/-- Cutting a free block serves a request. -/
theorem take_served {s : Spot l.blocks} (hal : s.block.alloc = false) (cut : Cut s.block n) :
    Served l n cut.taken (l.take s hal cut) := by
  refine ⟨cut.alloc, cut.enough, fun c hc => take_alloc hc, fun c hc hcal => ?_⟩
  have hb := taken_bounds cut
  rcases l.shape.apart hc s.mem with rfl | h | h
  · rw [hal] at hcal
    cases hcal
  · omega
  · omega

/-- So does growing first. -/
theorem served_of_grow {m : Nat} {hn : 8 ∣ m ∧ 16 ≤ m} {hle : l.brk + m ≤ maxHeap} {b : Block}
    {l' : Layout} (h : Served (l.grow m hn hle) n b l') : Served l n b l' :=
  ⟨h.alloc, h.enough, fun c hc => by rw [h.blocks c hc, grow_alloc hn hle hc],
    fun c hc hcal => h.apart c ((grow_alloc hn hle hcal).mpr hc) hcal⟩

end Layout

/-! ## Ledgers and layouts -/

/-- The live pointers are the pointers to the allocated blocks. -/
structure Serves (A : Arena) (L : Ledger) (l : Layout) : Prop where
  fresh : ∀ k, L.calls ≤ k → L.live k = none
  block : ∀ {k g}, L.live k = some g → ∃ b ∈ l.blocks, b.alloc = true ∧
    g.ptr = A.start + b.off ∧ (b.size = need g.size ∨ b.size = need g.size + 8)
  owner : ∀ b ∈ l.blocks, b.alloc = true → ∃ k g, L.live k = some g ∧ g.ptr = A.start + b.off
  inj : ∀ {k k' g g'}, L.live k = some g → L.live k' = some g' → g.ptr = g'.ptr → k = k'

namespace Serves

variable {A : Arena} {L : Ledger} {l l' : Layout} {size : Nat} {b : Block}

theorem empty (l : Layout) (hl : ∀ b ∈ l.blocks, b.alloc = false) : Serves A .empty l := by
  refine ⟨fun _ _ => rfl, fun h => ?_, fun b hb hal => ?_, fun h => ?_⟩
  · cases h
  · rw [hl b hb] at hal
    cases hal
  · cases h

/-- A live block was returned by an earlier call. -/
theorem lt_calls {k : Nat} {g : Grant} (h : Serves A L l) (hk : L.live k = some g) :
    k < L.calls := by
  by_contra hlt
  rw [h.fresh k (Nat.not_lt.mp hlt)] at hk
  cases hk

/-- The block of a live pointer. -/
theorem spot {k : Nat} {g : Grant} (h : Serves A L l) (hk : L.live k = some g) :
    ∃ s : Spot l.blocks, s.block.alloc = true ∧ g.ptr = A.start + s.block.off ∧
      (s.block.size = need g.size ∨ s.block.size = need g.size + 8) := by
  obtain ⟨b, hb, hal, hg, hsize⟩ := h.block hk
  refine ⟨.of l.blocks b hb, ?_⟩
  rw [Spot.of_block]
  exact ⟨hal, hg, hsize⟩

/-- A write of a client changes one byte, in the payload of an allocated block. -/
theorem write_returns {ρ : Type} {k i : Nat} {g : Grant} (h : Serves A L l) (σ : Machine A ρ)
    (hk : L.live k = some g) (hi : i < g.size) (v : UInt8) :
    Returns (storeByte (g.ptr + i) v) σ ()
        (σ.withStorage (σ.storage.setByte (g.ptr - A.start + i) v)) ∧
      σ.storage.AgreeOn (σ.storage.setByte (g.ptr - A.start + i) v)
        fun a => ∀ b ∈ l.blocks, b.alloc = true → ¬ b.Payload a := by
  obtain ⟨b, hb, hal, hg, hsize⟩ := h.block hk
  have hbd := l.shape.bounds hb
  have hneed := (need_ok g.size).2
  rw [hg, Nat.add_sub_cancel_left, Nat.add_assoc]
  refine ⟨storeByte_returns (by omega), fun a ha => Memory.setByte_apply_of_ne ?_⟩
  rintro rfl
  exact ha b hb hal ⟨by omega, by omega⟩

/-- A byte of a live block after a write of a client. -/
theorem setByte_apply {k k' i i' : Nat} {g g' : Grant} (h : Serves A L l) (hb : b ∈ l.blocks)
    (hk : L.live k = some g) (hg : g.ptr = A.start + b.off) (hk' : L.live k' = some g')
    (hi' : i' < g'.size) (hi : i < b.size - 8) (v : UInt8) (m : Memory) :
    m.setByte (g'.ptr - A.start + i') v (b.off + i) =
      if k' = k ∧ i' = i then v else m (b.off + i) := by
  obtain ⟨b', hb', -, hg', hsize⟩ := h.block hk'
  have hbd' := l.shape.bounds hb'
  have hneed := (need_ok g'.size).2
  rw [hg', Nat.add_sub_cancel_left]
  by_cases hkk : k' = k
  · subst hkk
    obtain rfl := Option.some.inj (hk'.symm.trans hk)
    have hoff : b'.off = b.off := Nat.add_left_cancel (hg'.symm.trans hg)
    rw [hoff]
    by_cases hii : i' = i
    · simp [hii, Memory.setByte]
    · rw [if_neg (by simp [hii]), Memory.setByte_apply_of_ne (by omega)]
  · -- the other block is apart
    rw [if_neg (by simp [hkk])]
    refine Memory.setByte_apply_of_ne ?_
    have hne : b ≠ b' := fun e => hkk (h.inj hk' hk (by rw [hg, hg', e]))
    rcases l.shape.apart hb hb' with e | e | e
    · exact absurd e hne
    · omega
    · omega

/-- Only the allocated blocks matter. -/
theorem congr (h : Serves A L l)
    (hl : ∀ c, c.alloc = true → (c ∈ l'.blocks ↔ c ∈ l.blocks)) : Serves A L l' := by
  refine ⟨h.fresh, fun hk => ?_, fun b hb hal => h.owner b ((hl b hal).mp hb) hal, h.inj⟩
  obtain ⟨b, hb, hal, hg⟩ := h.block hk
  exact ⟨b, (hl b hal).mpr hb, hal, hg⟩

/-- A call that returned `NULL`. -/
theorem refuse (h : Serves A L l) : Serves A (L.record 0 size) l :=
  ⟨fun k hk => h.fresh k (Nat.le_of_succ_le hk), h.block, h.owner, h.inj⟩

/-- A call that returned a new block. -/
theorem record (h : Serves A L l) (hs : Served l (need size) b l') :
    Serves A (L.record (A.start + b.off) size) l' := by
  have hA := A.pos
  have hp : A.start + b.off ≠ 0 := by omega
  have hbd := l'.shape.bounds hs.mem
  -- no live pointer is the new one
  have hnew : ∀ {k g}, L.live k = some g → g.ptr ≠ A.start + b.off := by
    intro k g hk hg
    obtain ⟨c, hc, hcal, hcg, -⟩ := h.block hk
    have := l.shape.bounds hc
    have := hs.apart c hc hcal
    omega
  refine ⟨fun k hk => ?_, fun {k g} hk => ?_, fun c hc hcal => ?_, fun {k k' g g'} hk hk' e => ?_⟩
  · have hk : L.calls + 1 ≤ k := hk
    rw [Ledger.record_live_of_ne (by omega)]
    exact h.fresh k (by omega)
  · by_cases hkc : k = L.calls
    · rw [hkc, Ledger.record_live_self _ _ hp] at hk
      cases hk
      exact ⟨b, hs.mem, hs.alloc, rfl, hs.enough⟩
    · rw [Ledger.record_live_of_ne hkc] at hk
      obtain ⟨c, hc, hcal, hg⟩ := h.block hk
      exact ⟨c, (hs.blocks c hcal).mpr (.inr hc), hcal, hg⟩
  · rcases (hs.blocks c hcal).mp hc with rfl | hc
    · exact ⟨L.calls, _, Ledger.record_live_self _ _ hp, rfl⟩
    · obtain ⟨k, g, hk, hg⟩ := h.owner c hc hcal
      have hkc : k ≠ L.calls := (h.lt_calls hk).ne
      exact ⟨k, g, by rw [Ledger.record_live_of_ne hkc, hk], hg⟩
  · by_cases hkc : k = L.calls <;> by_cases hkc' : k' = L.calls
    · exact hkc.trans hkc'.symm
    · rw [hkc, Ledger.record_live_self _ _ hp] at hk
      rw [Ledger.record_live_of_ne hkc'] at hk'
      cases hk
      exact absurd e.symm (hnew hk')
    · rw [hkc', Ledger.record_live_self _ _ hp] at hk'
      rw [Ledger.record_live_of_ne hkc] at hk
      cases hk'
      exact absurd e (hnew hk)
    · rw [Ledger.record_live_of_ne hkc] at hk
      rw [Ledger.record_live_of_ne hkc'] at hk'
      exact h.inj hk hk' e

/-- The block of call `k` became free. -/
theorem drop {k : Nat} {g : Grant} (h : Serves A L l) (hk : L.live k = some g)
    (hb : b ∈ l.blocks) (hg : g.ptr = A.start + b.off)
    (hl : ∀ c, c.alloc = true → (c ∈ l'.blocks ↔ c ∈ l.blocks ∧ c ≠ b)) :
    Serves A (L.drop k) l' := by
  -- a block that is live after the call was live before, under another number
  have hold : ∀ {j g'}, (L.drop k).live j = some g' → j ≠ k ∧ L.live j = some g' := by
    intro j g' hj
    have hjk : j ≠ k := by
      rintro rfl
      rw [Ledger.drop_live_self] at hj
      cases hj
    exact ⟨hjk, by rwa [Ledger.drop_live_of_ne hjk] at hj⟩
  refine ⟨fun j hj => ?_, fun {j g'} hj => ?_, fun c hc hcal => ?_, fun {j j' g g'} hj hj' e => ?_⟩
  · by_cases hjk : j = k
    · rw [hjk, Ledger.drop_live_self]
    · rw [Ledger.drop_live_of_ne hjk]
      exact h.fresh j hj
  · obtain ⟨hjk, hj⟩ := hold hj
    obtain ⟨c, hc, hcal, hcg, hsize⟩ := h.block hj
    refine ⟨c, (hl c hcal).mpr ⟨hc, ?_⟩, hcal, hcg, hsize⟩
    rintro rfl
    exact hjk (h.inj hj hk (hcg.trans hg.symm))
  · obtain ⟨hc, hne⟩ := (hl c hcal).mp hc
    obtain ⟨j, g', hj, hg'⟩ := h.owner c hc hcal
    have hjk : j ≠ k := by
      rintro rfl
      obtain rfl := Option.some.inj (hj.symm.trans hk)
      exact hne (l.shape.eq_of_off hc hb (by omega))
    exact ⟨j, g', by rw [Ledger.drop_live_of_ne hjk, hj], hg'⟩
  · exact h.inj (hold hj).2 (hold hj').2 e

end Serves

end CToys.Malloc
