import CToys.Malloc.Driver.Replay

/-!
# Machines that follow a replay

A client of a package has a machine and the pointers to its live blocks.  `Tracked` says that
they are where a replay of the requests on heaps has them.

Each call of the package is one step of the replay, as long as `mm_realloc` does not go wrong.
A call is refused if the replay refuses it.  Otherwise it hands out the block of the replay, and
the payloads of the other live blocks stay as they are (`Handed`).
-/

namespace CToys.Malloc.Driver

variable {A : Arena} {ρ : Type} {P : Package A ρ} {I : Interface P}

/-- The machine holds the heap of the replay, and the pointers are those of its blocks. -/
structure Tracked (σ : Machine A ρ) (ptr : Nat → Nat) (s : Play I) (live : Live) : Prop where
  holds : I.Holds σ s.heap
  placed : Placed s live
  blocks : ∀ e ∈ live.entries, ptr e.1 = A.start + (s.place e.1).off

/-- The payloads of the live blocks are as before. -/
def Spared (s : Play I) (live : Live) (σ σ₁ : Machine A ρ) : Prop :=
  ∀ e ∈ live.entries, ∀ j < e.2,
    σ₁.storage ((s.place e.1).off + j) = σ.storage ((s.place e.1).off + j)

/-- The block `b` was handed out for `n` bytes. -/
structure Handed (s : Play I) (live : Live) (n : Nat) (σ : Machine A ρ) (b : Block) (h' : I.Heap)
    (σ₁ : Machine A ρ) : Prop where
  offered : Offered s live n b h'
  holds : I.Holds σ₁ h'
  spared : Spared s live σ σ₁

variable {σ σ₁ : Machine A ρ} {ptr : Nat → Nat} {s : Play I} {live : Live} {i n : Nat}
  {b : Block} {h' : I.Heap}

/-- The other indices keep their places. -/
theorem put_place_of_mem (s : Play I) (b : Block) (h' : I.Heap) (hi : i ∉ live)
    {e : (_ : Nat) × Nat} (he : e ∈ live.entries) :
    e.1 ≠ i ∧ (s.put i b h').place e.1 = s.place e.1 := by
  have hne : e.1 ≠ i := fun hei => hi (hei ▸ Live.mem_of_lookup (Live.mem_entries.mp he))
  exact ⟨hne, Play.put_place_of_ne hne⟩

namespace Tracked

/-- After `mm_init` no block is live. -/
theorem start (h : I.Holds σ I.initial) : Tracked σ ptr (Play.initial I) ∅ :=
  ⟨h, .empty, by simp⟩

/-- The pointer of a live block. -/
theorem pointer (h : Tracked σ ptr s live) (hi : i ∈ live) :
    ptr i = A.start + (s.place i).off := by
  obtain ⟨n, hn⟩ := Placed.entry hi
  exact h.blocks _ hn

/-- Forget an index. -/
theorem erase (h : Tracked σ ptr s live) : Tracked σ ptr s (live.erase i) :=
  ⟨h.holds, h.placed.erase, fun e he => h.blocks e (Placed.mem_erase he).1⟩

/-- A block that was handed out is live. -/
theorem give (h : Tracked σ ptr s live) (hi : i ∉ live) (hn : 0 < n)
    (hb : Handed s live n σ b h' σ₁) :
    Tracked σ₁ (Function.update ptr i (A.start + b.off)) (s.put i b h') (live.insert i n) := by
  refine ⟨hb.holds, h.placed.give hi hn hb.offered, ?_⟩
  rw [AList.entries_insert_of_notMem hi]
  refine List.forall_mem_cons.mpr ⟨?_, fun e he => ?_⟩
  · rw [Function.update_self, Play.put_place_self]
  · obtain ⟨hne, hplace⟩ := put_place_of_mem s b h' hi he
    rw [Function.update_of_ne hne, hplace]
    exact h.blocks e he

/-- The payload of a live block in the heap. -/
theorem payload (h : Tracked σ ptr s live) {e : (_ : Nat) × Nat} (he : e ∈ live.entries) {j : Nat}
    (hj : j < e.2) : (s.place e.1).Payload ((s.place e.1).off + j) := by
  have hsize := h.placed.size e he
  exact ⟨by omega, by omega⟩

/-! ## Calls -/

/-- A call of `mm_malloc`. -/
theorem malloc (h : Tracked σ ptr s live) (hpos : 0 < n) (hle : n ≤ intMax) :
    (I.malloc s.heap n = none ∧ Returns (P.mmMalloc n) σ 0 σ) ∨
    ∃ b h' σ₁, I.malloc s.heap n = some (b, h') ∧
      Returns (P.mmMalloc n) σ (A.start + b.off) σ₁ ∧ Handed s live n σ b h' σ₁ := by
  obtain ⟨p, σ₁, hret, hq⟩ := I.mmMalloc_ensures h.holds hpos hle
  cases hm : I.malloc s.heap n with
  | none =>
    rw [hm] at hq
    obtain ⟨rfl, rfl⟩ := hq
    exact .inl ⟨rfl, hret⟩
  | some r =>
    rw [hm] at hq
    obtain ⟨rfl, hholds, hag⟩ := hq
    refine .inr ⟨r.1, r.2, σ₁, rfl, hret, h.placed.offered_malloc hm, hholds, fun e he j hj => ?_⟩
    exact hag _ ⟨_, h.placed.mem e he, h.placed.alloc e he, h.payload he hj⟩

/-- A call of `mm_free`. -/
theorem free (h : Tracked σ ptr s live) (hi : i ∈ live) :
    ∃ σ₁, Returns (P.mmFree (ptr i)) σ () σ₁ ∧
      Tracked σ₁ ptr (s.release (s.place i)) (live.erase i) ∧
      Spared s (live.erase i) σ σ₁ := by
  obtain ⟨n, hn⟩ := Placed.entry hi
  have hmem := h.placed.mem _ hn
  have hal := h.placed.alloc _ hn
  obtain ⟨⟨⟩, σ₁, hret, hholds, hag⟩ := I.mmFree_ensures h.holds hmem hal
  have hrest : ∀ e ∈ (live.erase i).entries, s.place e.1 ≠ s.place i :=
    fun e he => h.placed.ne_of_erase hn he
  rw [← h.pointer hi] at hret
  refine ⟨σ₁, hret, ⟨hholds, h.placed.erase.free hmem hal hrest, h.erase.blocks⟩,
    fun e he j hj => ?_⟩
  have hlive := (Placed.mem_erase he).1
  have hal' := h.placed.alloc e hlive
  have hstays := (I.free_alloc hmem hal _ hal').mpr ⟨h.placed.mem e hlive, hrest e he⟩
  exact hag _ ⟨_, hstays, hal', h.payload hlive hj⟩

/-- A call of `mm_realloc`.  The block has what the old one had. -/
theorem realloc (h : Tracked σ ptr s live) {m : Nat} (hi : ⟨i, m⟩ ∈ live.entries) (hpos : 0 < n)
    (hle : n ≤ intMax) (hsane : I.breaks s.heap (s.place i) n = false) :
    (I.realloc s.heap (s.place i) n = none ∧ Returns (P.mmRealloc (ptr i) n) σ 0 σ) ∨
    ∃ b h' σ₁, I.realloc s.heap (s.place i) n = some (b, h') ∧
      Returns (P.mmRealloc (ptr i) n) σ (A.start + b.off) σ₁ ∧
      Handed s (live.erase i) n σ b h' σ₁ ∧
      ∀ j < min m n, σ₁.storage (b.off + j) = σ.storage ((s.place i).off + j) := by
  have hlive : i ∈ live := Live.mem_of_lookup (Live.mem_entries.mp hi)
  have hsize : m + 8 ≤ (s.place i).size := (h.placed.size _ hi).2
  have hmem : s.place i ∈ (I.layout s.heap).blocks := h.placed.mem _ hi
  obtain ⟨p, σ₁, hret, hq⟩ := I.mmRealloc_ensures h.holds hmem (h.placed.alloc _ hi) hpos hle hsane
  rw [← h.pointer hlive] at hret
  cases hm : I.realloc s.heap (s.place i) n with
  | none =>
    rw [hm] at hq
    obtain ⟨rfl, rfl⟩ := hq
    exact .inl ⟨rfl, hret⟩
  | some r =>
    rw [hm] at hq
    obtain ⟨rfl, hholds, hframe, hcontents⟩ := hq
    refine .inr ⟨r.1, r.2, σ₁, rfl, hret, ⟨h.placed.offered_realloc hlive hm, hholds,
      fun e he j hj => ?_⟩, fun j hj => hcontents j (by omega)⟩
    have he' := (Placed.mem_erase he).1
    exact hframe _ ⟨_, h.placed.mem e he', h.placed.alloc e he', h.placed.ne_of_erase hi he,
      h.payload he' hj⟩

end Tracked

end CToys.Malloc.Driver
