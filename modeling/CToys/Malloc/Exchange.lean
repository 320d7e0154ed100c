import CToys.Malloc.Client

/-!
# Blocks that are exchanged

`mm_realloc` gives the client one block for another.  `Exchanged` says this about the layouts
before and after: the new block is large enough, and the other allocated blocks are those from
before.  It leaves open whether the new block is where the old one was.

A block that stays and one that moves are both exchanged.  The new block is apart from the
others (`Exchanged.apart`), since the layout afterwards has all of them.
-/

namespace CToys.Malloc

/-- Blocks of a shape have one place each. -/
theorem Spot.eq_of_block {bs : List Block} {e : Nat} (h : Shape bs e) {s s' : Spot bs}
    (hb : s.block = s'.block) : s = s' := by
  obtain ⟨pre, b, post, rfl⟩ := s
  obtain ⟨pre', b', post', hsplit⟩ := s'
  obtain rfl : b = b' := hb
  have hnot := h.notMem
  rw [List.mem_append, not_or] at hnot
  obtain ⟨rfl, -, rfl⟩ := (List.append_cons_inj_of_notMem hnot.1 hnot.2).mp hsplit.symm
  rfl

theorem Spot.exists_of_mem {bs : List Block} {b : Block} (hb : b ∈ bs) :
    ∃ s : Spot bs, s.block = b :=
  ⟨.of bs b hb, Spot.of_block hb⟩

/-- The block `b` became the block `t` of at least `n` bytes. -/
structure Exchanged (l : Layout) (b : Block) (n : Nat) (t : Block) (l' : Layout) : Prop where
  alloc : t.alloc = true
  enough : n ≤ t.size
  blocks : ∀ c, c.alloc = true → (c ∈ l'.blocks ↔ c = t ∨ c ∈ l.blocks ∧ c ≠ b)
  fresh : ∀ c ∈ l.blocks, c.alloc = true → c ≠ b → c ≠ t

namespace Exchanged

variable {l l₁ l' : Layout} {b t : Block} {n : Nat}

theorem mem (h : Exchanged l b n t l') : t ∈ l'.blocks :=
  (h.blocks t h.alloc).mpr (.inl rfl)

theorem other (h : Exchanged l b n t l') {c : Block} (hc : c ∈ l.blocks) (hcal : c.alloc = true)
    (hne : c ≠ b) : c ∈ l'.blocks :=
  (h.blocks c hcal).mpr (.inr ⟨hc, hne⟩)

/-- The new block does not overlap the others. -/
theorem apart (h : Exchanged l b n t l') {c : Block} (hc : c ∈ l.blocks) (hcal : c.alloc = true)
    (hne : c ≠ b) : c.off + c.size ≤ t.off ∨ t.off + t.size ≤ c.off :=
  (l'.shape.apart (h.other hc hcal hne) h.mem).resolve_left (h.fresh c hc hcal hne)

/-- A block that stays. -/
theorem refl (hb : b ∈ l.blocks) (hal : b.alloc = true) (hn : n ≤ b.size) :
    Exchanged l b n b l where
  alloc := hal
  enough := hn
  blocks c _ := by
    by_cases hcb : c = b
    · exact iff_of_true (hcb ▸ hb) (.inl hcb)
    · rw [or_iff_right hcb, and_iff_left hcb]
  fresh _ _ _ hne := hne

/-- A block that has another size, but not another place. -/
theorem inPlace (hb : b ∈ l.blocks) (hoff : t.off = b.off) (hal : t.alloc = true)
    (hn : n ≤ t.size)
    (h : ∀ c, c.alloc = true → (c ∈ l'.blocks ↔ c = t ∨ c ∈ l.blocks ∧ c ≠ b)) :
    Exchanged l b n t l' := by
  refine ⟨hal, hn, h, ?_⟩
  rintro c hc - hne rfl
  exact hne (l.shape.eq_of_off hc hb hoff)

/-- Only the allocated blocks matter. -/
theorem of_alloc (h : Exchanged l₁ b n t l')
    (hl : ∀ c, c.alloc = true → (c ∈ l₁.blocks ↔ c ∈ l.blocks)) : Exchanged l b n t l' where
  alloc := h.alloc
  enough := h.enough
  blocks c hc := by rw [h.blocks c hc, hl c hc]
  fresh c hc hcal hne := h.fresh c ((hl c hcal).mpr hc) hcal hne

/-- A block that moves: another one is allocated and the old one is freed. -/
theorem move (hserved : Served l n t l₁) (hb : b ∈ l.blocks) (hal : b.alloc = true)
    (hfree : ∀ c, c.alloc = true → (c ∈ l'.blocks ↔ c ∈ l₁.blocks ∧ c ≠ b)) :
    Exchanged l b n t l' := by
  have hfresh : ∀ c ∈ l.blocks, c.alloc = true → c ≠ t := by
    rintro c hc hcal rfl
    have := hserved.apart c hc hcal
    have := (l.shape.bounds hc).2.2.2.1
    omega
  refine ⟨hserved.alloc, ?_, fun c hc => ?_, fun c hc hcal _ => hfresh c hc hcal⟩
  · have := hserved.enough
    omega
  rw [hfree c hc, hserved.blocks c hc]
  constructor
  · rintro ⟨rfl | hmem, hne⟩
    · exact .inl rfl
    · exact .inr ⟨hmem, hne⟩
  · rintro (rfl | ⟨hmem, hne⟩)
    · exact ⟨.inl rfl, (hfresh b hb hal).symm⟩
    · exact ⟨.inr hmem, hne⟩

end Exchanged

end CToys.Malloc
