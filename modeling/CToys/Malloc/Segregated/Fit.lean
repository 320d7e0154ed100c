import CToys.Malloc.Segregated.Bins

/-!
# Finding a fit

`find_fit` goes through the lists from the first one and skips a list as long as the
request, shifted by the list's position, is above 1.  In a list it takes the first block
that is large enough.  `fit` is this search on the bins.

A block of size `s` is filed in list `min 15 (log2 s)`, so a request of `n` bytes must
look at all lists from `log2 n` on.  It does so if `n < 2 ^ 16` (`fit_eq_none`).  From
`2 ^ 16` bytes on the shift does not come down to 1 at position 15 either, and no list is
looked at (`fit_of_ge`).
-/

namespace CToys.Malloc.Segregated

variable {A : Arena}

/-- The search of `find_fit` over `left` lists from position `pos` on. -/
def fitFrom (bins : Nat → List Block) (n : Nat) : (left pos : Nat) → Option Block
  | 0, _ => none
  | left + 1, pos =>
      if n >>> pos ≤ 1 then
        ((bins pos).find? (n ≤ ·.size)).or (fitFrom bins n left (pos + 1))
      else fitFrom bins n left (pos + 1)

/-- The block that `find_fit` finds. -/
def fit (bins : Nat → List Block) (n : Nat) : Option Block := fitFrom bins n listMax 0

/-! ## What is found -/

section

variable {bins : Nat → List Block} {n : Nat} {b : Block}

/-- The block is the first large enough one of its list, and the lists searched before have
none. -/
private theorem fitFrom_some : ∀ {left pos : Nat}, fitFrom bins n left pos = some b →
    ∃ i, pos ≤ i ∧ i < pos + left ∧ n >>> i ≤ 1 ∧ (bins i).find? (n ≤ ·.size) = some b ∧
      ∀ j, pos ≤ j → j < i → n >>> j ≤ 1 → ∀ c ∈ bins j, c.size < n
  | 0, _, h => by simp [fitFrom] at h
  | left + 1, pos, h => by
      have hrest (h : fitFrom bins n left (pos + 1) = some b)
          (hpos : n >>> pos ≤ 1 → ∀ c ∈ bins pos, c.size < n) :
          ∃ i, pos ≤ i ∧ i < pos + (left + 1) ∧ n >>> i ≤ 1 ∧
            (bins i).find? (n ≤ ·.size) = some b ∧
            ∀ j, pos ≤ j → j < i → n >>> j ≤ 1 → ∀ c ∈ bins j, c.size < n := by
        obtain ⟨i, h1, h2, h3, h4, h5⟩ := fitFrom_some h
        refine ⟨i, by omega, by omega, h3, h4, fun j hj hji => ?_⟩
        rcases Nat.eq_or_lt_of_le hj with rfl | hj
        · exact hpos
        · exact h5 j hj hji
      rw [fitFrom] at h
      split at h
      · next hs =>
        rcases Option.or_eq_some_iff.mp h with h | ⟨hnone, h⟩
        · exact ⟨pos, le_rfl, by omega, hs, h, fun j h1 h2 => absurd h2 (Nat.not_lt.mpr h1)⟩
        · refine hrest h fun _ c hc => ?_
          simpa using List.find?_eq_none.mp hnone c hc
      · next hs => exact hrest h fun h => absurd h hs

private theorem fitFrom_none : ∀ {left pos : Nat}, fitFrom bins n left pos = none ↔
    ∀ i, pos ≤ i → i < pos + left → n >>> i ≤ 1 → ∀ b ∈ bins i, b.size < n
  | 0, pos => by
      refine ⟨fun _ i h1 h2 => ?_, fun _ => rfl⟩
      omega
  | left + 1, pos => by
      rw [fitFrom]
      have hsplit : (∀ i, pos ≤ i → i < pos + (left + 1) → n >>> i ≤ 1 →
          ∀ b ∈ bins i, b.size < n) ↔ (n >>> pos ≤ 1 → ∀ b ∈ bins pos, b.size < n) ∧
            ∀ i, pos + 1 ≤ i → i < pos + 1 + left → n >>> i ≤ 1 →
              ∀ b ∈ bins i, b.size < n := by
        constructor
        · exact fun h => ⟨h pos le_rfl (by omega), fun i h1 h2 => h i (by omega) (by omega)⟩
        · rintro ⟨h0, h⟩ i h1 h2
          rcases Nat.eq_or_lt_of_le h1 with rfl | h1
          · exact h0
          · exact h i h1 (by omega)
      rw [hsplit, ← fitFrom_none]
      split
      · next hs => simp [hs]
      · next hs => simp [hs]

theorem fit_some (h : fit bins n = some b) : ∃ i < listMax, b ∈ bins i ∧ n ≤ b.size := by
  obtain ⟨i, -, h2, -, h3, -⟩ := fitFrom_some h
  exact ⟨i, by omega, List.mem_of_find?_eq_some h3, by simpa using List.find?_some h3⟩

theorem fit_none : fit bins n = none ↔
    ∀ i < listMax, n >>> i ≤ 1 → ∀ b ∈ bins i, b.size < n := by
  rw [fit, fitFrom_none]
  exact ⟨fun h i hi => h i (by omega) (by omega), fun h i _ hi => h i (by omega)⟩

private theorem shift_le_one {i : Nat} : n >>> i ≤ 1 ↔ n < 2 ^ (i + 1) := by
  rw [Nat.shiftRight_eq_div_pow, ← Nat.lt_succ_iff, Nat.div_lt_iff_lt_mul (Nat.two_pow_pos i),
    Nat.pow_succ', Nat.succ_eq_add_one]

/-- No list is searched for a request of `2 ^ 16` bytes or more. -/
theorem fit_of_ge (h : 2 ^ 16 ≤ n) : fit bins n = none := by
  refine fit_none.mpr fun i hi hs => absurd (shift_le_one.mp hs) ?_
  have hpow : 2 ^ (i + 1) ≤ 2 ^ 16 :=
    Nat.pow_le_pow_right (by decide) (by unfold listMax at hi; omega)
  omega

/-- Below `2 ^ 16` bytes every list is searched that has a large enough block. -/
private theorem shift_bucket_le_one {size : Nat} (hn : n < 2 ^ 16) (hle : n ≤ size) :
    n >>> bucket size ≤ 1 := by
  rw [shift_le_one, bucket]
  rcases Nat.le_total (listMax - 1) (Nat.log2 size) with hl | hl
  · rw [Nat.min_eq_left hl]
    exact hn
  · rw [Nat.min_eq_right hl]
    exact Nat.lt_of_le_of_lt hle Nat.lt_log2_self

variable {bs : List Block}

theorem Filed.fit_mem (hf : Filed bs bins) (h : fit bins n = some b) :
    b ∈ bs ∧ b.alloc = false ∧ n ≤ b.size := by
  obtain ⟨i, hi, hb, hle⟩ := fit_some h
  have := (hf.mem i hi b).mp hb
  exact ⟨this.1, this.2.1, hle⟩

/-- Below `2 ^ 16` bytes the search misses no free block. -/
theorem Filed.fit_eq_none (hf : Filed bs bins) (hn : n < 2 ^ 16) :
    fit bins n = none ↔ ∀ b ∈ bs, b.alloc = false → b.size < n := by
  rw [fit_none]
  constructor
  · intro h b hb hal
    by_contra hge
    have hge : n ≤ b.size := Nat.not_lt.mp hge
    have := h _ (bucket_lt b.size) (shift_bucket_le_one hn hge) b (hf.mem_bucket hb hal)
    omega
  · intro h i hi _ b hb
    have := (hf.mem i hi b).mp hb
    exact h b this.1 this.2.1

/-- The first large enough block of a sorted list is the smallest one. -/
private theorem le_of_find {l : List Block} (hl : l.Pairwise SizeLe)
    (h : l.find? (n ≤ ·.size) = some b) {c : Block} (hc : c ∈ l) (hle : n ≤ c.size) :
    b.size ≤ c.size := by
  obtain ⟨-, l₁, l₂, rfl, hskip⟩ := List.find?_eq_some_iff_append.mp h
  rcases List.mem_append.mp hc with hc | hc
  · have := hskip c hc
    simp [hle] at this
  · rcases List.mem_cons.mp hc with rfl | hc
    · exact le_rfl
    · exact List.rel_of_pairwise_cons (List.pairwise_append.mp hl).2.1 hc

/-- No block of the heap fits better. -/
theorem Filed.fit_le (hf : Filed bs bins) (h : fit bins n = some b) {c : Block}
    (hc : c ∈ bs) (hal : c.alloc = false) (hle : n ≤ c.size) : b.size ≤ c.size := by
  obtain ⟨i, -, hi, hshift, hfind, hskip⟩ := fitFrom_some h
  have hi : i < listMax := by omega
  have hn : n < 2 ^ 16 := by
    have hlt := shift_le_one.mp hshift
    have hpow : 2 ^ (i + 1) ≤ 2 ^ 16 :=
      Nat.pow_le_pow_right (by decide) (by unfold listMax at hi; omega)
    omega
  have hbin := hf.mem_bucket hc hal
  rcases Nat.lt_trichotomy (bucket c.size) i with hlt | heq | hgt
  · -- a list that was searched before
    have := hskip _ (Nat.zero_le _) hlt (shift_bucket_le_one hn hle) c hbin
    omega
  · rw [heq] at hbin
    exact le_of_find (hf.sorted i hi) hfind hbin hle
  · -- a list of larger blocks
    have hb := ((hf.mem i hi b).mp (List.mem_of_find?_eq_some hfind)).2.2
    by_contra hnot
    have := bucket_mono (Nat.le_of_not_le hnot)
    omega

end

/-! ## `find_fit` -/

section

variable {σ : Machine A Statics} {bs : List Block} {e : Nat} {bins : Nat → List Block}

/-- The pointer to a block, or `NULL`. -/
def blockPtr (A : Arena) (b : Option Block) : Nat := ptrOf A (b.map Block.off)

/-- The walk over the rest `l` of a list. -/
private theorem fitWalk_returns {n : Nat} (ht : Tagged σ.storage bs e) (hs : Shape bs e) :
    ∀ (l : List Block) (fuel prev : Nat), l.length < fuel → l ⊆ bs →
      Segment (predAt A σ.storage) (succAt A σ.storage) prev (ptrs A (l.map Block.off)) 0 →
      Returns (fitWalk n fuel (blockPtr A l.head?)) σ
        (blockPtr A (l.find? (n ≤ ·.size))) σ
  | _, 0, _, hfuel, _, _ => absurd hfuel (Nat.not_lt_zero _)
  | [], fuel + 1, _, _, _, _ => .pure _ _
  | b :: l, fuel + 1, _, hfuel, hsub, hseg => by
      have hA := A.pos
      have hb : b ∈ bs := hsub (by simp)
      have hbd := hs.bounds hb
      rw [List.map_cons, ptrs_cons] at hseg
      obtain ⟨-, hsucc, hrest⟩ := Segment.cons.mp hseg
      rw [succAt_ptr, ptrs_head, List.head?_map] at hsucc
      have ih := fitWalk_returns (n := n) ht hs l fuel (A.start + b.off)
        (Nat.lt_of_succ_lt_succ hfuel) (fun x hx => hsub (by simp [hx])) hrest
      have hptr : blockPtr A (some b) = A.start + b.off := rfl
      rw [fitWalk, List.head?_cons, hptr, if_neg (by omega)]
      refine (getSize_hdrp_returns (by omega) (by omega) (ht.header b hb)).bind ?_
      by_cases hlt : b.size < n
      · have hnot : ¬ n ≤ b.size := by omega
        rw [if_pos hlt, List.find?_cons_of_neg (by simpa using hlt)]
        refine (succNode_returns (by omega)).bind ?_
        rw [hsucc]
        exact ih
      · rw [if_neg hlt, List.find?_cons_of_pos (by simpa using hlt)]
        exact .pure _ _

private theorem fitSearch_returns {n : Nat} (hr : Represents σ bs e bins) (hs : Shape bs e)
    (hf : Filed bs bins) : ∀ (left pos : Nat), left + pos = listMax →
      Returns (fitSearch n left pos (n >>> pos)) σ (blockPtr A (fitFrom bins n left pos)) σ
  | 0, _, _ => .pure _ _
  | left + 1, pos, hpos => by
      have hA := A.pos
      have hi : pos < listMax := by omega
      have ih := fitSearch_returns hr hs hf left (pos + 1) (by omega) (n := n)
      rw [Nat.shiftRight_add] at ih
      rw [fitSearch, fitFrom]
      refine (freeList_returns hi).bind ?_
      have hhead : σ.statics.freeLists pos = blockPtr A (bins pos).head? := by
        rw [hr.listed.head pos hi, offs, List.head?_map]
        rfl
      have hwalk := fitWalk_returns (n := n) hr.tagged hs (bins pos) walkFuel 0
        (by simpa [offs] using (hf.separate hs fun _ h => h).length_lt hi)
        (fun b hb => ((hf.mem pos hi b).mp hb).1) (hr.listed.links pos hi)
      rw [hhead]
      by_cases hshift : n >>> pos ≤ 1
      · rw [if_pos hshift]
        by_cases hnil : bins pos = []
        · rw [if_neg (by simp [hnil, blockPtr]), hnil]
          exact ih
        · have hne : blockPtr A (bins pos).head? ≠ 0 := by
            rw [blockPtr, Ne, ptrOf_eq_zero]
            simpa using hnil
          rw [if_pos ⟨hshift, hne⟩]
          refine hwalk.bind ?_
          cases hfind : (bins pos).find? (n ≤ ·.size) with
          | none => exact ih
          | some b =>
            rw [if_pos (by simp only [blockPtr, Option.map_some, ptrOf_some]; omega)]
            exact .pure _ _
      · rw [if_neg hshift, if_neg fun h => hshift h.1]
        exact ih

/-- `find_fit` is the search on the bins, and changes nothing. -/
theorem findFit_returns {n : Nat} (hr : Represents σ bs e bins) (hs : Shape bs e)
    (hf : Filed bs bins) : Returns (findFit n) σ (blockPtr A (fit bins n)) σ :=
  fitSearch_returns hr hs hf listMax 0 rfl

end

end CToys.Malloc.Segregated
