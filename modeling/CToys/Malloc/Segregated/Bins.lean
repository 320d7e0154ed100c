import CToys.Malloc.Segregated.FreeLists
import CToys.Malloc.Merge
import Mathlib.Data.List.Sort
import Mathlib.Data.List.TakeWhile

/-!
# Bins

The abstract free lists and what ties them to the memory.

A *bin* is the sequence of blocks in one of the 16 lists.  `Filed bs bins` says that the
bins hold the free blocks of `bs`, each once, in the bucket of its size, and sorted.
`Represents σ bs e bins` says that the machine holds the blocks and the bins: the tags in
memory are those of `bs` and the links are those of `bins`.

`insertNode_ensures` and `deleteNode_ensures` are the list operations at this level.  The
block need not be filed (or stay filed) as the sequence of blocks says, since coalescing
works on a heap in which the block just freed is in no list yet.  Both operations change
payload bytes of free blocks only.
-/

namespace CToys.Malloc.Segregated

variable {A : Arena}

/-- The order of blocks in a list. -/
def SizeLe (b c : Block) : Prop := b.size ≤ c.size

instance : DecidableRel SizeLe := fun b c => inferInstanceAs (Decidable (b.size ≤ c.size))

/-- File a block before the first one that is not smaller. -/
def insertBin (bins : Nat → List Block) (b : Block) : Nat → List Block :=
  Function.update bins (bucket b.size) ((bins (bucket b.size)).orderedInsert SizeLe b)

/-- Take a block out of its bin. -/
def deleteBin (bins : Nat → List Block) (b : Block) : Nat → List Block :=
  Function.update bins (bucket b.size) ((bins (bucket b.size)).erase b)

/-- The bins hold exactly the free blocks of `bs`. -/
structure Filed (bs : List Block) (bins : Nat → List Block) : Prop where
  mem : ∀ i < listMax, ∀ b, b ∈ bins i ↔ b ∈ bs ∧ b.alloc = false ∧ bucket b.size = i
  nodup : ∀ i < listMax, (bins i).Nodup
  sorted : ∀ i < listMax, (bins i).Pairwise SizeLe

/-- A payload byte of a free block. -/
def FreeByte (bs : List Block) (a : Nat) : Prop := ∃ b ∈ bs, b.alloc = false ∧ b.Payload a

/-- The nodes of the bins. -/
def offs (bins : Nat → List Block) (i : Nat) : List Nat := (bins i).map Block.off

/-- The machine holds the blocks `bs` up to the break `e` and the bins. -/
structure Represents (σ : Machine A Statics) (bs : List Block) (e : Nat)
    (bins : Nat → List Block) : Prop where
  brk : σ.memBrk = A.start + e
  listp : σ.statics.heapListp = A.start + 8
  tagged : Tagged σ.storage bs e
  listed : Listed A σ.storage σ.statics.freeLists (offs bins)

/-! ## Filing -/

/-- A block is filed behind the smaller blocks of its bin. -/
theorem insertBin_split (bins : Nat → List Block) (b : Block) :
    ∃ l₁ l₂, bins (bucket b.size) = l₁ ++ l₂ ∧ (∀ c ∈ l₁, c.size < b.size) ∧
      (∀ c ∈ l₂.head?, b.size ≤ c.size) ∧
      insertBin bins b = Function.update bins (bucket b.size) (l₁ ++ b :: l₂) := by
  let p : Block → Bool := fun c => ¬ SizeLe b c
  refine ⟨(bins (bucket b.size)).takeWhile p, (bins (bucket b.size)).dropWhile p,
    List.takeWhile_append_dropWhile.symm, fun c hc => ?_, fun c hc => ?_, ?_⟩
  · simpa [p, SizeLe] using List.mem_takeWhile_imp hc
  · have hpc := List.head?_dropWhile_not p (bins (bucket b.size))
    rw [hc] at hpc
    simpa [p, SizeLe] using hpc
  · rw [insertBin, List.orderedInsert_eq_take_drop]

namespace Filed

variable {bs bs' : List Block} {bins : Nat → List Block} {b c : Block}

theorem mem_bucket (h : Filed bs bins) (hb : b ∈ bs) (hal : b.alloc = false) :
    b ∈ bins (bucket b.size) :=
  (h.mem _ (bucket_lt _) b).mpr ⟨hb, hal, rfl⟩

/-- Only the free blocks matter. -/
theorem congr (h : Filed bs bins) (hbs : ∀ c, c.alloc = false → (c ∈ bs' ↔ c ∈ bs)) :
    Filed bs' bins := by
  refine ⟨fun i hi c => ?_, h.nodup, h.sorted⟩
  rw [h.mem i hi c]
  constructor
  · rintro ⟨h1, h2, h3⟩
    exact ⟨(hbs c h2).mpr h1, h2, h3⟩
  · rintro ⟨h1, h2, h3⟩
    exact ⟨(hbs c h2).mp h1, h2, h3⟩

theorem insert (h : Filed bs bins) (hb : b.alloc = false) (hn : b ∉ bs)
    (hbs : ∀ c, c.alloc = false → (c ∈ bs' ↔ c = b ∨ c ∈ bs)) :
    Filed bs' (insertBin bins b) := by
  have hbin := bucket_lt b.size
  refine ⟨fun i hi c => ?_, fun i hi => ?_, fun i hi => ?_⟩
  · by_cases hib : i = bucket b.size
    · subst hib
      rw [insertBin, Function.update_self, List.mem_orderedInsert, h.mem _ hi]
      constructor
      · rintro (rfl | ⟨h1, h2, h3⟩)
        · exact ⟨(hbs c hb).mpr (.inl rfl), hb, rfl⟩
        · exact ⟨(hbs c h2).mpr (.inr h1), h2, h3⟩
      · rintro ⟨h1, h2, h3⟩
        exact ((hbs c h2).mp h1).imp_right fun h1 => ⟨h1, h2, h3⟩
    · rw [insertBin, Function.update_of_ne hib, h.mem i hi]
      refine and_congr_left fun ⟨h2, h3⟩ => ?_
      rw [hbs c h2]
      refine ⟨.inr, fun hc => hc.resolve_left ?_⟩
      rintro rfl
      exact hib h3.symm
  · by_cases hib : i = bucket b.size
    · subst hib
      rw [insertBin, Function.update_self, (List.perm_orderedInsert SizeLe b _).nodup_iff]
      exact List.nodup_cons.mpr ⟨fun hm => hn ((h.mem _ hi b).mp hm).1, h.nodup _ hi⟩
    · rw [insertBin, Function.update_of_ne hib]
      exact h.nodup i hi
  · by_cases hib : i = bucket b.size
    · subst hib
      have : Std.Total SizeLe := ⟨fun x y => Nat.le_total x.size y.size⟩
      have : IsTrans Block SizeLe := ⟨fun _ _ _ => Nat.le_trans⟩
      rw [insertBin, Function.update_self]
      exact (h.sorted _ hi).orderedInsert b _
    · rw [insertBin, Function.update_of_ne hib]
      exact h.sorted i hi

theorem delete (h : Filed bs bins)
    (hbs : ∀ c, c.alloc = false → (c ∈ bs' ↔ c ≠ b ∧ c ∈ bs)) :
    Filed bs' (deleteBin bins b) := by
  have hbin := bucket_lt b.size
  refine ⟨fun i hi c => ?_, fun i hi => ?_, fun i hi => ?_⟩
  · by_cases hib : i = bucket b.size
    · subst hib
      rw [deleteBin, Function.update_self, (h.nodup _ hi).mem_erase_iff, h.mem _ hi]
      constructor
      · rintro ⟨h1, h2, h3, h4⟩
        exact ⟨(hbs c h3).mpr ⟨h1, h2⟩, h3, h4⟩
      · rintro ⟨h1, h2, h3⟩
        exact ⟨((hbs c h2).mp h1).1, ((hbs c h2).mp h1).2, h2, h3⟩
    · rw [deleteBin, Function.update_of_ne hib, h.mem i hi]
      refine and_congr_left fun ⟨h2, h3⟩ => ?_
      rw [hbs c h2]
      refine ⟨fun h1 => ⟨?_, h1⟩, And.right⟩
      rintro rfl
      exact hib h3.symm
  · by_cases hib : i = bucket b.size
    · subst hib
      rw [deleteBin, Function.update_self]
      exact (h.nodup _ hi).erase b
    · rw [deleteBin, Function.update_of_ne hib]
      exact h.nodup i hi
  · by_cases hib : i = bucket b.size
    · subst hib
      rw [deleteBin, Function.update_self]
      exact (h.sorted _ hi).sublist List.erase_sublist
    · rw [deleteBin, Function.update_of_ne hib]
      exact h.sorted i hi

/-- Filed blocks of a heap are separate nodes. -/
theorem separate {e : Nat} (h : Filed bs bins) (hs : Shape bs' e) (hsub : bs ⊆ bs') :
    Separate (offs bins) := by
  have hblock : ∀ i < listMax, ∀ o ∈ offs bins i,
      ∃ b ∈ bs', b.off = o ∧ bucket b.size = i := by
    intro i hi o ho
    obtain ⟨b, hb, rfl⟩ := List.mem_map.mp ho
    have := (h.mem i hi b).mp hb
    exact ⟨b, hsub this.1, rfl, this.2.2⟩
  refine ⟨fun i hi o ho => ?_, fun i hi => ?_, fun i hi j hj o ho o' ho' => ?_⟩
  · obtain ⟨b, hb, rfl, -⟩ := hblock i hi o ho
    have := hs.bounds hb
    omega
  · refine (h.nodup i hi).map_on fun b hb c hc hbc => ?_
    exact hs.eq_of_off (hsub ((h.mem i hi b).mp hb).1) (hsub ((h.mem i hi c).mp hc).1) hbc
  · obtain ⟨b, hb, rfl, hbi⟩ := hblock i hi o ho
    obtain ⟨c, hc, rfl, hcj⟩ := hblock j hj o' ho'
    have hb' := hs.bounds hb
    have hc' := hs.bounds hc
    rcases hs.apart hb hc with rfl | h1 | h1
    · exact .inl ⟨hbi.symm.trans hcj, rfl⟩
    · exact .inr (.inl (by omega))
    · exact .inr (.inr (by omega))

end Filed

/-! ## Frames -/

section

variable {bs : List Block} {e : Nat} {m m' : Memory}

/-- Bytes in use are no bytes of free blocks. -/
theorem not_freeByte_of_inUse (hs : Shape bs e) {a : Nat} (h : InUse bs a) :
    ¬ FreeByte bs a := by
  rintro ⟨c, hc, hcal, hcp⟩
  obtain ⟨b, hb, hbal, hbp⟩ := h
  have := hs.bounds hb
  have := hs.bounds hc
  unfold Block.Payload at *
  rcases hs.apart hb hc with rfl | h1 | h1
  · simp [hbal] at hcal
  · omega
  · omega

/-- Changing free payload bytes keeps the tags. -/
theorem tagged_of_freeByte (ht : Tagged m bs e) (hs : Shape bs e)
    (hm : m.AgreeOn m' fun a => ¬ FreeByte bs a) : Tagged m' bs e :=
  ht.of_payload hs (hm.mono fun _ ha ⟨b, hb, _, hp⟩ => ha b hb hp)

theorem hdrSize_eq (ht : Tagged m bs e) (hs : Shape bs e) {b : Block} (hb : b ∈ bs) :
    hdrSize m b.off = b.size := by
  have := maxHeap_eq
  have hh := ht.header b hb
  have hbd := hs.bounds hb
  rw [hdrSize, hh.word, tag_and_size hh.dvd (by omega)]

end

/-! ## The list operations on a represented heap -/

section

variable {σ : Machine A Statics} {bs filed : List Block} {e : Nat} {bins : Nat → List Block}
  {b : Block}

private theorem offs_update {i : Nat} {l : List Block} :
    Function.update (offs bins) i (l.map Block.off)
      = offs (Function.update bins i l) := by
  funext j
  by_cases hj : j = i
  · subst hj
    simp [offs]
  · simp [offs, hj]

/-- `insert_node` files a free block that is in no list. -/
theorem insertNode_ensures (hr : Represents σ bs e bins) (hs : Shape bs e)
    (hf : Filed filed bins) (hsub : filed ⊆ bs) (hb : b ∈ bs) (hal : b.alloc = false)
    (hn : b ∉ filed) :
    Ensures (insertNode (A.start + b.off) b.size) σ fun _ σ' =>
      Represents σ' bs e (insertBin bins b) ∧
        σ.storage.AgreeOn σ'.storage fun a => ¬ FreeByte bs a := by
  have hbd := hs.bounds hb
  have hi := bucket_lt b.size
  have hsep := hf.separate hs hsub
  have hnode : ∀ i < listMax, ∀ q ∈ offs bins i,
      ∃ c ∈ bs, c.off = q ∧ c.alloc = false ∧ c ∈ filed := by
    intro i hi q hq
    obtain ⟨c, hc, rfl⟩ := List.mem_map.mp hq
    have := (hf.mem i hi c).mp hc
    exact ⟨c, hsub this.1, rfl, this.2.1, this.1⟩
  obtain ⟨l₁, l₂, hl, hsmall, hbig, hins⟩ := insertBin_split bins b
  have hL : offs bins (bucket b.size) = l₁.map Block.off ++ l₂.map Block.off := by
    rw [← List.map_append, ← hl, offs]
  have hin {c : Block} (hc : c ∈ l₁ ++ l₂) : c ∈ bs :=
    hsub ((hf.mem _ hi c).mp (hl ▸ hc)).1
  have hret := insertNode_returns hr.listed hsep hL (o := b.off) (by omega)
    (fun q hq => by
      obtain ⟨c, hc, rfl⟩ := List.mem_map.mp hq
      rw [hdrSize_eq hr.tagged hs (hin (List.mem_append_left _ hc))]
      exact hsmall c hc)
    (fun q hq => by
      rw [List.head?_map] at hq
      obtain ⟨c, hc, rfl⟩ := Option.map_eq_some_iff.mp hq
      rw [hdrSize_eq hr.tagged hs (hin (List.mem_append_right _ (List.mem_of_mem_head? hc)))]
      exact hbig c hc)
  have hapart : ∀ j < listMax, ∀ q ∈ offs bins j, Apart q b.off := by
    intro j hj q hq
    obtain ⟨c, hc, rfl, -, hcf⟩ := hnode j hj q hq
    have hcb := hs.bounds hc
    rcases hs.apart hc hb with rfl | h1 | h1
    · exact absurd hcf hn
    · exact .inl (by omega)
    · exact .inr (by omega)
  have hagree : σ.storage.AgreeOn (linkIn A σ.storage (l₁.map Block.off).getLast?
      (l₂.map Block.off).head? b.off) fun a => ¬ FreeByte bs a := by
    refine linkIn_agree.mono fun a ha x hx => ?_
    obtain ⟨c, hc, hcal, rfl⟩ : ∃ c ∈ bs, c.alloc = false ∧ c.off = x := by
      rcases hx with rfl | hx | hx
      · exact ⟨b, hb, hal, rfl⟩
      · have hx' : x ∈ offs bins (bucket b.size) := by
          rw [hL]; exact List.mem_append_left _ (List.mem_of_getLast? hx)
        obtain ⟨c, hc, rfl, hcal, -⟩ := hnode _ hi x hx'
        exact ⟨c, hc, hcal, rfl⟩
      · have hx' : x ∈ offs bins (bucket b.size) := by
          rw [hL]; exact List.mem_append_right _ (List.mem_of_mem_head? hx)
        obtain ⟨c, hc, rfl, hcal, -⟩ := hnode _ hi x hx'
        exact ⟨c, hc, hcal, rfl⟩
    have hcb := hs.bounds hc
    by_contra hcon
    exact ha ⟨c, hc, hcal, by unfold Block.Payload; omega⟩
  have hlisted := hr.listed.linkIn hsep hi hL (o := b.off) (by omega) hapart
  refine hret.ensures ⟨⟨hr.brk, hr.listp, tagged_of_freeByte hr.tagged hs hagree, ?_⟩, hagree⟩
  rw [← List.map_cons, ← List.map_append, offs_update, ← hins] at hlisted
  exact hlisted

/-- `delete_node` takes a filed block out of its list. -/
theorem deleteNode_ensures (hr : Represents σ bs e bins) (hs : Shape bs e)
    (hf : Filed filed bins) (hsub : filed ⊆ bs) (hb : b ∈ filed) (hal : b.alloc = false) :
    Ensures (deleteNode (A.start + b.off)) σ fun _ σ' =>
      Represents σ' bs e (deleteBin bins b) ∧
        σ.storage.AgreeOn σ'.storage fun a => ¬ FreeByte bs a := by
  have hi := bucket_lt b.size
  have hsep := hf.separate hs hsub
  obtain ⟨l₁, l₂, hl⟩ := List.append_of_mem (hf.mem_bucket hb hal)
  have hsize := hdrSize_eq hr.tagged hs (hsub hb)
  have hL : offs bins (bucket (hdrSize σ.storage b.off)) =
      l₁.map Block.off ++ b.off :: l₂.map Block.off := by
    rw [hsize, offs, hl, List.map_append, List.map_cons]
  have hret := deleteNode_returns hr.listed hsep hL
  rw [hsize] at hL hret
  have hnode {q : Nat} (hq : q ∈ offs bins (bucket b.size)) :
      ∃ c ∈ bs, c.off = q ∧ c.alloc = false := by
    obtain ⟨c, hc, rfl⟩ := List.mem_map.mp hq
    have := (hf.mem _ hi c).mp hc
    exact ⟨c, hsub this.1, rfl, this.2.1⟩
  have hagree : σ.storage.AgreeOn (unlinkFrom A σ.storage (l₁.map Block.off).getLast?
      (l₂.map Block.off).head?) fun a => ¬ FreeByte bs a := by
    refine unlinkFrom_agree.mono fun a ha x hx => ?_
    have hx' : x ∈ offs bins (bucket b.size) := by
      rw [hL]
      rcases hx with hx | hx
      · exact List.mem_append_left _ (List.mem_of_getLast? hx)
      · exact List.mem_append_right _ (List.mem_cons_of_mem _ (List.mem_of_mem_head? hx))
    obtain ⟨c, hc, rfl, hcal⟩ := hnode hx'
    have hcb := hs.bounds hc
    by_contra hcon
    exact ha ⟨c, hc, hcal, by unfold Block.Payload; omega⟩
  have hlisted := hr.listed.unlinkFrom hsep hi hL
  refine hret.ensures ⟨⟨hr.brk, hr.listp, tagged_of_freeByte hr.tagged hs hagree, ?_⟩, hagree⟩
  rw [← List.map_append, offs_update] at hlisted
  have hbl₁ : b ∉ l₁ := by
    have hnd := hf.nodup _ hi
    rw [hl] at hnd
    exact fun hm => (List.nodup_append.mp hnd).2.2 b hm b (by simp) rfl
  rw [deleteBin, hl, List.erase_append_right _ hbl₁, List.erase_cons_head]
  exact hlisted

end

end CToys.Malloc.Segregated
