import CToys.Malloc.Blocks

/-!
# Growing the heap

What `mm_init` and `extend_heap` write, which is the same in both allocators.  `mm_init`
puts the prologue and an epilogue into the first 16 bytes.  `extend_heap` turns the old
epilogue into the header of a free block over the new bytes and puts a new epilogue
behind it.  Everything before the old epilogue stays as it is.
-/

namespace CToys.Malloc

/-- The new block. -/
def grown (e n : Nat) : Block := ⟨e, n, false⟩

/-- The tags of the new block and the new epilogue. -/
def growStorage (m : Memory) (e n : Nat) : Memory :=
  (tagBlock m (grown e n)).setWord (e + n - 4) (tag 0 true)

/-- The words that `mm_init` writes. -/
def initStorage (m : Memory) : Memory :=
  (((m.setWord 0 0).setWord 4 (tag 8 true)).setWord 8 (tag 8 true)).setWord 12 (tag 0 true)

section

variable {m : Memory} {bs : List Block} {e n : Nat}

theorem grown_inHeap (h16 : 16 ≤ e) (hn : 8 ∣ n ∧ 16 ≤ n) (hle : e + n ≤ maxHeap) :
    (grown e n).InHeap :=
  ⟨hn.1, hn.2, h16, hle⟩

theorem Shape.grow (h : Shape bs e) (hn : 8 ∣ n ∧ 16 ≤ n) (hle : e + n ≤ maxHeap) :
    Shape (bs ++ [grown e n]) (e + n) := by
  refine ⟨tiles_append.mpr ⟨e, h.tiles, rfl, ?_, rfl⟩, fun b hb => ?_, hle⟩
  · simp only [Block.stop, grown]
    omega
  · rcases List.mem_append.mp hb with hb | hb
    · exact h.size b hb
    · rw [List.mem_singleton.mp hb]
      exact hn

theorem growStorage_agree (h16 : 16 ≤ e) (hn : 8 ∣ n ∧ 16 ≤ n) (hle : e + n ≤ maxHeap) :
    m.AgreeOn (growStorage m e n) fun a => a < e - 4 := by
  refine Memory.AgreeOn.trans (n := tagBlock m (grown e n)) ?_ ?_
  · exact (tagBlock_agree (grown_inHeap h16 hn hle)).mono fun a ha => .inl ha
  · exact .setWord fun a ha => by omega

theorem Tagged.grow (h : Tagged m bs e) (hs : Shape bs e) (hn : 8 ∣ n ∧ 16 ≤ n)
    (hle : e + n ≤ maxHeap) : Tagged (growStorage m e n) (bs ++ [grown e n]) (e + n) := by
  have h16 := hs.tiles.le
  have hagree := growStorage_agree (m := m) h16 hn hle
  have hkeep {o s : Nat} {al : Bool} (ht : HasTag m o s al) (ho : o + 4 ≤ e - 4) :
      HasTag (growStorage m e n) o s al :=
    ht.congr fun a _ _ => hagree a (by omega)
  have hnew := tagBlock_tags (m := m) (grown_inHeap h16 hn hle)
  simp only [grown] at hnew
  refine ⟨hkeep h.prologueHeader (by omega), hkeep h.prologueFooter (by omega),
    .setWord_same (by decide) (by decide), fun b hb => ?_, fun b hb => ?_⟩
  · rcases List.mem_append.mp hb with hb | hb
    · have := hs.bounds hb
      exact hkeep (h.header b hb) (by omega)
    · rw [List.mem_singleton.mp hb]
      exact hnew.1.setWord_of_disjoint (by omega)
  · rcases List.mem_append.mp hb with hb | hb
    · have := hs.bounds hb
      exact hkeep (h.footer b hb) (by omega)
    · rw [List.mem_singleton.mp hb]
      exact hnew.2.setWord_of_disjoint (by omega)

theorem Shape.nil : Shape [] 16 := ⟨rfl, by simp, by decide⟩

theorem Tagged.init (m : Memory) : Tagged (initStorage m) [] 16 := by
  have htag (m : Memory) (o : Nat) : HasTag (m.setWord o (tag 8 true)) o 8 true :=
    .setWord_same (by decide) (by decide)
  refine ⟨?_, ?_, .setWord_same (by decide) (by decide), by simp, by simp⟩
  · exact ((htag _ 4).setWord_of_disjoint (by decide)).setWord_of_disjoint (by decide)
  · exact (htag _ 8).setWord_of_disjoint (by decide)

end

/-! ## Running the writes -/

section

variable {A : Arena} {ρ β : Type} {σ : Machine A ρ} {e n : Nat} {f : Unit → Prog A ρ β}
  {Q : β → Machine A ρ → Prop}

/-- The size that `extend_heap` computes from a number of words. -/
theorem extend_size (hn : 8 ∣ n) (hlt : n < 2 ^ 32) :
    (if n / wsize % 2 ≠ 0 then mul32 (add32 (n / wsize) 1) wsize else mul32 (n / wsize) wsize)
      = n := by
  unfold wsize
  rw [if_neg (by omega), mul32_of_lt (by omega)]
  omega

/-- Running the three `PUT`s of `extend_heap`. -/
theorem growTags_step (h16 : 16 ≤ e) (hn : 8 ∣ n ∧ 16 ≤ n) (hle : e + n ≤ maxHeap)
    (hf : Ensures (f ()) (σ.withStorage (growStorage σ.storage e n)) Q) :
    Ensures (do
      mmPut (hdrp (A.start + e)) (pack n 0)
      let ftr ← ftrp (A.start + e)
      mmPut ftr (pack n 0)
      let bp ← nextBlkp (A.start + e)
      mmPut (hdrp bp) (pack 0 1) >>= f) σ Q := by
  have hgrown := grown_inHeap h16 hn hle
  refine putTags_step (b := grown e n) rfl hgrown ?_
  have htag := tagBlock_tags (m := σ.storage) hgrown
  refine (nextBlkp_returns (by omega) hle htag.1).step ?_
  rw [hdrp_ptr (by omega) hle]
  exact (mmPut_returns (by omega)).step hf

/-- Running the four `PUT`s of `mm_init`. -/
theorem initTags_step (hf : Ensures (f ()) (σ.withStorage (initStorage σ.storage)) Q) :
    Ensures (do
      mmPut A.start 0
      mmPut (add32 A.start (1 * wsize)) (pack dsize 1)
      mmPut (add32 A.start (2 * wsize)) (pack dsize 1)
      mmPut (add32 A.start (3 * wsize)) (pack 0 1) >>= f) σ Q := by
  have hA := A.fits
  have hmax := maxHeap_eq
  unfold wsize
  rw [add32_of_lt (by omega), add32_of_lt (by omega), add32_of_lt (by omega)]
  have h0 := mmPut_returns (σ := σ) (o := 0) (v := 0) (by omega)
  rw [Nat.add_zero] at h0
  refine h0.step ?_
  refine (mmPut_returns (by omega)).step ((mmPut_returns (by omega)).step ?_)
  exact (mmPut_returns (by omega)).step hf

end

end CToys.Malloc
