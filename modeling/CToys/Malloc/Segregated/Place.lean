import CToys.Malloc.Segregated.Coalesce
import CToys.Malloc.Cut

/-!
# Placing a block

`place` takes a filed block out of its list, cuts the request out of it and files what is
left.  Small requests are cut from the front, requests of 96 bytes and more from the
back, and a remainder below 16 bytes stays with the request.
-/

namespace CToys.Malloc.Segregated

variable {A : Arena}

/-- The cut that `place` makes. -/
def placeCut (b : Block) (n : Nat) (hb : 8 ∣ b.size ∧ 16 ≤ b.size) (hn : 8 ∣ n ∧ 16 ≤ n)
    (hle : n ≤ b.size) : Cut b n :=
  if h : b.size - n < 2 * dsize then .whole hb hn hle h
  else if n ≥ 96 then .back hb hn h
  else .front hb hn h

/-- The bins after a cut. -/
def placeBins {b : Block} {n : Nat} (c : Cut b n) (bins : Nat → List Block) :
    Nat → List Block :=
  c.rest.foldl insertBin (deleteBin bins b)

section

variable {σ : Machine A Statics} {pre post : List Block} {b : Block} {e n : Nat}
  {bins : Nat → List Block}

/-- The bins without the block hold the other free blocks. -/
theorem filed_deleteBin (hf : Filed (pre ++ b :: post) bins)
    (hs : Shape (pre ++ b :: post) e) : Filed (pre ++ post) (deleteBin bins b) := by
  exact hf.delete fun c _ => hs.mem_around_iff.trans and_comm

theorem filed_place (hf : Filed (pre ++ b :: post) bins) (hs : Shape (pre ++ b :: post) e)
    (c : Cut b n) : Filed (pre ++ c.pieces ++ post) (placeBins c bins) := by
  have hfd := filed_deleteBin hf hs
  have hmem {x : Block} := c.mem_free pre post (x := x)
  have hnot {x : Block} := c.rest_notMem hs (x := x)
  rcases c.cases with ⟨hl, hr⟩ | ⟨y, hl, hr, hy⟩ | ⟨y, hl, hr, hy⟩
  · have hrest : c.rest = [] := by simp [Cut.rest, hl, hr]
    rw [placeBins, hrest]
    exact hfd.congr fun x hx => by rw [hmem hx, hrest]; simp
  all_goals
    have hrest : c.rest = [y] := by simp [Cut.rest, hl, hr]
    rw [placeBins, hrest]
    exact hfd.insert hy (hnot (by simp [hrest])) fun x hx => by rw [hmem hx, hrest]; simp

/-- The end of `place`: the pieces have their tags and the free one is filed. -/
private theorem retag_pieces (hr : Represents σ (pre ++ b :: post) e (deleteBin bins b))
    (hs : Shape (pre ++ b :: post) e) (hf : Filed (pre ++ b :: post) bins)
    (c : Cut b n) :
    Represents (σ.withStorage (tagAll σ.storage c.pieces)) (pre ++ c.pieces ++ post) e
        (deleteBin bins b) ∧
      σ.storage.AgreeOn (tagAll σ.storage c.pieces) (InUse (pre ++ post)) := by
  rw [← List.singleton_append, ← List.append_assoc] at hr hs
  exact hr.retag hs (filed_deleteBin hf (by simpa using hs)) (fun _ h => h) c.pieces
    (fun _ _ => c.tiles) c.size

/-- File the free piece. -/
private theorem insert_piece {σ₀ : Machine A Statics} {c : Cut b n} {y : Block}
    (hr : Represents σ₀ (pre ++ c.pieces ++ post) e (deleteBin bins b))
    (hs : Shape (pre ++ b :: post) e) (hf : Filed (pre ++ b :: post) bins)
    (hal : b.alloc = false) (hrest : c.rest = [y])
    (hagree : σ.storage.AgreeOn σ₀.storage (InUse (pre ++ b :: post))) :
    Ensures (insertNode (A.start + y.off) y.size) σ₀ fun _ σ' =>
      Represents σ' (pre ++ c.pieces ++ post) e (placeBins c bins) ∧
        σ.storage.AgreeOn σ'.storage (InUse (pre ++ b :: post)) := by
  have hs' := c.shape hs
  have hy : y ∈ c.rest := by simp [hrest]
  have hyal := c.free y hy
  have hmem := (c.mem_free pre post hyal).mpr (.inl hy)
  have hsub : pre ++ post ⊆ pre ++ c.pieces ++ post := fun x hx => by
    simp only [List.mem_append] at hx ⊢
    tauto
  refine (insertNode_ensures hr hs' (filed_deleteBin hf hs) hsub hmem hyal
    (c.rest_notMem hs hy)).mono ?_
  intro _ σ' hσ
  obtain ⟨h1, h2⟩ := hσ
  refine ⟨?_, hagree.trans (h2.mono fun a ha => ?_)⟩
  · rw [placeBins, hrest]
    exact h1
  · exact not_freeByte_of_inUse hs' (c.inUse hal ha)

/-- `place` cuts `n` bytes out of a free block. -/
theorem place_ensures (hr : Represents σ (pre ++ b :: post) e bins)
    (hs : Shape (pre ++ b :: post) e) (hf : Filed (pre ++ b :: post) bins)
    (hal : b.alloc = false) (hb : 8 ∣ b.size ∧ 16 ≤ b.size) (hn : 8 ∣ n ∧ 16 ≤ n)
    (hle : n ≤ b.size) :
    Ensures (place (A.start + b.off) n) σ fun p σ' =>
      p = A.start + (placeCut b n hb hn hle).taken.off ∧
        Represents σ' (pre ++ (placeCut b n hb hn hle).pieces ++ post) e
          (placeBins (placeCut b n hb hn hle) bins) ∧
        σ.storage.AgreeOn σ'.storage (InUse (pre ++ b :: post)) := by
  have hmax := maxHeap_eq
  have hbd := hs.bounds (b := b) (by simp)
  have hdiff : sub32 b.size n = b.size - n := sub32_of_le hle (by omega)
  unfold place
  refine (getSize_block hr.tagged hs).step ?_
  refine (deleteNode_ensures hr hs hf (fun _ h => h) (by simp) hal).bind ?_
  intro _ σ₁ hσ
  obtain ⟨hr₁, hag₁⟩ := hσ
  have hag₁' := hag₁.mono fun a => not_freeByte_of_inUse hs
  simp only [hdiff]
  by_cases hsmall : b.size - n < 2 * dsize
  · -- the whole block
    have hc : placeCut b n hb hn hle = .whole hb hn hle hsmall := dif_pos hsmall
    rw [if_pos hsmall, hc]
    obtain ⟨hr₂, hag₂⟩ := retag_pieces hr₁ hs hf (.whole hb hn hle hsmall)
    refine putTags_step (b := ⟨b.off, b.size, true⟩) rfl
      ((Cut.whole hb hn hle hsmall).inHeap hs List.mem_cons_self) ?_
    exact .pure ⟨rfl, hr₂, hag₁'.trans (hag₂.mono fun a => InUse.sides hal)⟩
  have hge : 16 ≤ b.size - n := Nat.not_lt.mp hsmall
  rw [if_neg hsmall]
  by_cases hbig : n ≥ 96
  · -- the request at the back
    have hc : placeCut b n hb hn hle = .back hb hn hsmall := by
      rw [placeCut, dif_neg hsmall, if_pos hbig]
    rw [if_pos hbig, hc]
    obtain ⟨hr₂, hag₂⟩ := retag_pieces hr₁ hs hf (.back hb hn hsmall)
    have hx : (⟨b.off, b.size - n, false⟩ : Block).InHeap :=
      (Cut.back hb hn hsmall).inHeap hs List.mem_cons_self
    have hy : (⟨b.off + (b.size - n), n, true⟩ : Block).InHeap :=
      (Cut.back hb hn hsmall).inHeap hs (List.mem_cons_of_mem _ List.mem_cons_self)
    refine putTags_step (b := ⟨b.off, b.size - n, false⟩) rfl hx ?_
    refine putTags_next_step (b := ⟨b.off, b.size - n, false⟩) rfl (tagBlock_tags hx).1 hx hy
      rfl ?_
    refine (insert_piece (y := ⟨b.off, b.size - n, false⟩) hr₂ hs hf hal rfl
      (hag₁'.trans (hag₂.mono fun a => InUse.sides hal))).bind ?_
    intro _ σ₃ hσ
    obtain ⟨hr₃, hag₃⟩ := hσ
    refine (nextBlkp_returns (o := b.off) (s := b.size - n) (a := false) (by omega) (by omega)
      (hr₃.tagged.header ⟨b.off, b.size - n, false⟩ ?_)).ensures ⟨rfl, hr₃, hag₃⟩
    simp [Cut.pieces, Cut.back]
  · -- the request at the front
    have hc : placeCut b n hb hn hle = .front hb hn hsmall := by
      rw [placeCut, dif_neg hsmall, if_neg hbig]
    rw [if_neg hbig, hc]
    obtain ⟨hr₂, hag₂⟩ := retag_pieces hr₁ hs hf (.front hb hn hsmall)
    have hx : (⟨b.off, n, true⟩ : Block).InHeap :=
      (Cut.front hb hn hsmall).inHeap hs List.mem_cons_self
    have hy : (⟨b.off + n, b.size - n, false⟩ : Block).InHeap :=
      (Cut.front hb hn hsmall).inHeap hs (List.mem_cons_of_mem _ List.mem_cons_self)
    refine putTags_step (b := ⟨b.off, n, true⟩) rfl hx ?_
    refine putTags_next_step (b := ⟨b.off, n, true⟩) rfl (tagBlock_tags hx).1 hx hy rfl ?_
    refine (nextBlkp_returns (o := b.off) (s := n) (a := true) (by omega) (by omega)
      (hr₂.tagged.header ⟨b.off, n, true⟩ ?_)).step ?_
    · simp [Cut.pieces, Cut.front]
    refine (insert_piece (y := ⟨b.off + n, b.size - n, false⟩) hr₂ hs hf hal rfl
      (hag₁'.trans (hag₂.mono fun a => InUse.sides hal))).bind ?_
    intro _ σ₃ hσ
    obtain ⟨hr₃, hag₃⟩ := hσ
    exact .pure ⟨rfl, hr₃, hag₃⟩

end

end CToys.Malloc.Segregated
