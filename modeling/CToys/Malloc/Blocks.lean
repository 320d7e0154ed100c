import CToys.Lib.Tiling
import CToys.Malloc.Macros

/-!
# Block sequences

Both allocators cut the heap between prologue and epilogue into blocks.  A `Block` is
such a piece: the offset of its block pointer, its size and whether it is allocated.  It
occupies the bytes from its header to its footer, and its pointer is 4 bytes behind the
start of those.

*Shape.*  `Shape bs e` says that the blocks tile the heap from the first block pointer,
offset 16, to the break `e`, where the epilogue's pointer would be, and that every size
is a multiple of 8 and at least 16.
*Tags.*  `Tagged m bs e` says that the memory holds the header and the footer of every
block, the prologue and the epilogue.

Changing bytes inside payloads keeps all tags (`Tagged.of_payload`).  Replacing a run of
blocks by another over the same bytes only needs the new tags (`Tagged.replace`).  The
blocks next to a given one are `prevOf` and `nextOf`, and the prologue and the epilogue
stand in at the ends, so a caller need not treat the ends apart.
-/

namespace CToys.Malloc

/-- A piece of the heap. -/
structure Block where
  /-- The offset of the block pointer. -/
  off : Nat
  /-- The size with header and footer. -/
  size : Nat
  /-- Whether it is allocated. -/
  alloc : Bool
deriving DecidableEq, Repr

namespace Block

/-- Where the next block starts. -/
def stop (b : Block) : Nat := b.off + b.size

/-- The payload bytes. -/
def Payload (b : Block) (a : Nat) : Prop := b.off ≤ a ∧ a < b.off + b.size - 8

/-- The prologue block. -/
def prologue : Block := ⟨8, 8, true⟩

/-- The epilogue, which is a header only. -/
def epilogue (e : Nat) : Block := ⟨e, 0, true⟩

end Block

/-- The block lies behind the prologue and in the storage. -/
structure Block.InHeap (b : Block) : Prop where
  dvd : 8 ∣ b.size
  size : 16 ≤ b.size
  low : 16 ≤ b.off
  high : b.off + b.size ≤ maxHeap

/-- The blocks of `bs` tile the heap up to the break `e`. -/
structure Shape (bs : List Block) (e : Nat) : Prop where
  tiles : Tiles Block.off Block.stop 16 bs e
  size : ∀ b ∈ bs, 8 ∣ b.size ∧ 16 ≤ b.size
  le : e ≤ maxHeap

/-- The memory holds the tags of the blocks, of the prologue and of the epilogue. -/
structure Tagged (m : Memory) (bs : List Block) (e : Nat) : Prop where
  prologueHeader : HasTag m 4 8 true
  prologueFooter : HasTag m 8 8 true
  epilogue : HasTag m (e - 4) 0 true
  header : ∀ b ∈ bs, HasTag m (b.off - 4) b.size b.alloc
  footer : ∀ b ∈ bs, HasTag m (b.off + b.size - 8) b.size b.alloc

/-- No two blocks in a row are free. -/
def Coalesced (bs : List Block) : Prop :=
  bs.IsChain fun b c => b.alloc = true ∨ c.alloc = true

/-- A payload byte of an allocated block. -/
def InUse (bs : List Block) (a : Nat) : Prop := ∃ b ∈ bs, b.alloc = true ∧ b.Payload a

/-- The block before, seen from behind `pre`. -/
def prevOf (pre : List Block) : Block := pre.getLast?.getD .prologue

/-- The block behind, seen from before `post`. -/
def nextOf (post : List Block) (e : Nat) : Block := post.head?.getD (.epilogue e)

/-! ## Positions -/

/-- The blocks around a split and the one in the middle. -/
theorem mem_middle {pre post : List Block} {b c : Block} :
    c ∈ pre ++ b :: post ↔ c = b ∨ c ∈ pre ++ post := by
  rw [List.perm_middle.mem_iff, List.mem_cons]

/-- Another block in the middle leaves the blocks around it. -/
theorem mem_replace {pre post : List Block} {b b' c : Block} (hc : c ∈ pre ++ b :: post)
    (hne : c ≠ b) : c ∈ pre ++ b' :: post :=
  mem_middle.mpr (.inr ((mem_middle.mp hc).resolve_left hne))

namespace Shape

variable {bs pre post mid mid' : List Block} {b c : Block} {e : Nat}

theorem bounds (h : Shape bs e) (hb : b ∈ bs) :
    16 ≤ b.off ∧ b.off + b.size ≤ e ∧ 8 ∣ b.size ∧ 16 ≤ b.size ∧ e ≤ maxHeap := by
  have ht := h.tiles.bounds hb
  have hs := h.size b hb
  simp only [Block.stop] at ht
  exact ⟨ht.1, ht.2.2, hs.1, hs.2, h.le⟩

theorem inHeap (h : Shape bs e) (hb : b ∈ bs) : b.InHeap := by
  have hbd := h.bounds hb
  exact ⟨hbd.2.2.1, hbd.2.2.2.1, hbd.1, by omega⟩

/-- Distinct blocks do not overlap. -/
theorem apart (h : Shape bs e) (hb : b ∈ bs) (hc : c ∈ bs) :
    b = c ∨ b.off + b.size ≤ c.off ∨ c.off + c.size ≤ b.off :=
  h.tiles.apart hb hc

/-- A block is determined by its pointer. -/
theorem eq_of_off (h : Shape bs e) (hb : b ∈ bs) (hc : c ∈ bs) (hoff : b.off = c.off) :
    b = c :=
  h.tiles.eq_of_start hb hc hoff

theorem before (h : Shape (pre ++ b :: post) e) (hc : c ∈ pre) : c.off + c.size ≤ b.off :=
  (h.tiles.split.1.bounds hc).2.2

theorem behind (h : Shape (pre ++ b :: post) e) (hc : c ∈ post) : b.off + b.size ≤ c.off :=
  (h.tiles.split.2.2.bounds hc).1

/-- The other blocks do not overlap the one at the split. -/
theorem others (h : Shape (pre ++ b :: post) e) (hc : c ∈ pre ++ post) :
    c.off + c.size ≤ b.off ∨ b.off + b.size ≤ c.off := by
  rcases List.mem_append.mp hc with hc | hc
  · exact .inl (h.before hc)
  · exact .inr (h.behind hc)

theorem notMem (h : Shape (pre ++ b :: post) e) : b ∉ pre ++ post := by
  intro hb
  have := h.others hb
  have := h.bounds (b := b) (by simp)
  omega

theorem ne_of_mem (h : Shape (pre ++ b :: post) e) (hc : c ∈ pre ++ post) : c ≠ b := by
  rintro rfl
  exact h.notMem hc

/-- The other blocks start elsewhere. -/
theorem off_ne_of_mem (h : Shape (pre ++ b :: post) e) (hc : c ∈ pre ++ post) :
    c.off ≠ b.off :=
  fun hoff => h.ne_of_mem hc (h.eq_of_off (mem_middle.mpr (.inr hc)) (by simp) hoff)

/-- The blocks around the split are the other ones. -/
theorem mem_around_iff (h : Shape (pre ++ b :: post) e) :
    c ∈ pre ++ post ↔ c ∈ pre ++ b :: post ∧ c ≠ b :=
  ⟨fun hc => ⟨mem_middle.mpr (.inr hc), h.ne_of_mem hc⟩,
    fun ⟨hc, hne⟩ => (mem_middle.mp hc).resolve_left hne⟩

theorem nodup (h : Shape bs e) : bs.Nodup := h.tiles.nodup.of_map

private theorem aligned_of_tiles {a : Nat} (ha : 8 ∣ a)
    (hs : ∀ b ∈ bs, 8 ∣ b.size) (ht : Tiles Block.off Block.stop a bs e) :
    ∀ b ∈ bs, 8 ∣ b.off := by
  induction bs generalizing a with
  | nil => simp
  | cons b bs ih =>
    obtain ⟨rfl, -, h3⟩ := ht
    have hb := ih (Nat.dvd_add ha (hs b (by simp))) (fun c hc => hs c (by simp [hc])) h3
    intro c hc
    rcases List.mem_cons.mp hc with rfl | hc
    · exact ha
    · exact hb c hc

theorem aligned (h : Shape bs e) (hb : b ∈ bs) : 8 ∣ b.off :=
  aligned_of_tiles (by decide) (fun c hc => (h.size c hc).1) h.tiles b hb

/-- Replace a run of blocks by another over the same bytes. -/
theorem replace (h : Shape (pre ++ mid ++ post) e) (mid' : List Block)
    (ht : ∀ c d, Tiles Block.off Block.stop c mid d → Tiles Block.off Block.stop c mid' d)
    (hs : ∀ b ∈ mid', 8 ∣ b.size ∧ 16 ≤ b.size) : Shape (pre ++ mid' ++ post) e := by
  refine ⟨h.tiles.replace ht, fun b hb => ?_, h.le⟩
  simp only [List.append_assoc, List.mem_append] at hb
  rcases hb with hb | hb | hb
  · exact h.size b (by simp [hb])
  · exact hs b hb
  · exact h.size b (by simp [hb])

/-- Where the previous block is. -/
theorem prev (h : Shape (pre ++ b :: post) e) :
    (prevOf pre).off + (prevOf pre).size = b.off ∧ 8 ≤ (prevOf pre).off ∧
      8 ≤ (prevOf pre).size ∧ 8 ∣ (prevOf pre).size := by
  rcases List.eq_nil_or_concat pre with rfl | ⟨pre, x, rfl⟩
  · have h1 := h.tiles.1
    simp [prevOf, Block.prologue, h1]
  · have hx := h.bounds (b := x) (by simp)
    have h2 : x.off + x.size = b.off := by
      have ht := h.tiles
      rw [List.concat_eq_append, List.append_assoc, List.singleton_append] at ht
      exact ht.split.2.2.1.symm
    simp only [prevOf, List.concat_eq_append, List.getLast?_concat, Option.getD_some]
    omega

/-- Where the next block is. -/
theorem next (h : Shape (pre ++ b :: post) e) :
    (nextOf post e).off = b.off + b.size ∧
      (nextOf post e).off + (nextOf post e).size ≤ e := by
  cases post with
  | nil =>
    have h1 := h.tiles.split.2.2
    simp only [tiles_nil, Block.stop] at h1
    simp [nextOf, Block.epilogue, h1]
  | cons y post =>
    have hy := h.bounds (b := y) (by simp)
    have h1 := h.tiles.split.2.2.1
    exact ⟨h1, hy.2.1⟩

end Shape

/-! ## Tags -/

namespace Tagged

variable {m m' : Memory} {bs pre post mid mid' : List Block} {b : Block} {e : Nat}

/-- The tags of the previous block. -/
theorem prev (h : Tagged m (pre ++ b :: post) e) (hs : Shape (pre ++ b :: post) e) :
    HasTag m ((prevOf pre).off - 4) (prevOf pre).size (prevOf pre).alloc ∧
      HasTag m (b.off - 8) (prevOf pre).size (prevOf pre).alloc := by
  have hoff := hs.prev
  rcases List.eq_nil_or_concat pre with rfl | ⟨pre, x, rfl⟩
  · have h1 : b.off = 16 := hs.tiles.1
    simp only [prevOf, List.getLast?_nil, Option.getD_none, Block.prologue, h1]
    exact ⟨h.prologueHeader, h.prologueFooter⟩
  · simp only [prevOf, List.concat_eq_append, List.getLast?_concat, Option.getD_some] at hoff ⊢
    have hx := h.footer x (by simp)
    rw [hoff.1] at hx
    exact ⟨h.header x (by simp), hx⟩

/-- The header of the next block. -/
theorem next (h : Tagged m (pre ++ b :: post) e) (hs : Shape (pre ++ b :: post) e) :
    HasTag m (b.off + b.size - 4) (nextOf post e).size (nextOf post e).alloc := by
  rw [← hs.next.1]
  cases post with
  | nil => exact h.epilogue
  | cons y post => exact h.header y (by simp)

/-- Payload bytes hold no tags. -/
theorem of_payload (h : Tagged m bs e) (hs : Shape bs e)
    (hm : m.AgreeOn m' fun a => ∀ b ∈ bs, ¬ b.Payload a) : Tagged m' bs e := by
  have hout {o s : Nat} {al : Bool} (ht : HasTag m o s al)
      (ho : ∀ b ∈ bs, o + 4 ≤ b.off ∨ b.off + b.size - 8 ≤ o) : HasTag m' o s al := by
    refine ht.congr fun a ha ha' => hm a fun b hb hp => ?_
    have := ho b hb
    unfold Block.Payload at hp
    omega
  refine ⟨hout h.prologueHeader ?_, hout h.prologueFooter ?_, hout h.epilogue ?_, ?_, ?_⟩
  · intro b hb
    have := hs.bounds hb
    omega
  · intro b hb
    have := hs.bounds hb
    omega
  · intro b hb
    have := hs.bounds hb
    omega
  · intro c hc
    refine hout (h.header c hc) fun b hb => ?_
    have := hs.bounds hb
    have := hs.bounds hc
    rcases hs.apart hb hc with rfl | h1 | h1 <;> omega
  · intro c hc
    refine hout (h.footer c hc) fun b hb => ?_
    have := hs.bounds hb
    have := hs.bounds hc
    rcases hs.apart hb hc with rfl | h1 | h1 <;> omega

/-- Rewrite the bytes of a run of blocks, which tile `[lo, hi)`, into another run. -/
theorem replace {lo hi : Nat} (h : Tagged m (pre ++ mid ++ post) e)
    (hs : Shape (pre ++ mid ++ post) e)
    (hmid : Tiles Block.off Block.stop 16 pre lo ∧ Tiles Block.off Block.stop hi post e)
    (hlo : 16 ≤ lo) (hhi : hi ≤ e)
    (hm : m.AgreeOn m' fun a => a < lo - 4 ∨ hi - 4 ≤ a)
    (hh : ∀ b ∈ mid', HasTag m' (b.off - 4) b.size b.alloc)
    (hf : ∀ b ∈ mid', HasTag m' (b.off + b.size - 8) b.size b.alloc) :
    Tagged m' (pre ++ mid' ++ post) e := by
  have hkeep {o s : Nat} {al : Bool} (ht : HasTag m o s al)
      (ho : o + 4 ≤ lo - 4 ∨ hi - 4 ≤ o) : HasTag m' o s al :=
    ht.congr fun a ha ha' => hm a (by omega)
  have hpre : ∀ b ∈ pre, 16 ≤ b.off ∧ b.off + b.size ≤ lo ∧ 16 ≤ b.size := fun b hb => by
    have h1 := hmid.1.bounds hb
    have h2 := hs.size b (by simp [hb])
    exact ⟨h1.1, h1.2.2, h2.2⟩
  have hpost : ∀ b ∈ post, hi ≤ b.off ∧ 16 ≤ b.size := fun b hb => by
    have h1 := hmid.2.bounds hb
    have h2 := hs.size b (by simp [hb])
    exact ⟨h1.1, h2.2⟩
  refine ⟨hkeep h.prologueHeader (by omega), hkeep h.prologueFooter (by omega),
    hkeep h.epilogue (by omega), ?_, ?_⟩
  · intro b hb
    simp only [List.append_assoc, List.mem_append] at hb
    rcases hb with hb | hb | hb
    · have := hpre b hb
      exact hkeep (h.header b (by simp [hb])) (by omega)
    · exact hh b hb
    · have := hpost b hb
      exact hkeep (h.header b (by simp [hb])) (by omega)
  · intro b hb
    simp only [List.append_assoc, List.mem_append] at hb
    rcases hb with hb | hb | hb
    · have := hpre b hb
      exact hkeep (h.footer b (by simp [hb])) (by omega)
    · exact hf b hb
    · have := hpost b hb
      exact hkeep (h.footer b (by simp [hb])) (by omega)

end Tagged

/-- A tag determines size and status. -/
private theorem hasTag_unique {m : Memory} {o s s' : Nat} {al al' : Bool} (h : HasTag m o s al)
    (h' : HasTag m o s' al') : s = s' ∧ al = al' := by
  have hw := h.word.symm.trans h'.word
  rw [tag_eq h.dvd, tag_eq h'.dvd] at hw
  have h8 := h.dvd
  have h8' := h'.dvd
  cases al <;> cases al' <;> simp only [Bool.toNat_true, Bool.toNat_false] at hw <;>
    first | omega | exact ⟨by omega, rfl⟩

/-- The memory determines the blocks. -/
theorem Tagged.unique {m : Memory} {bs bs' : List Block} {e : Nat} (h : Tagged m bs e)
    (hs : Shape bs e) (h' : Tagged m bs' e) (hs' : Shape bs' e) : bs = bs' := by
  have key : ∀ (bs bs' : List Block) (a : Nat), Tiles Block.off Block.stop a bs e →
      Tiles Block.off Block.stop a bs' e →
      (∀ b ∈ bs, HasTag m (b.off - 4) b.size b.alloc) →
      (∀ b ∈ bs', HasTag m (b.off - 4) b.size b.alloc) → bs = bs' := by
    intro bs
    induction bs with
    | nil =>
      intro bs' a ht ht' _ _
      cases bs' with
      | nil => rfl
      | cons c bs' =>
        have := ht'.2.2.le
        obtain ⟨h1, h2, -⟩ := ht'
        rw [tiles_nil] at ht
        omega
    | cons b bs ih =>
      intro bs' a ht ht' hb hb'
      obtain ⟨h1, h2, h3⟩ := ht
      cases bs' with
      | nil =>
        have := h3.le
        rw [tiles_nil] at ht'
        omega
      | cons c bs' =>
        obtain ⟨h1', -, h3'⟩ := ht'
        have hoff : b.off = c.off := h1.trans h1'.symm
        have htag := hb' c (by simp)
        rw [← hoff] at htag
        obtain ⟨hsize, hal⟩ := hasTag_unique (hb b (by simp)) htag
        have hbc : b = c := by
          cases b
          cases c
          simp_all
        subst hbc
        rw [ih bs' _ h3 h3' (fun x hx => hb x (by simp [hx])) fun x hx => hb' x (by simp [hx])]
  exact key bs bs' 16 hs.tiles hs'.tiles h.header h'.header

/-! ## Writing tags -/

/-- Write the header and the footer of a block. -/
def tagBlock (m : Memory) (b : Block) : Memory :=
  (m.setWord (b.off - 4) (tag b.size b.alloc)).setWord (b.off + b.size - 8) (tag b.size b.alloc)

/-- Write the tags of a run of blocks in order. -/
def tagAll (m : Memory) (run : List Block) : Memory := run.foldl tagBlock m

/-- Writing the tags of a block changes its header and its footer only. -/
theorem tagBlock_apply_of_ne {m : Memory} {b : Block} {a : Nat} (hb : b.InHeap)
    (h : a < b.off - 4 ∨ b.off ≤ a) (h' : a < b.off + b.size - 8 ∨ b.off + b.size - 4 ≤ a) :
    tagBlock m b a = m a := by
  have hlow := hb.low
  rw [tagBlock, Memory.setWord_apply_of_ne (by omega), Memory.setWord_apply_of_ne (by omega)]

/-- Writing the tags of a block stays within its bytes. -/
theorem tagBlock_agree {m : Memory} {b : Block} (hb : b.InHeap) :
    m.AgreeOn (tagBlock m b) fun a => a < b.off - 4 ∨ b.off + b.size - 4 ≤ a := by
  have hlow := hb.low
  have hsize := hb.size
  refine Memory.AgreeOn.trans (n := m.setWord (b.off - 4) (tag b.size b.alloc)) ?_ ?_
  · exact .setWord fun a ha => by omega
  · exact .setWord fun a ha => by omega

theorem tagBlock_tags {m : Memory} {b : Block} (hb : b.InHeap) :
    HasTag (tagBlock m b) (b.off - 4) b.size b.alloc ∧
      HasTag (tagBlock m b) (b.off + b.size - 8) b.size b.alloc := by
  obtain ⟨hd, hsize, hlow, hhigh⟩ := hb
  have hle : b.size ≤ maxHeap := by omega
  exact ⟨(HasTag.setWord_same hd hle).setWord_of_disjoint (by omega), .setWord_same hd hle⟩

/-- Writing the tags of a run stays within its bytes. -/
theorem tagAll_agree {m : Memory} {run : List Block} {lo hi : Nat}
    (ht : Tiles Block.off Block.stop lo run hi) (hlo : 16 ≤ lo) (hhi : hi ≤ maxHeap)
    (hs : ∀ b ∈ run, 8 ∣ b.size ∧ 16 ≤ b.size) :
    m.AgreeOn (tagAll m run) fun a => a < lo - 4 ∨ hi - 4 ≤ a := by
  induction run generalizing m lo with
  | nil => exact .refl _ _
  | cons b run ih =>
    obtain ⟨rfl, -, h3⟩ := ht
    have hb := hs b (by simp)
    have hle := h3.le
    simp only [Block.stop] at h3 hle
    refine Memory.AgreeOn.trans (n := tagBlock m b) ?_ ?_
    · exact (tagBlock_agree ⟨hb.1, hb.2, hlo, by omega⟩).mono fun a ha => by omega
    · exact (ih h3 (by omega) fun c hc => hs c (by simp [hc])).mono fun a ha => by omega

/-- Writing the tags of a run gives every block of it its tags. -/
theorem tagAll_tags {m : Memory} {run : List Block} {lo hi : Nat}
    (ht : Tiles Block.off Block.stop lo run hi) (hlo : 16 ≤ lo) (hhi : hi ≤ maxHeap)
    (hs : ∀ b ∈ run, 8 ∣ b.size ∧ 16 ≤ b.size) :
    ∀ b ∈ run, HasTag (tagAll m run) (b.off - 4) b.size b.alloc ∧
      HasTag (tagAll m run) (b.off + b.size - 8) b.size b.alloc := by
  induction run generalizing m lo with
  | nil => simp
  | cons c run ih =>
    obtain ⟨rfl, -, h3⟩ := ht
    have hc := hs c (by simp)
    have hle := h3.le
    have hrun : ∀ b ∈ run, 8 ∣ b.size ∧ 16 ≤ b.size := fun b hb => hs b (by simp [hb])
    simp only [Block.stop] at h3 hle
    intro b hb
    rcases List.mem_cons.mp hb with rfl | hb
    · -- the later writes are behind this block
      have htags := tagBlock_tags (m := m) ⟨hc.1, hc.2, hlo, by omega⟩
      have hrest := tagAll_agree (m := tagBlock m b) h3 (by omega) hhi hrun
      exact ⟨htags.1.congr fun a _ _ => hrest a (by omega),
        htags.2.congr fun a _ _ => hrest a (by omega)⟩
    · exact ih h3 (by omega) hrun b hb

/-- A byte in use is in use by another block than a free one. -/
theorem InUse.sides {pre post : List Block} {b : Block} {a : Nat} (hb : b.alloc = false)
    (h : InUse (pre ++ b :: post) a) : InUse (pre ++ post) a := by
  obtain ⟨c, hc, hal, hp⟩ := h
  have hne : c ≠ b := fun e => by
    rw [e, hb] at hal
    cases hal
  exact ⟨c, by simpa [hne] using hc, hal, hp⟩

/-- Bytes in use outside a run are not touched when the tags of the run are written. -/
theorem inUse_outside {pre post : List Block} {lo hi e a : Nat}
    (hpre : Tiles Block.off Block.stop 16 pre lo)
    (hpost : Tiles Block.off Block.stop hi post e) (h : InUse (pre ++ post) a) :
    a < lo - 4 ∨ hi - 4 ≤ a := by
  obtain ⟨b, hb, -, hp⟩ := h
  unfold Block.Payload at hp
  rcases List.mem_append.mp hb with hb | hb
  · have := hpre.bounds hb
    simp only [Block.stop] at this
    omega
  · have := hpost.bounds hb
    omega

/-- Replace a run of blocks by another over the same bytes and write its tags. -/
theorem Tagged.retag {m : Memory} {pre mid post : List Block} {e : Nat}
    (h : Tagged m (pre ++ mid ++ post) e) (hs : Shape (pre ++ mid ++ post) e)
    (mid' : List Block)
    (ht : ∀ c d, Tiles Block.off Block.stop c mid d → Tiles Block.off Block.stop c mid' d)
    (hsize : ∀ b ∈ mid', 8 ∣ b.size ∧ 16 ≤ b.size) :
    Tagged (tagAll m mid') (pre ++ mid' ++ post) e ∧
      ∃ lo hi, Tiles Block.off Block.stop 16 pre lo ∧ Tiles Block.off Block.stop hi post e ∧
        m.AgreeOn (tagAll m mid') fun a => a < lo - 4 ∨ hi - 4 ≤ a := by
  obtain ⟨hi, h1, h3⟩ := tiles_append.mp hs.tiles
  obtain ⟨lo, h1, h2⟩ := tiles_append.mp h1
  have hmid := ht lo hi h2
  have hlo := h1.le
  have hhi := h3.le
  have hagree := tagAll_agree (m := m) hmid hlo (hhi.trans hs.le) hsize
  have htags := tagAll_tags (m := m) hmid hlo (hhi.trans hs.le) hsize
  refine ⟨h.replace hs ⟨h1, h3⟩ hlo hhi hagree (fun b hb => (htags b hb).1)
    fun b hb => (htags b hb).2, lo, hi, h1, h3, hagree⟩

/-! ## Reading the tags around a block -/

section

variable {A : Arena} {ρ : Type} {σ : Machine A ρ} {pre post : List Block} {b : Block} {e : Nat}
  (ht : Tagged σ.storage (pre ++ b :: post) e) (hs : Shape (pre ++ b :: post) e)
include ht hs

theorem getSize_block : Returns (getSize (hdrp (A.start + b.off))) σ b.size σ := by
  have := hs.bounds (b := b) (by simp)
  exact getSize_hdrp_returns (by omega) (by omega) (ht.header b (by simp))

theorem prevBlkp_block :
    Returns (prevBlkp (A.start + b.off)) σ (A.start + (prevOf pre).off) σ := by
  have hb := hs.bounds (b := b) (by simp)
  have hp := hs.prev
  have hoff : (prevOf pre).off = b.off - (prevOf pre).size := by omega
  rw [hoff]
  exact prevBlkp_returns (by omega) (by omega) (by omega) (ht.prev hs).2

theorem nextBlkp_block :
    Returns (nextBlkp (A.start + b.off)) σ (A.start + (nextOf post e).off) σ := by
  have hb := hs.bounds (b := b) (by simp)
  rw [hs.next.1]
  exact nextBlkp_returns (by omega) (by omega) (ht.header b (by simp))

theorem getSize_prev :
    Returns (getSize (hdrp (A.start + (prevOf pre).off))) σ (prevOf pre).size σ := by
  have hb := hs.bounds (b := b) (by simp)
  have hp := hs.prev
  exact getSize_hdrp_returns (by omega) (by omega) (ht.prev hs).1

theorem getAlloc_prev :
    Returns (getAlloc (hdrp (A.start + (prevOf pre).off))) σ (prevOf pre).alloc.toNat σ := by
  have hb := hs.bounds (b := b) (by simp)
  have hp := hs.prev
  exact getAlloc_hdrp_returns (by omega) (by omega) (ht.prev hs).1

/-- The footer that `FTRP(PREV_BLKP(bp))` names is the word before the header. -/
theorem ftrp_prev :
    Returns (ftrp (A.start + (prevOf pre).off)) σ (A.start + (b.off - 8)) σ := by
  have hb := hs.bounds (b := b) (by simp)
  have hp := hs.prev
  have hftr := ftrp_returns (A := A) (σ := σ) (by omega) (by omega) (by omega) (ht.prev hs).1
  rwa [hp.1] at hftr

/-- `GET_ALLOC(FTRP(PREV_BLKP(bp)))`. -/
theorem getAlloc_prev_footer :
    Returns (getAlloc (A.start + (b.off - 8))) σ (prevOf pre).alloc.toNat σ := by
  have hb := hs.bounds (b := b) (by simp)
  exact getAlloc_returns (by omega) (ht.prev hs).2

theorem getSize_next :
    Returns (getSize (hdrp (A.start + (nextOf post e).off))) σ (nextOf post e).size σ := by
  have hb := hs.bounds (b := b) (by simp)
  have hn := hs.next
  have htag := ht.next hs
  rw [← hn.1] at htag
  exact getSize_hdrp_returns (by omega) (by omega) htag

theorem getAlloc_next :
    Returns (getAlloc (hdrp (A.start + (nextOf post e).off))) σ (nextOf post e).alloc.toNat σ := by
  have hb := hs.bounds (b := b) (by simp)
  have hn := hs.next
  have htag := ht.next hs
  rw [← hn.1] at htag
  exact getAlloc_hdrp_returns (by omega) (by omega) htag

end

/-! ## Running the writes -/

section

variable {A : Arena} {ρ β : Type} {σ : Machine A ρ} {b c : Block} {v : Nat}
  {f : Unit → Prog A ρ β} {Q : β → Machine A ρ → Prop}

/-- `PUT(HDRP(bp), PACK(size, alloc)); PUT(FTRP(bp), PACK(size, alloc));` -/
theorem putTags_returns (hv : v = tag b.size b.alloc) (hb : b.InHeap) :
    Returns (do
      mmPut (hdrp (A.start + b.off)) v
      let ftr ← ftrp (A.start + b.off)
      mmPut ftr v) σ () (σ.withStorage (tagBlock σ.storage b)) := by
  subst hv
  obtain ⟨hd, hsize, hlow, hhigh⟩ := hb
  rw [hdrp_ptr (by omega) (by omega)]
  refine (mmPut_returns (by omega)).bind ?_
  refine (ftrp_returns (by omega) (by omega) hhigh (.setWord_same hd (by omega))).bind ?_
  exact mmPut_returns (by omega)

/-- The same before other statements. -/
theorem putTags_step (hv : v = tag b.size b.alloc) (hb : b.InHeap)
    (hf : Ensures (f ()) (σ.withStorage (tagBlock σ.storage b)) Q) :
    Ensures (do
      mmPut (hdrp (A.start + b.off)) v
      let ftr ← ftrp (A.start + b.off)
      mmPut ftr v >>= f) σ Q := by
  have h := (putTags_returns hv hb).step hf
  simpa only [bind_assoc] using h

/-- The same for the block behind, whose pointer `NEXT_BLKP(bp)` gives. -/
theorem putTags_next_returns (hv : v = tag c.size c.alloc)
    (ht : HasTag σ.storage (b.off - 4) b.size b.alloc) (hb : b.InHeap) (hc : c.InHeap)
    (hoff : c.off = b.off + b.size) :
    Returns (do
      let bp ← nextBlkp (A.start + b.off)
      mmPut (hdrp bp) v
      let bp ← nextBlkp (A.start + b.off)
      let ftr ← ftrp bp
      mmPut ftr v) σ () (σ.withStorage (tagBlock σ.storage c)) := by
  subst hv
  have hlow := hb.low
  have hsize := hb.size
  obtain ⟨hcd, hcsize, hclow, hchigh⟩ := hc
  refine (nextBlkp_returns (by omega) hb.high ht).bind ?_
  rw [← hoff, hdrp_ptr (by omega) (by omega)]
  refine (mmPut_returns (by omega)).bind ?_
  refine (nextBlkp_returns (by omega) hb.high (ht.setWord_of_disjoint (by omega))).bind ?_
  rw [← hoff]
  refine (ftrp_returns (by omega) (by omega) hchigh (.setWord_same hcd (by omega))).bind ?_
  exact mmPut_returns (by omega)

/-- And before other statements. -/
theorem putTags_next_step (hv : v = tag c.size c.alloc)
    (ht : HasTag σ.storage (b.off - 4) b.size b.alloc) (hb : b.InHeap) (hc : c.InHeap)
    (hoff : c.off = b.off + b.size)
    (hf : Ensures (f ()) (σ.withStorage (tagBlock σ.storage c)) Q) :
    Ensures (do
      let bp ← nextBlkp (A.start + b.off)
      mmPut (hdrp bp) v
      let bp ← nextBlkp (A.start + b.off)
      let ftr ← ftrp bp
      mmPut ftr v >>= f) σ Q := by
  have h := (putTags_next_returns hv ht hb hc hoff).step hf
  simpa only [bind_assoc] using h

end

end CToys.Malloc
