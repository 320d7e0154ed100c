import CToys.Malloc.Segregated.FreeLists

/-!
# Deleting a node undoes inserting it

`insert_node` finds its list from the size it is given, `delete_node` from the header of the
block.  If the two sizes are the same then so are the lists, and `delete_node` puts back the
head or the two link words that `insert_node` wrote.

`WellFormed` says what the functions rely on: the lists are threaded through memory, their
nodes do not overlap, and the sizes in the headers ascend.  Nothing is said about where the
nodes come from, so this holds of any memory.  The neighbours of the new node are the last
smaller node and the first other one, and since the links of a well-formed list name the
neighbours, the words that `delete_node` stores are the ones from before
(`unlinkFrom_linkIn`).
-/

namespace CToys.Malloc.Segregated

variable {A : Arena}

/-- The heads and the link words thread the lists `L`, whose nodes do not overlap and are
sorted by the sizes in their headers. -/
structure WellFormed (A : Arena) (m : Memory) (heads : Nat → Nat) (L : Nat → List Nat) :
    Prop where
  listed : Listed A m heads L
  separate : Separate L
  sorted : ∀ i < listMax, (L i).Pairwise fun p q => hdrSize m p ≤ hdrSize m q

/-- The header and the link words of `o` overlap those of no node. -/
structure Unlisted (L : Nat → List Nat) (o : Nat) : Prop where
  range : 4 ≤ o ∧ o + 8 ≤ maxHeap
  apart : ∀ i < listMax, ∀ q ∈ L i, Apart q o

theorem Apart.symm {o o' : Nat} (h : Apart o o') : Apart o' o := Or.symm h

theorem Apart.irrefl {o : Nat} : ¬ Apart o o := by
  unfold Apart
  omega

/-! ## Where the node goes -/

/-- A sorted list has the smaller elements in front. -/
theorem exists_split {f : Nat → Nat} {l : List Nat} (s : Nat)
    (h : l.Pairwise fun p q => f p ≤ f q) :
    ∃ l₁ l₂, l = l₁ ++ l₂ ∧ (∀ q ∈ l₁, f q < s) ∧ ∀ q ∈ l₂, s ≤ f q := by
  induction l with
  | nil => exact ⟨[], [], rfl, by simp, by simp⟩
  | cons p l ih =>
    obtain ⟨hp, hl⟩ := List.pairwise_cons.mp h
    by_cases hps : f p < s
    · obtain ⟨l₁, l₂, rfl, h₁, h₂⟩ := ih hl
      exact ⟨p :: l₁, l₂, rfl, List.forall_mem_cons.mpr ⟨hps, h₁⟩, h₂⟩
    · refine ⟨[], p :: l, rfl, by simp, List.forall_mem_cons.mpr ⟨by omega, fun q hq => ?_⟩⟩
      have := hp q hq
      omega

section

variable {L : Nat → List Nat} {l₁ l₂ : List Nat} {i o : Nat}

/-- The nodes after `o` joined one of the lists. -/
theorem mem_update {j q : Nat} (hL : L i = l₁ ++ l₂)
    (hq : q ∈ Function.update L i (l₁ ++ o :: l₂) j) : q ∈ L j ∨ j = i ∧ q = o := by
  by_cases hji : j = i
  · subst hji
    rw [Function.update_self] at hq
    rw [hL]
    rcases List.mem_append.mp hq with hq | hq
    · exact .inl (List.mem_append_left _ hq)
    · rcases List.mem_cons.mp hq with hq | hq
      · exact .inr ⟨rfl, hq⟩
      · exact .inl (List.mem_append_right _ hq)
  · rw [Function.update_of_ne hji] at hq
    exact .inl hq

theorem Separate.update (h : Separate L) (hi : i < listMax) (hL : L i = l₁ ++ l₂)
    (hu : Unlisted L o) : Separate (Function.update L i (l₁ ++ o :: l₂)) := by
  refine ⟨fun j hj q hq => ?_, fun j hj => ?_, fun j hj k hk p hp q hq => ?_⟩
  · rcases mem_update hL hq with hq | ⟨-, rfl⟩
    · exact h.range j hj q hq
    · exact hu.range
  · by_cases hji : j = i
    · subst hji
      have ho : o ∉ l₁ ++ l₂ := fun ho => Apart.irrefl (hu.apart j hj o (hL ▸ ho))
      rw [Function.update_self, List.nodup_middle]
      exact List.nodup_cons.mpr ⟨ho, hL ▸ h.nodup j hj⟩
    · rw [Function.update_of_ne hji]
      exact h.nodup j hj
  · rcases mem_update hL hp with hpL | ⟨hji, rfl⟩ <;>
      rcases mem_update hL hq with hqL | ⟨hki, rfl⟩
    · exact h.apart j hj k hk p hpL q hqL
    · exact .inr (hu.apart j hj p hpL)
    · exact .inr (hu.apart k hk q hqL).symm
    · exact .inl ⟨hji.trans hki.symm, rfl⟩

end

/-! ## What the insertion keeps -/

section

variable {m m' : Memory} {L : Nat → List Nat} {l₁ l₂ : List Nat} {i o q : Nat}

/-- A write to link words misses the headers. -/
theorem hdrSize_of_agree {S : Nat → Prop}
    (h : m.AgreeOn m' fun b => ∀ x, S x → b < x ∨ x + 8 ≤ b) (h4 : 4 ≤ q)
    (hS : ∀ x, S x → x = q ∨ Apart x q) : hdrSize m' q = hdrSize m q := by
  have hword : m'.word (q - 4) = m.word (q - 4) := h.word fun b hb hb' x hx => by
    rcases hS x hx with rfl | hap
    · omega
    · unfold Apart at hap
      omega
  rw [hdrSize, hword, hdrSize]

/-- Of the nodes whose links an insertion writes, each is `q` or apart from it. -/
theorem Unlisted.written (hs : Separate L) (hu : Unlisted L o) (hi : i < listMax)
    (hL : L i = l₁ ++ l₂) (hq : q = o ∨ ∃ j < listMax, q ∈ L j) :
    ∀ x, x = o ∨ l₁.getLast? = some x ∨ l₂.head? = some x → x = q ∨ Apart x q := by
  rintro x (rfl | hx)
  · rcases hq with rfl | ⟨j, hj, hq⟩
    · exact .inl rfl
    · exact .inr (hu.apart j hj q hq).symm
  · have hxi := Listed.mem_neighbour hL hx
    rcases hq with rfl | ⟨j, hj, hq⟩
    · exact .inr (hu.apart i hi x hxi)
    · exact hs.eq_or_apart hi hj hxi hq

/-- The headers are as before an insertion. -/
theorem Unlisted.hdrSize_linkIn (hs : Separate L) (hu : Unlisted L o) (hi : i < listMax)
    (hL : L i = l₁ ++ l₂) (hq : q = o ∨ ∃ j < listMax, q ∈ L j) :
    hdrSize (linkIn A m l₁.getLast? l₂.head? o) q = hdrSize m q := by
  have h4 : 4 ≤ q := by
    rcases hq with rfl | ⟨j, hj, hq⟩
    · exact hu.range.1
    · exact (hs.range j hj q hq).1
  exact hdrSize_of_agree linkIn_agree h4 (hu.written hs hi hL hq)

/-- The lists are well formed after an insertion. -/
theorem WellFormed.linkIn {heads : Nat → Nat} (h : WellFormed A m heads L) (hu : Unlisted L o)
    (hi : i < listMax) (hL : L i = l₁ ++ l₂) (hl₁ : ∀ q ∈ l₁, hdrSize m q < hdrSize m o)
    (hl₂ : ∀ q ∈ l₂, hdrSize m o ≤ hdrSize m q) :
    WellFormed A (Segregated.linkIn A m l₁.getLast? l₂.head? o)
      (if l₁ = [] then Function.update heads i (A.start + o) else heads)
      (Function.update L i (l₁ ++ o :: l₂)) := by
  refine ⟨h.listed.linkIn h.separate hi hL hu.range.2 hu.apart, h.separate.update hi hL hu,
    fun j hj => ?_⟩
  have hhdr {q : Nat} (hq : q ∈ Function.update L i (l₁ ++ o :: l₂) j) :
      hdrSize (Segregated.linkIn A m l₁.getLast? l₂.head? o) q = hdrSize m q := by
    refine hu.hdrSize_linkIn h.separate hi hL ?_
    rcases mem_update hL hq with hq | ⟨-, hq⟩
    · exact .inr ⟨j, hj, hq⟩
    · exact .inl hq
  have hold : (Function.update L i (l₁ ++ o :: l₂) j).Pairwise
      fun p q => hdrSize m p ≤ hdrSize m q := by
    by_cases hji : j = i
    · subst hji
      have hsorted := h.sorted j hj
      rw [hL, List.pairwise_append] at hsorted
      obtain ⟨h₁, h₂, h₁₂⟩ := hsorted
      rw [Function.update_self, List.pairwise_append]
      refine ⟨h₁, List.pairwise_cons.mpr ⟨hl₂, h₂⟩, fun p hp q hq => ?_⟩
      rcases List.mem_cons.mp hq with rfl | hq
      · exact (hl₁ p hp).le
      · exact h₁₂ p hp q hq
    · rw [Function.update_of_ne hji]
      exact h.sorted j hj
  refine hold.imp_of_mem fun hp hq hpq => ?_
  rw [hhdr hp, hhdr hq]
  exact hpq

end

/-! ## What the deletion puts back -/

section

variable {m : Memory} {heads : Nat → Nat} {L : Nat → List Nat} {l₁ l₂ : List Nat} {i o : Nat}

/-- The links between the two halves of a list, and its head. -/
theorem Listed.at_split (h : Listed A m heads L) (hi : i < listMax) (hL : L i = l₁ ++ l₂) :
    (∀ q, l₁.getLast? = some q → m.word (q + 4) = ptrOf A l₂.head?) ∧
      (∀ q, l₂.head? = some q → m.word q = ptrOf A l₁.getLast?) ∧
      (l₁ = [] → heads i = ptrOf A l₂.head?) := by
  refine ⟨fun q hq => ?_, fun q hq => ?_, ?_⟩
  · obtain ⟨l, rfl⟩ := List.getLast?_eq_some_iff.mp hq
    rw [List.append_assoc] at hL
    exact (h.at_node hi hL).2
  · obtain ⟨l, rfl⟩ := List.head?_eq_some_iff.mp hq
    exact (h.at_node hi hL).1
  · rintro rfl
    rw [h.head i hi, hL, List.nil_append]

/-- Connecting the neighbours of a node that was just put in leads back to the memory from
before, except for the link words of the node. -/
theorem unlinkFrom_linkIn (h : Listed A m heads L) (hs : Separate L) (hu : Unlisted L o)
    (hi : i < listMax) (hL : L i = l₁ ++ l₂) :
    m.AgreeOn (unlinkFrom A (linkIn A m l₁.getLast? l₂.head? o) l₁.getLast? l₂.head?)
      fun b => b < o ∨ o + 8 ≤ b := by
  obtain ⟨hsucc, hpred, -⟩ := h.at_split hi hL
  have hmem {x : Nat} := Listed.mem_neighbour hL (x := x)
  have hword {q : Nat} (hq : l₁.getLast? = some q ∨ l₂.head? = some q) :
      (unlinkFrom A (linkIn A m l₁.getLast? l₂.head? o) l₁.getLast? l₂.head?).word q = m.word q ∧
      (unlinkFrom A (linkIn A m l₁.getLast? l₂.head? o) l₁.getLast? l₂.head?).word (q + 4)
        = m.word (q + 4) := by
    have hnode {x : Nat} (hx : l₁.getLast? = some x ∨ l₂.head? = some x) :
        (x = q ∨ Apart x q) ∧ x + 8 ≤ maxHeap :=
      ⟨hu.written hs hi hL (.inr ⟨i, hi, hmem hq⟩) x (.inr hx), (hs.range i hi x (hmem hx)).2⟩
    obtain ⟨hu0, hu4⟩ := unlinkFrom_other (A := A)
      (m := linkIn A m l₁.getLast? l₂.head? o) (q := q)
      (fun x hx => hnode (.inl hx)) (fun x hx => hnode (.inr hx))
    obtain ⟨hl0, hl4⟩ := linkIn_other (A := A) (m := m) hu.range.2 (hu.apart i hi q (hmem hq))
      (fun x hx => (hnode (.inl hx)).1) (fun x hx => (hnode (.inr hx)).1)
    constructor
    · rw [hu0]
      split
      · exact (hpred q ‹_›).symm
      · rw [hl0, if_neg ‹_›]
    · rw [hu4]
      split
      · exact (hsucc q ‹_›).symm
      · rw [hl4, if_neg ‹_›]
  intro b hb
  by_cases hq : ∃ q, (l₁.getLast? = some q ∨ l₂.head? = some q) ∧ q ≤ b ∧ b < q + 8
  · -- a byte of a neighbour's link words
    obtain ⟨q, hq, hle, hlt⟩ := hq
    obtain ⟨h0, h4⟩ := hword hq
    by_cases hb4 : b < q + 4
    · exact Memory.eq_of_word_eq h0 hle hb4
    · exact Memory.eq_of_word_eq h4 (by omega) (by omega)
  · -- neither operation writes here
    have hout : ∀ x, l₁.getLast? = some x ∨ l₂.head? = some x → b < x ∨ x + 8 ≤ b := by
      intro x hx
      by_contra hin
      exact hq ⟨x, hx, by omega, by omega⟩
    refine (unlinkFrom_agree b hout).trans (linkIn_agree b fun x hx => ?_)
    rcases hx with rfl | hx
    · exact hb
    · exact hout x hx

/-- `delete_node` puts back the head that `insert_node` replaced. -/
theorem Listed.heads_restored (h : Listed A m heads L) (hi : i < listMax)
    (hL : L i = l₁ ++ l₂) {p : Nat} :
    (if l₁ = [] then Function.update (if l₁ = [] then Function.update heads i p else heads) i
      (ptrOf A l₂.head?) else if l₁ = [] then Function.update heads i p else heads) = heads := by
  by_cases hnil : l₁ = []
  · simp only [if_pos hnil, Function.update_idem]
    rw [← (h.at_split hi hL).2.2 hnil, Function.update_eq_self]
  · simp only [if_neg hnil]

end

/-! ## The two calls -/

/-- `insert_node` puts a block behind the smaller nodes of its list and before the others, and
leaves well-formed lists.  A `delete_node` that follows restores the heads and every byte of
memory outside the link words of the block. -/
theorem deleteNode_inverts_insertNode {σ : Machine A Statics} {L : Nat → List Nat} {o : Nat}
    (h : WellFormed A σ.storage σ.statics.freeLists L) (hu : Unlisted L o) :
    ∃ l₁ l₂ σ₁ m₂,
      L (bucket (hdrSize σ.storage o)) = l₁ ++ l₂ ∧
      (∀ q ∈ l₁, hdrSize σ.storage q < hdrSize σ.storage o) ∧
      (∀ q ∈ l₂, hdrSize σ.storage o ≤ hdrSize σ.storage q) ∧
      Returns (insertNode (A.start + o) (hdrSize σ.storage o)) σ () σ₁ ∧
      WellFormed A σ₁.storage σ₁.statics.freeLists
        (Function.update L (bucket (hdrSize σ.storage o)) (l₁ ++ o :: l₂)) ∧
      Returns (deleteNode (A.start + o)) σ₁ () (σ.withStorage m₂) ∧
      σ.storage.AgreeOn m₂ fun b => b < o ∨ o + 8 ≤ b := by
  have hi := bucket_lt (hdrSize σ.storage o)
  obtain ⟨l₁, l₂, hL, hl₁, hl₂⟩ := exists_split (hdrSize σ.storage o) (h.sorted _ hi)
  have hinsert := insertNode_returns h.listed h.separate hL hu.range.2 hl₁
    fun q hq => hl₂ q (List.mem_of_mem_head? hq)
  have hwell := h.linkIn hu hi hL hl₁ hl₂
  refine ⟨l₁, l₂, _, _, hL, hl₁, hl₂, hinsert, hwell, ?_,
    unlinkFrom_linkIn h.listed h.separate hu hi hL⟩
  -- the header is as before, so `delete_node` finds the same list
  have hhdr := hu.hdrSize_linkIn (A := A) (m := σ.storage) h.separate hi hL (.inl rfl)
  have hL₁ : Function.update L (bucket (hdrSize σ.storage o)) (l₁ ++ o :: l₂)
      (bucket (hdrSize (linkIn A σ.storage l₁.getLast? l₂.head? o) o)) = l₁ ++ o :: l₂ := by
    rw [hhdr, Function.update_self]
  have hdelete := deleteNode_returns
    (σ := relist σ (linkIn A σ.storage l₁.getLast? l₂.head? o)
      (if l₁ = [] then Function.update σ.statics.freeLists (bucket (hdrSize σ.storage o))
        (A.start + o) else σ.statics.freeLists))
    hwell.listed hwell.separate hL₁
  simp only [relist, hhdr, h.listed.heads_restored hi hL] at hdelete ⊢
  exact hdelete

/-- Empty lists are well formed in any memory. -/
theorem WellFormed.empty (m : Memory) : WellFormed A m (fun _ => 0) fun _ => [] := by
  refine ⟨⟨fun _ _ => rfl, fun _ _ => .nil⟩, ⟨?_, fun _ _ => .nil, ?_⟩, fun _ _ => .nil⟩
  · exact fun _ _ _ hq => absurd hq List.not_mem_nil
  · exact fun _ _ _ _ _ hp => absurd hp List.not_mem_nil

theorem Unlisted.empty {o : Nat} (h : 4 ≤ o ∧ o + 8 ≤ maxHeap) : Unlisted (fun _ => []) o :=
  ⟨h, fun _ _ _ hq => absurd hq List.not_mem_nil⟩

/-- Two headers: 48 bytes at offset 100 and 40 bytes at offset 300. -/
def twoHeaders : Memory := Memory.setWord (Memory.setWord (fun _ => 0) 96 48) 296 40

/-- The first of the two blocks is in its list. -/
def oneListed : Machine Arena.low Statics where
  storage := linkIn Arena.low twoHeaders none none 100
  memBrk := Arena.low.start + 400
  statics := ⟨0, Function.update (fun _ => 0) 5 (Arena.low.start + 100)⟩

theorem oneListed_wellFormed : WellFormed Arena.low oneListed.storage
    oneListed.statics.freeLists (Function.update (fun _ => []) 5 [100]) :=
  (WellFormed.empty twoHeaders).linkIn (.empty (by decide)) (by decide)
    (show [] = ([] : List Nat) ++ [] from rfl) (fun _ hq => absurd hq List.not_mem_nil)
    (fun _ hq => absurd hq List.not_mem_nil)

/-- The second one joins the same list and leaves it again. -/
theorem oneListed_deleteNode_inverts : ∃ σ₁ m₂,
    Returns (insertNode (Arena.low.start + 300) (hdrSize oneListed.storage 300)) oneListed () σ₁ ∧
    Returns (deleteNode (Arena.low.start + 300)) σ₁ () (oneListed.withStorage m₂) ∧
    oneListed.storage.AgreeOn m₂ fun b => b < 300 ∨ 300 + 8 ≤ b := by
  have hunlisted : Unlisted (Function.update (fun _ => []) 5 [100]) 300 := by
    refine ⟨by decide, fun i _ q hq => ?_⟩
    rcases mem_update (L := fun _ => []) (show [] = ([] : List Nat) ++ [] from rfl) hq
      with hq | ⟨-, rfl⟩
    · exact absurd hq List.not_mem_nil
    · exact .inl (by decide)
  obtain ⟨_, _, σ₁, m₂, _, _, _, hinsert, _, hdelete, hkeep⟩ :=
    deleteNode_inverts_insertNode oneListed_wellFormed hunlisted
  exact ⟨σ₁, m₂, hinsert, hdelete, hkeep⟩

end CToys.Malloc.Segregated
