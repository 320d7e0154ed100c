import CToys.Lib.DoublyLinked
import CToys.Malloc.Segregated.Program
import Mathlib.Data.List.Perm.Subperm

/-!
# The free lists in memory

A node of a free list is the offset of a free block.  Its `PRED` word is at that offset
and its `SUCC` word 4 bytes on.  `Listed` says that the list heads and the link words of
a memory thread the lists `L`.  `Separate` says that the header and link words of
distinct nodes do not overlap, which is all that `insert_node` and `delete_node` need.

Neither function depends on where the blocks come from, so their specifications are
stated for any memory.  `insertNode_returns` and `deleteNode_returns` give the exact
state that they leave: `linkIn` and `unlinkFrom` are the writes they make.  The state
threads the new lists (`Listed.linkIn`, `Listed.unlinkFrom`) and all bytes outside the
link words of the node and its neighbours are as before.
-/

namespace CToys.Malloc.Segregated

variable {A : Arena}

/-! ## List positions -/

/-- The list of a block size: the position of its highest bit, capped. -/
def bucket (size : Nat) : Nat := min (listMax - 1) (Nat.log2 size)

theorem bucket_lt (size : Nat) : bucket size < listMax :=
  Nat.lt_of_le_of_lt (Nat.min_le_left _ _) (by decide)

theorem bucket_mono {size size' : Nat} (h : size ≤ size') : bucket size ≤ bucket size' := by
  have hlog : Nat.log2 size ≤ Nat.log2 size' := by
    rcases Nat.eq_zero_or_pos size with rfl | hpos
    · exact Nat.zero_le _
    · have hle : 2 ^ Nat.log2 size ≤ size := Nat.log2_self_le hpos.ne'
      exact (Nat.le_log2 (by omega)).mpr (hle.trans h)
  unfold bucket
  omega

private theorem listPos_eq (left pos size : Nat) :
    listPos left pos size = min (pos + left) (pos + Nat.log2 size) := by
  induction left generalizing pos size with
  | zero => simp [listPos]
  | succ left ih =>
    rw [listPos]
    split
    · rw [ih, Nat.log2_def size, if_pos (by omega), Nat.shiftRight_one]
      omega
    · rw [Nat.log2_def size, if_neg (by omega)]
      omega

/-- The loop at the head of `insert_node` and `delete_node` finds the bucket. -/
theorem listPos_bucket (size : Nat) : listPos (listMax - 1) 0 size = bucket size := by
  rw [listPos_eq, Nat.zero_add, Nat.zero_add, bucket]

/-! ## Nodes and links -/

/-- The pointer to a node, or `NULL`. -/
def ptrOf (A : Arena) (o : Option Nat) : Nat := (o.map (A.start + ·)).getD 0

@[simp] theorem ptrOf_none : ptrOf A none = 0 := rfl

@[simp] theorem ptrOf_some (o : Nat) : ptrOf A (some o) = A.start + o := rfl

theorem ptrOf_eq_zero {o : Option Nat} : ptrOf A o = 0 ↔ o = none := by
  have := A.pos
  cases o <;> simp
  omega

/-- `PRED_NODE` of the node at pointer `p`. -/
def predAt (A : Arena) (m : Memory) (p : Nat) : Nat := m.word (p - A.start)

/-- `SUCC_NODE` of the node at pointer `p`. -/
def succAt (A : Arena) (m : Memory) (p : Nat) : Nat := m.word (p - A.start + 4)

@[simp] theorem predAt_ptr (m : Memory) (o : Nat) : predAt A m (A.start + o) = m.word o := by
  simp [predAt]

@[simp] theorem succAt_ptr (m : Memory) (o : Nat) :
    succAt A m (A.start + o) = m.word (o + 4) := by
  simp [succAt]

/-- The block size in the header of a node. -/
def hdrSize (m : Memory) (o : Nat) : Nat := m.word (o - 4) &&& 0xFFFFFFF8

/-- The pointers to the nodes of a list. -/
def ptrs (A : Arena) (l : List Nat) : List Nat := l.map (A.start + ·)

theorem ptrs_append (l₁ l₂ : List Nat) : ptrs A (l₁ ++ l₂) = ptrs A l₁ ++ ptrs A l₂ :=
  List.map_append

theorem ptrs_cons (q : Nat) (l : List Nat) : ptrs A (q :: l) = (A.start + q) :: ptrs A l :=
  rfl

theorem mem_ptrs {l : List Nat} {p : Nat} (h : p ∈ ptrs A l) : ∃ q ∈ l, p = A.start + q := by
  obtain ⟨q, hq, rfl⟩ := List.mem_map.mp h
  exact ⟨q, hq, rfl⟩

theorem ptrs_head (l : List Nat) : (ptrs A l).head?.getD 0 = ptrOf A l.head? := by
  simp [ptrs, ptrOf, List.head?_map]

theorem ptrs_getLast (l : List Nat) : (ptrs A l).getLast?.getD 0 = ptrOf A l.getLast? := by
  simp [ptrs, ptrOf, List.getLast?_map]

/-- Header and link words of two nodes do not overlap. -/
def Apart (o o' : Nat) : Prop := o + 12 ≤ o' ∨ o' + 12 ≤ o

/-- Distinct nodes are apart, and all of them lie in the storage. -/
structure Separate (L : Nat → List Nat) : Prop where
  range : ∀ i < listMax, ∀ o ∈ L i, 4 ≤ o ∧ o + 8 ≤ maxHeap
  nodup : ∀ i < listMax, (L i).Nodup
  apart : ∀ i < listMax, ∀ j < listMax, ∀ o ∈ L i, ∀ o' ∈ L j, i = j ∧ o = o' ∨ Apart o o'

/-- The heads and the link words thread the lists `L`. -/
structure Listed (A : Arena) (m : Memory) (heads : Nat → Nat) (L : Nat → List Nat) :
    Prop where
  head : ∀ i < listMax, heads i = ptrOf A (L i).head?
  links : ∀ i < listMax, DoublyLinked (predAt A m) (succAt A m) 0 (ptrs A (L i))

namespace Separate

variable {L : Nat → List Nat} {i : Nat}

theorem length_lt (h : Separate L) (hi : i < listMax) : (L i).length < walkFuel := by
  have hsub : L i ⊆ List.range maxHeap := fun o ho => by
    have := h.range i hi o ho
    exact List.mem_range.mpr (by omega)
  have hle := ((h.nodup i hi).subperm hsub).length_le
  rw [List.length_range, maxHeap_eq] at hle
  unfold walkFuel
  omega

theorem nodup_ptrs (h : Separate L) (hi : i < listMax) : (ptrs A (L i)).Nodup :=
  (h.nodup i hi).map fun _ _ hab => Nat.add_left_cancel hab

theorem eq_or_apart (h : Separate L) {j p q : Nat} (hi : i < listMax) (hj : j < listMax)
    (hp : p ∈ L i) (hq : q ∈ L j) : p = q ∨ Apart p q :=
  (h.apart i hi j hj p hp q hq).imp_left (·.2)

end Separate

/-! ## The writes of the two operations -/

/-- Set the `SUCC` word of a node, if there is one. -/
def setSucc (m : Memory) (o : Option Nat) (v : Nat) : Memory :=
  match o with
  | some o => m.setWord (o + 4) v
  | none => m

/-- Set the `PRED` word of a node, if there is one. -/
def setPred (m : Memory) (o : Option Nat) (v : Nat) : Memory :=
  match o with
  | some o => m.setWord o v
  | none => m

/-- Put the node `o` between `a` and `c`. -/
def linkIn (A : Arena) (m : Memory) (a c : Option Nat) (o : Nat) : Memory :=
  setPred (setSucc ((m.setWord o (ptrOf A a)).setWord (o + 4) (ptrOf A c)) a (A.start + o))
    c (A.start + o)

/-- Connect `a` and `c` with each other. -/
def unlinkFrom (A : Arena) (m : Memory) (a c : Option Nat) : Memory :=
  setPred (setSucc m a (ptrOf A c)) c (ptrOf A a)

/-- A word that a write to one `SUCC` word misses or hits. -/
theorem word_setSucc {m : Memory} {a : Option Nat} {v x : Nat} (hv : v < 2 ^ 32)
    (h : ∀ q, a = some q → q + 4 = x ∨ q + 8 ≤ x ∨ x + 4 ≤ q + 4) :
    (setSucc m a v).word x = if a.map (· + 4) = some x then v else m.word x := by
  cases a with
  | none => simp [setSucc]
  | some q =>
    rcases h q rfl with rfl | h | h
    · simp [setSucc, Memory.word_setWord]
      omega
    · have hne : q + 4 ≠ x := by omega
      simp [setSucc, hne, Memory.word_setWord_of_disjoint (m := m) (v := v)
        (show x + 4 ≤ q + 4 ∨ q + 4 + 4 ≤ x by omega)]
    · have hne : q + 4 ≠ x := by omega
      simp [setSucc, hne, Memory.word_setWord_of_disjoint (m := m) (v := v)
        (show x + 4 ≤ q + 4 ∨ q + 4 + 4 ≤ x by omega)]

/-- A word that a write to one `PRED` word misses or hits. -/
theorem word_setPred {m : Memory} {c : Option Nat} {v x : Nat} (hv : v < 2 ^ 32)
    (h : ∀ q, c = some q → q = x ∨ q + 4 ≤ x ∨ x + 4 ≤ q) :
    (setPred m c v).word x = if c = some x then v else m.word x := by
  cases c with
  | none => simp [setPred]
  | some q =>
    rcases h q rfl with rfl | h | h
    · simp [setPred, Memory.word_setWord]
      omega
    · have hne : q ≠ x := by omega
      simp [setPred, hne, Memory.word_setWord_of_disjoint (m := m) (v := v)
        (show x + 4 ≤ q ∨ q + 4 ≤ x by omega)]
    · have hne : q ≠ x := by omega
      simp [setPred, hne, Memory.word_setWord_of_disjoint (m := m) (v := v)
        (show x + 4 ≤ q ∨ q + 4 ≤ x by omega)]

theorem ptrOf_lt {o : Option Nat} (h : ∀ q, o = some q → q + 8 ≤ maxHeap) :
    ptrOf A o < 2 ^ 32 := by
  have := A.fits
  cases o with
  | none => simp
  | some q =>
    have := h q rfl
    simp
    omega

section

variable {m : Memory} {a c : Option Nat} {o q : Nat}

/-- The link words of `o` after it was put between `a` and `c`. -/
theorem linkIn_self (ho : o + 8 ≤ maxHeap)
    (ha : ∀ x, a = some x → Apart x o ∧ x + 8 ≤ maxHeap)
    (hc : ∀ x, c = some x → Apart x o ∧ x + 8 ≤ maxHeap) :
    (linkIn A m a c o).word o = ptrOf A a ∧ (linkIn A m a c o).word (o + 4) = ptrOf A c := by
  have hA := A.fits
  have hao : ∀ x, a = some x → Apart x o := fun x hx => (ha x hx).1
  have hco : ∀ x, c = some x → Apart x o := fun x hx => (hc x hx).1
  have hpa := ptrOf_lt (A := A) fun x hx => (ha x hx).2
  have hpc := ptrOf_lt (A := A) fun x hx => (hc x hx).2
  unfold Apart at hao hco
  have ha4 : a.map (· + 4) ≠ some o ∧ a.map (· + 4) ≠ some (o + 4) := by
    cases a with
    | none => simp
    | some x =>
      have := hao x rfl
      simp
      omega
  have hc0 : c ≠ some o ∧ c ≠ some (o + 4) := by
    cases c with
    | none => simp
    | some x =>
      have := hco x rfl
      simp
      omega
  constructor
  · rw [linkIn, word_setPred (by omega) (fun x hx => by have := hco x hx; omega), if_neg hc0.1,
      word_setSucc (by omega) (fun x hx => by have := hao x hx; omega), if_neg ha4.1,
      Memory.word_setWord_of_disjoint (by omega), Memory.word_setWord, Nat.mod_eq_of_lt hpa]
  · rw [linkIn, word_setPred (by omega) (fun x hx => by have := hco x hx; omega), if_neg hc0.2,
      word_setSucc (by omega) (fun x hx => by have := hao x hx; omega), if_neg ha4.2,
      Memory.word_setWord, Nat.mod_eq_of_lt hpc]

/-- Putting `o` in changes one link of each neighbour. -/
theorem linkIn_other (ho : o + 8 ≤ maxHeap) (hqo : Apart q o)
    (ha : ∀ x, a = some x → x = q ∨ Apart x q) (hc : ∀ x, c = some x → x = q ∨ Apart x q) :
    (linkIn A m a c o).word q = (if c = some q then A.start + o else m.word q) ∧
      (linkIn A m a c o).word (q + 4) =
        if a = some q then A.start + o else m.word (q + 4) := by
  have hA := A.fits
  unfold Apart at ha hc hqo
  have ha4 : a.map (· + 4) ≠ some q := by
    cases a with
    | none => simp
    | some x =>
      have := ha x rfl
      simp
      omega
  have hc4 : c ≠ some (q + 4) := by
    cases c with
    | none => simp
    | some x =>
      have := hc x rfl
      simp
      omega
  have ha0 : (a.map (· + 4) = some (q + 4)) ↔ a = some q := by
    cases a <;> simp
  constructor
  · rw [linkIn, word_setPred (by omega) (fun x hx => by have := hc x hx; omega),
      word_setSucc (by omega) (fun x hx => by have := ha x hx; omega), if_neg ha4,
      Memory.word_setWord_of_disjoint (by omega), Memory.word_setWord_of_disjoint (by omega)]
  · rw [linkIn, word_setPred (by omega) (fun x hx => by have := hc x hx; omega), if_neg hc4,
      word_setSucc (by omega) (fun x hx => by have := ha x hx; omega),
      Memory.word_setWord_of_disjoint (by omega), Memory.word_setWord_of_disjoint (by omega)]
    simp only [ha0]

/-- Connecting `a` and `c` changes one link of each. -/
theorem unlinkFrom_other (ha : ∀ x, a = some x → (x = q ∨ Apart x q) ∧ x + 8 ≤ maxHeap)
    (hc : ∀ x, c = some x → (x = q ∨ Apart x q) ∧ x + 8 ≤ maxHeap) :
    (unlinkFrom A m a c).word q = (if c = some q then ptrOf A a else m.word q) ∧
      (unlinkFrom A m a c).word (q + 4) =
        if a = some q then ptrOf A c else m.word (q + 4) := by
  have haq : ∀ x, a = some x → x = q ∨ Apart x q := fun x hx => (ha x hx).1
  have hcq : ∀ x, c = some x → x = q ∨ Apart x q := fun x hx => (hc x hx).1
  have hpa := ptrOf_lt (A := A) fun x hx => (ha x hx).2
  have hpc := ptrOf_lt (A := A) fun x hx => (hc x hx).2
  unfold Apart at haq hcq
  have ha4 : a.map (· + 4) ≠ some q := by
    cases a with
    | none => simp
    | some x =>
      have := haq x rfl
      simp
      omega
  have hc4 : c ≠ some (q + 4) := by
    cases c with
    | none => simp
    | some x =>
      have := hcq x rfl
      simp
      omega
  have ha0 : (a.map (· + 4) = some (q + 4)) ↔ a = some q := by
    cases a <;> simp
  constructor
  · rw [unlinkFrom, word_setPred hpa (fun x hx => by have := hcq x hx; omega),
      word_setSucc hpc (fun x hx => by have := haq x hx; omega), if_neg ha4]
  · rw [unlinkFrom, word_setPred hpa (fun x hx => by have := hcq x hx; omega), if_neg hc4,
      word_setSucc hpc (fun x hx => by have := haq x hx; omega)]
    simp only [ha0]

theorem setSucc_agree {v : Nat} :
    m.AgreeOn (setSucc m a v) fun b => ∀ x, a = some x → b < x ∨ x + 8 ≤ b := by
  cases a with
  | none => exact .refl _ _
  | some x =>
    refine .setWord fun b hb => ?_
    have := hb x rfl
    omega

theorem setPred_agree {v : Nat} :
    m.AgreeOn (setPred m c v) fun b => ∀ x, c = some x → b < x ∨ x + 8 ≤ b := by
  cases c with
  | none => exact .refl _ _
  | some x =>
    refine .setWord fun b hb => ?_
    have := hb x rfl
    omega

/-- Putting `o` in writes only link words of `o` and its neighbours. -/
theorem linkIn_agree : m.AgreeOn (linkIn A m a c o) fun b =>
    ∀ x, x = o ∨ a = some x ∨ c = some x → b < x ∨ x + 8 ≤ b := by
  unfold linkIn
  refine Memory.AgreeOn.trans (n := setSucc ((m.setWord o (ptrOf A a)).setWord (o + 4)
    (ptrOf A c)) a (A.start + o)) ?_ (setPred_agree.mono fun b hb x hx => hb x (by simp [hx]))
  refine Memory.AgreeOn.trans (n := (m.setWord o (ptrOf A a)).setWord (o + 4) (ptrOf A c)) ?_
    (setSucc_agree.mono fun b hb x hx => hb x (by simp [hx]))
  refine Memory.AgreeOn.trans (n := m.setWord o (ptrOf A a)) ?_ ?_
  · refine .setWord fun b hb => ?_
    have := hb o (by simp)
    omega
  · refine .setWord fun b hb => ?_
    have := hb o (by simp)
    omega

/-- Connecting `a` and `c` writes only link words of those two. -/
theorem unlinkFrom_agree : m.AgreeOn (unlinkFrom A m a c) fun b =>
    ∀ x, a = some x ∨ c = some x → b < x ∨ x + 8 ≤ b := by
  unfold unlinkFrom
  exact Memory.AgreeOn.trans (setSucc_agree.mono fun b hb x hx => hb x (by simp [hx]))
    (setPred_agree.mono fun b hb x hx => hb x (by simp [hx]))

end

/-! ## The lists after the writes -/

theorem ptrs_head_eq {l : List Nat} {x : Nat} :
    (ptrs A l).head? = some (A.start + x) ↔ l.head? = some x := by
  cases l <;> simp [ptrs]

theorem ptrs_getLast_eq {l : List Nat} {x : Nat} :
    (ptrs A l).getLast? = some (A.start + x) ↔ l.getLast? = some x := by
  rcases List.eq_nil_or_concat l with rfl | ⟨l, y, rfl⟩ <;> simp [ptrs]

namespace Listed

variable {m : Memory} {heads : Nat → Nat} {L : Nat → List Nat} {l₁ l₂ : List Nat} {i o : Nat}

/-- Lists in a memory with the same link words. -/
theorem congr {m' : Memory} (h : Listed A m heads L)
    (hm : ∀ i < listMax, ∀ q ∈ L i, m'.word q = m.word q ∧ m'.word (q + 4) = m.word (q + 4)) :
    Listed A m' heads L := by
  refine ⟨h.head, fun i hi => (h.links i hi).congr ?_ ?_⟩
  · intro p hp
    obtain ⟨q, hq, rfl⟩ := mem_ptrs hp
    simpa using (hm i hi q hq).1
  · intro p hp
    obtain ⟨q, hq, rfl⟩ := mem_ptrs hp
    simpa using (hm i hi q hq).2

/-- The links of a node are its neighbours. -/
theorem at_node (h : Listed A m heads L) (hi : i < listMax) (hL : L i = l₁ ++ o :: l₂) :
    m.word o = ptrOf A l₁.getLast? ∧ m.word (o + 4) = ptrOf A l₂.head? := by
  have hlinks := h.links i hi
  rw [hL, ptrs_append] at hlinks
  have hnode : DoublyLinked (predAt A m) (succAt A m) 0
      (ptrs A l₁ ++ (A.start + o) :: ptrs A l₂) := hlinks
  obtain ⟨hpred, hsucc⟩ := hnode.at_node
  rw [predAt_ptr, ptrs_getLast] at hpred
  rw [succAt_ptr, ptrs_head] at hsucc
  exact ⟨hpred, hsucc⟩

/-- The neighbours of a position are in the list. -/
theorem mem_neighbour (hL : L i = l₁ ++ l₂) {x : Nat}
    (hx : l₁.getLast? = some x ∨ l₂.head? = some x) : x ∈ L i := by
  rw [hL, List.mem_append]
  rcases hx with hx | hx
  · exact .inl (List.mem_of_getLast? hx)
  · exact .inr (List.mem_of_mem_head? hx)

/-- The heads of the other lists stay. -/
private theorem head_of_ne {p : Prop} [Decidable p] {j v : Nat} (h : Listed A m heads L)
    (hj : j < listMax) (hji : j ≠ i) (l : List Nat) :
    (if p then Function.update heads i v else heads) j
      = ptrOf A (Function.update L i l j).head? := by
  have hheads : (if p then Function.update heads i v else heads) j = heads j := by
    split <;> simp [hji]
  rw [hheads, Function.update_of_ne hji]
  exact h.head j hj

/-- The other lists keep their links, since their nodes are apart from the nodes `a` and `c` whose
links change. -/
private theorem links_of_ne {m' : Memory} {a c : Option Nat} {j v w : Nat}
    (h : Listed A m heads L) (hs : Separate L) (hi : i < listMax) (hj : j < listMax)
    (hji : j ≠ i) (hmem : ∀ x, a = some x ∨ c = some x → x ∈ L i)
    (hother : ∀ q ∈ L j, m'.word q = (if c = some q then v else m.word q) ∧
      m'.word (q + 4) = if a = some q then w else m.word (q + 4)) (l : List Nat) :
    DoublyLinked (predAt A m') (succAt A m') 0 (ptrs A (Function.update L i l j)) := by
  have hne {x q : Nat} (hx : x ∈ L i) (hq : q ∈ L j) : x ≠ q := by
    rintro rfl
    rcases hs.apart i hi j hj x hx x hq with hij | hap
    · exact hji hij.1.symm
    · unfold Apart at hap
      omega
  rw [Function.update_of_ne hji]
  refine (h.links j hj).congr ?_ ?_
  · intro p hp
    obtain ⟨q, hq, rfl⟩ := mem_ptrs hp
    have := (hother q hq).1
    rw [if_neg fun e => hne (hmem _ (.inr e)) hq rfl] at this
    simpa using this
  · intro p hp
    obtain ⟨q, hq, rfl⟩ := mem_ptrs hp
    have := (hother q hq).2
    rw [if_neg fun e => hne (hmem _ (.inl e)) hq rfl] at this
    simpa using this

/-- The lists after a node was put between two halves of one of them. -/
theorem linkIn (h : Listed A m heads L) (hs : Separate L) (hi : i < listMax)
    (hL : L i = l₁ ++ l₂) (ho : o + 8 ≤ maxHeap)
    (hao : ∀ j < listMax, ∀ q ∈ L j, Apart q o) :
    Listed A (Segregated.linkIn A m l₁.getLast? l₂.head? o)
      (if l₁ = [] then Function.update heads i (A.start + o) else heads)
      (Function.update L i (l₁ ++ o :: l₂)) := by
  have hmem {x : Nat} := mem_neighbour (L := L) (i := i) hL (x := x)
  have hother : ∀ j < listMax, ∀ q ∈ L j,
      _ := fun j hj q hq => linkIn_other (A := A) (m := m) ho (hao j hj q hq)
        (a := l₁.getLast?) (c := l₂.head?)
        (fun x hx => hs.eq_or_apart hi hj (hmem (.inl hx)) hq)
        (fun x hx => hs.eq_or_apart hi hj (hmem (.inr hx)) hq)
  refine ⟨fun j hj => ?_, fun j hj => ?_⟩
  · by_cases hji : j = i
    · subst hji
      cases l₁ with
      | nil => simp
      | cons x l₁ => simp [h.head j hj, hL]
    · exact h.head_of_ne hj hji _
  · by_cases hji : j = i
    · subst hji
      have hlink := h.links j hj
      have hnd := hs.nodup_ptrs (A := A) hj
      have hself := linkIn_self (A := A) (m := m) ho (a := l₁.getLast?) (c := l₂.head?)
        (fun x hx => ⟨hao j hj x (hmem (.inl hx)), (hs.range j hj x (hmem (.inl hx))).2⟩)
        (fun x hx => ⟨hao j hj x (hmem (.inr hx)), (hs.range j hj x (hmem (.inr hx))).2⟩)
      have hsplit : ptrs A (l₁ ++ o :: l₂) = ptrs A l₁ ++ (A.start + o) :: ptrs A l₂ :=
        ptrs_append l₁ (o :: l₂)
      rw [Function.update_self, hsplit]
      rw [hL, ptrs_append] at hlink hnd
      refine hlink.link hnd ?_ ?_ ?_ ?_
      · rw [predAt_ptr, hself.1]
        exact (ptrs_getLast l₁).symm
      · rw [succAt_ptr, hself.2]
        exact (ptrs_head l₂).symm
      · intro p hp
        rw [← ptrs_append, ← hL] at hp
        obtain ⟨q, hq, rfl⟩ := mem_ptrs hp
        have := (hother j hj q hq).1
        simpa only [predAt_ptr, ptrs_head_eq] using this
      · intro p hp
        rw [← ptrs_append, ← hL] at hp
        obtain ⟨q, hq, rfl⟩ := mem_ptrs hp
        have := (hother j hj q hq).2
        simpa only [succAt_ptr, ptrs_getLast_eq] using this
    · exact h.links_of_ne hs hi hj hji (fun _ => hmem) (hother j hj) _

/-- The lists after a node was taken out of one of them. -/
theorem unlinkFrom (h : Listed A m heads L) (hs : Separate L) (hi : i < listMax)
    (hL : L i = l₁ ++ o :: l₂) :
    Listed A (Segregated.unlinkFrom A m l₁.getLast? l₂.head?)
      (if l₁ = [] then Function.update heads i (ptrOf A l₂.head?) else heads)
      (Function.update L i (l₁ ++ l₂)) := by
  have hmem {x : Nat} (hx : l₁.getLast? = some x ∨ l₂.head? = some x) : x ∈ L i := by
    rw [hL]
    rcases hx with hx | hx
    · exact List.mem_append_left _ (List.mem_of_getLast? hx)
    · exact List.mem_append_right _ (List.mem_cons_of_mem _ (List.mem_of_mem_head? hx))
  have hother : ∀ j < listMax, ∀ q ∈ L j,
      _ := fun j hj q hq => unlinkFrom_other (A := A) (m := m) (q := q)
        (a := l₁.getLast?) (c := l₂.head?)
        (fun x hx => ⟨hs.eq_or_apart hi hj (hmem (.inl hx)) hq,
          (hs.range i hi x (hmem (.inl hx))).2⟩)
        (fun x hx => ⟨hs.eq_or_apart hi hj (hmem (.inr hx)) hq,
          (hs.range i hi x (hmem (.inr hx))).2⟩)
  refine ⟨fun j hj => ?_, fun j hj => ?_⟩
  · by_cases hji : j = i
    · subst hji
      cases l₁ with
      | nil => simp
      | cons x l₁ => simp [h.head j hj, hL]
    · exact h.head_of_ne hj hji _
  · by_cases hji : j = i
    · subst hji
      have hlink := h.links j hj
      have hnd := hs.nodup_ptrs (A := A) hj
      have hsplit : ptrs A (l₁ ++ o :: l₂) = ptrs A l₁ ++ (A.start + o) :: ptrs A l₂ :=
        ptrs_append l₁ (o :: l₂)
      have hsub {q : Nat} (hq : q ∈ l₁ ++ l₂) : q ∈ L j := by
        rw [hL]
        rcases List.mem_append.mp hq with hq | hq <;> simp [hq]
      rw [Function.update_self, ptrs_append]
      rw [hL, hsplit] at hlink hnd
      refine hlink.unlink hnd ?_ ?_
      · intro p hp
        rw [← ptrs_append] at hp
        obtain ⟨q, hq, rfl⟩ := mem_ptrs hp
        have := (hother j hj q (hsub hq)).1
        simpa only [predAt_ptr, ptrs_head_eq, ptrs_getLast] using this
      · intro p hp
        rw [← ptrs_append] at hp
        obtain ⟨q, hq, rfl⟩ := mem_ptrs hp
        have := (hother j hj q (hsub hq)).2
        simpa only [succAt_ptr, ptrs_getLast_eq, ptrs_head] using this
    · exact h.links_of_ne hs hi hj hji (fun _ => hmem) (hother j hj) _

end Listed

/-! ## The operations make these writes -/

/-- The machine with another storage and other list heads. -/
def relist (σ : Machine A Statics) (m : Memory) (heads : Nat → Nat) : Machine A Statics :=
  { σ with storage := m, statics := { σ.statics with freeLists := heads } }

section

variable {σ : Machine A Statics} {o v pos : Nat}

theorem freeList_returns (h : pos < listMax) :
    Returns (freeList pos) σ (σ.statics.freeLists pos) σ := by
  simp [Returns, freeList, h]

theorem setFreeList_returns (h : pos < listMax) :
    Returns (setFreeList pos v) σ ()
      (relist σ σ.storage (Function.update σ.statics.freeLists pos v)) := by
  simp [Returns, setFreeList, h, relist]

theorem getSize_hdr_returns (h4 : 4 ≤ o) (ho : o ≤ maxHeap) :
    Returns (getSize (hdrp (A.start + o))) σ (hdrSize σ.storage o) σ := by
  rw [hdrp_ptr h4 ho]
  exact (mmGet_returns (by omega)).bind (.pure _ _)

theorem predNode_returns (ho : o + 4 ≤ maxHeap) :
    Returns (predNode (A.start + o)) σ (σ.storage.word o) σ :=
  loadWord_returns ho

theorem succNode_returns (ho : o + 8 ≤ maxHeap) :
    Returns (succNode (A.start + o)) σ (σ.storage.word (o + 4)) σ := by
  rw [succNode, succPtr_ptr (by omega)]
  exact loadWord_returns (by omega)

theorem setPredPtr_returns (ho : o + 4 ≤ maxHeap) :
    Returns (setPtr (predPtr (A.start + o)) v) σ ()
      (relist σ (σ.storage.setWord o v) σ.statics.freeLists) :=
  storeWord_returns ho

theorem setSuccPtr_returns (ho : o + 8 ≤ maxHeap) :
    Returns (setPtr (succPtr (A.start + o)) v) σ ()
      (relist σ (σ.storage.setWord (o + 4) v) σ.statics.freeLists) := by
  rw [succPtr_ptr (by omega)]
  exact storeWord_returns (by omega)

end

/-- The walk of `insert_node` stops before the first node that is large enough. -/
theorem insertWalk_returns {σ : Machine A Statics} {size : Nat} {l₂ : List Nat}
    (hl₂ : ∀ q ∈ l₂.head?, size ≤ hdrSize σ.storage q) :
    ∀ (l₁ : List Nat) (fuel predBp : Nat), l₁.length < fuel →
      Segment (predAt A σ.storage) (succAt A σ.storage) predBp (ptrs A (l₁ ++ l₂)) 0 →
      (∀ q ∈ l₁ ++ l₂, 4 ≤ q ∧ q + 8 ≤ maxHeap) →
      (∀ q ∈ l₁, hdrSize σ.storage q < size) →
      Returns (insertWalk size fuel predBp (ptrOf A (l₁ ++ l₂).head?)) σ
        ((ptrs A l₁).getLast?.getD predBp, ptrOf A l₂.head?) σ
  | _, 0, _, hfuel, _, _, _ => absurd hfuel (Nat.not_lt_zero _)
  | [], fuel + 1, predBp, _, _, hrange, _ => by
      have hA := A.pos
      rw [insertWalk, List.nil_append]
      cases l₂ with
      | nil => exact .pure _ _
      | cons q l₂ =>
        have hq := hrange q (by simp)
        have hsize : ¬ hdrSize σ.storage q < size := Nat.not_lt.mpr (hl₂ q (by simp))
        rw [List.head?_cons, ptrOf_some, if_neg (by omega)]
        refine (getSize_hdr_returns hq.1 (by omega)).bind ?_
        rw [if_neg hsize]
        exact .pure _ _
  | q :: l₁, fuel + 1, predBp, hfuel, hseg, hrange, hsmall => by
      have hA := A.pos
      have hq := hrange q (by simp)
      rw [List.cons_append, ptrs_cons] at hseg
      obtain ⟨-, hsucc, hrest⟩ := Segment.cons.mp hseg
      rw [succAt_ptr, ptrs_head] at hsucc
      have ih := insertWalk_returns hl₂ l₁ fuel (A.start + q)
        (Nat.lt_of_succ_lt_succ hfuel) hrest (fun x hx => hrange x (by simp_all))
        (fun x hx => hsmall x (by simp [hx]))
      rw [insertWalk, List.cons_append, List.head?_cons, ptrOf_some, if_neg (by omega)]
      refine (getSize_hdr_returns hq.1 (by omega)).bind ?_
      rw [if_pos (hsmall q (by simp))]
      refine (succNode_returns hq.2).bind ?_
      rw [hsucc]
      rw [ptrs_cons, List.getLast?_cons]
      exact ih

section

variable {σ : Machine A Statics} {L : Nat → List Nat} {l₁ l₂ : List Nat} {o size : Nat}

/-- `insert_node` puts the block between the smaller nodes and the others. -/
theorem insertNode_returns (h : Listed A σ.storage σ.statics.freeLists L) (hs : Separate L)
    (hL : L (bucket size) = l₁ ++ l₂) (ho : o + 8 ≤ maxHeap)
    (hl₁ : ∀ q ∈ l₁, hdrSize σ.storage q < size)
    (hl₂ : ∀ q ∈ l₂.head?, size ≤ hdrSize σ.storage q) :
    Returns (insertNode (A.start + o) size) σ ()
      (relist σ (linkIn A σ.storage l₁.getLast? l₂.head? o)
        (if l₁ = [] then Function.update σ.statics.freeLists (bucket size) (A.start + o)
          else σ.statics.freeLists)) := by
  have hA := A.pos
  have hi := bucket_lt size
  have hrange : ∀ q ∈ l₁ ++ l₂, 4 ≤ q ∧ q + 8 ≤ maxHeap := fun q hq =>
    hs.range _ hi q (hL ▸ hq)
  have hlen : l₁.length < walkFuel := by
    have := hs.length_lt hi
    rw [hL, List.length_append] at this
    omega
  have hlinks := h.links _ hi
  rw [hL] at hlinks
  have hwalk := insertWalk_returns hl₂ l₁ walkFuel 0 hlen hlinks hrange hl₁
  rw [ptrs_getLast] at hwalk
  unfold insertNode
  simp only [listPos_bucket]
  refine (freeList_returns hi).bind ?_
  rw [h.head _ hi, hL]
  by_cases hnil : l₁ ++ l₂ = []
  · obtain ⟨rfl, rfl⟩ := List.append_eq_nil_iff.mp hnil
    rw [if_pos (by rfl)]
    refine (setPredPtr_returns (by omega)).bind ((setSuccPtr_returns ho).bind ?_)
    exact setFreeList_returns hi
  · rw [if_neg (by rw [ptrOf_eq_zero]; simpa using hnil)]
    refine hwalk.bind ?_
    dsimp only
    -- the four cases of the source: the neighbours may be missing on either side
    rcases List.eq_nil_or_concat l₁ with rfl | ⟨l₁, a, rfl⟩
    · rw [if_pos rfl]
      obtain ⟨c, l₂, rfl⟩ := List.exists_cons_of_ne_nil (by simpa using hnil)
      have hc := hrange c (by simp)
      refine (setPredPtr_returns (by omega)).bind ((setSuccPtr_returns ho).bind ?_)
      refine (setPredPtr_returns (by omega)).bind ?_
      exact setFreeList_returns hi
    · have ha := hrange a (by simp)
      simp only [List.concat_eq_append, List.getLast?_concat, ptrOf_some]
      rw [if_neg (show A.start + a ≠ 0 by omega), if_neg (show l₁ ++ [a] ≠ [] by simp)]
      cases l₂ with
      | nil =>
        rw [if_pos (by rfl)]
        refine (setPredPtr_returns (by omega)).bind ((setSuccPtr_returns ho).bind ?_)
        exact setSuccPtr_returns ha.2
      | cons c l₂ =>
        have hc := hrange c (by simp)
        rw [List.head?_cons, ptrOf_some, if_neg (show A.start + c ≠ 0 by omega)]
        refine (setPredPtr_returns (by omega)).bind ((setSuccPtr_returns ho).bind ?_)
        refine (setSuccPtr_returns ha.2).bind ?_
        exact setPredPtr_returns (by omega)

/-- `delete_node` connects the neighbours of the node with each other. -/
theorem deleteNode_returns (h : Listed A σ.storage σ.statics.freeLists L) (hs : Separate L)
    (hL : L (bucket (hdrSize σ.storage o)) = l₁ ++ o :: l₂) :
    Returns (deleteNode (A.start + o)) σ ()
      (relist σ (unlinkFrom A σ.storage l₁.getLast? l₂.head?)
        (if l₁ = [] then Function.update σ.statics.freeLists
          (bucket (hdrSize σ.storage o)) (ptrOf A l₂.head?) else σ.statics.freeLists)) := by
  have hA := A.pos
  generalize hpos : bucket (hdrSize σ.storage o) = i at hL
  have hi : i < listMax := hpos ▸ bucket_lt _
  have hrange : ∀ q ∈ l₁ ++ o :: l₂, 4 ≤ q ∧ q + 8 ≤ maxHeap := fun q hq =>
    hs.range _ hi q (hL ▸ hq)
  have ho := hrange o (by simp)
  obtain ⟨hp, hn⟩ := h.at_node hi hL
  have hpred := predNode_returns (A := A) (σ := σ) (o := o) (by omega)
  have hsucc := succNode_returns (A := A) (σ := σ) (o := o) (by omega)
  rw [hp] at hpred
  rw [hn] at hsucc
  unfold deleteNode
  simp only [listPos_bucket]
  refine (getSize_hdr_returns ho.1 (by omega)).bind (hpred.bind ?_)
  rw [hpos]
  rcases List.eq_nil_or_concat l₁ with rfl | ⟨l₁, a, rfl⟩
  · rw [if_pos (by rfl)]
    refine hsucc.bind ((setFreeList_returns hi).bind ?_)
    -- the list head is not in the storage, so `SUCC_NODE(bp)` reads the same again
    have hsucc' := succNode_returns (A := A) (o := o) (by omega)
      (σ := relist σ σ.storage (Function.update σ.statics.freeLists i (ptrOf A l₂.head?)))
    rw [relist, hn] at hsucc'
    refine Returns.bind hsucc' ?_
    cases l₂ with
    | nil => exact .pure _ _
    | cons c l₂ =>
      have hc := hrange c (by simp)
      rw [List.head?_cons, ptrOf_some, if_pos (by omega)]
      refine Returns.bind hsucc' ?_
      exact setPredPtr_returns (by omega)
  · have ha := hrange a (by simp)
    have hpa : ptrOf A (l₁.concat a).getLast? = A.start + a := by simp
    rw [hpa] at hpred ⊢
    rw [if_neg (show A.start + a ≠ 0 by omega), if_neg (show l₁.concat a ≠ [] by simp)]
    refine hsucc.bind ?_
    cases l₂ with
    | nil =>
      rw [if_pos (by rfl)]
      refine hpred.bind ?_
      simpa [unlinkFrom, setSucc, setPred] using setSuccPtr_returns (v := 0) ha.2
    | cons c l₂ =>
      have hc := hrange c (by simp)
      have hao : a ≠ o := by
        rintro rfl
        have := hs.nodup i hi
        rw [hL] at this
        simp [List.nodup_append] at this
      have hap : Apart a o := (hs.eq_or_apart hi hi (by simp [hL]) (by simp [hL])).resolve_left hao
      unfold Apart at hap
      rw [List.head?_cons, ptrOf_some, if_neg (show A.start + c ≠ 0 by omega)]
      refine hpred.bind (hsucc.bind ((setSuccPtr_returns ha.2).bind ?_))
      -- the write to the `SUCC` word of `a` misses the links of `o`
      have hkeep {x : Nat} := Memory.word_setWord_of_disjoint (m := σ.storage) (a := a + 4)
        (v := A.start + c) (b := x)
      have hsucc' := succNode_returns (A := A) (o := o) (by omega)
        (σ := relist σ (σ.storage.setWord (a + 4) (A.start + c)) σ.statics.freeLists)
      have hpred' := predNode_returns (A := A) (o := o) (by omega)
        (σ := relist σ (σ.storage.setWord (a + 4) (A.start + c)) σ.statics.freeLists)
      rw [relist, hkeep (by omega), hn] at hsucc'
      rw [relist, hkeep (by omega), hp, hpa] at hpred'
      refine Returns.bind hsucc' (Returns.bind hpred' ?_)
      have hmem : unlinkFrom A σ.storage (l₁.concat a).getLast? (some c)
          = (σ.storage.setWord (a + 4) (A.start + c)).setWord c (A.start + a) := by
        simp [unlinkFrom, setSucc, setPred]
      rw [hmem]
      exact setPredPtr_returns (by omega)

end

end CToys.Malloc.Segregated
