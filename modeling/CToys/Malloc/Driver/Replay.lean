import CToys.Malloc.Driver.Interface
import CToys.Malloc.Driver.Trace

/-!
# Traces on heaps

A trace is replayed on the heaps of an interface alone: no memory and no machine.  `Play` is a
heap together with the block that each index was given last.  A replay fails when `mm_malloc`
or `mm_realloc` would return `NULL`, and it is `Unbroken` if no call of `mm_realloc` goes wrong.

`Placed` is the invariant: the live indices have blocks of their own that are large enough.  So
the live payloads fit into the heap (`Placed.total_le`), and a trace cannot fail as long as the
sum of what its requests may add to the heap fits (`replay_of_cost`).
-/

namespace CToys.Malloc.Driver

variable {A : Arena} {ρ : Type} {P : Package A ρ}

/-- The heap, and the block that each index was given last. -/
structure Play (I : Interface P) where
  heap : I.Heap
  place : Nat → Block

namespace Play

variable {I : Interface P}

/-- The state after `mm_init`. -/
def initial (I : Interface P) : Play I := ⟨I.initial, fun _ => .prologue⟩

/-- An index is given the block `b`, which leaves the heap `h`. -/
def put (s : Play I) (i : Nat) (b : Block) (h : I.Heap) : Play I :=
  ⟨h, Function.update s.place i b⟩

/-- The block is freed. -/
def release (s : Play I) (b : Block) : Play I := ⟨I.free s.heap b, s.place⟩

/-- A request. -/
def apply (s : Play I) (op : TraceOp) : Option (Play I) :=
  match op.kind with
  | .alloc => (I.malloc s.heap op.size.toNat).map fun r => s.put op.index r.1 r.2
  | .free => some (s.release (s.place op.index))
  | .realloc => (I.realloc s.heap (s.place op.index) op.size.toNat).map fun r =>
      s.put op.index r.1 r.2

/-- Several requests. -/
def replay : Play I → List TraceOp → Option (Play I)
  | s, [] => some s
  | s, op :: ops => (s.apply op).bind fun s' => s'.replay ops

/-- The request does not go wrong. -/
def Sane (s : Play I) (op : TraceOp) : Prop :=
  op.kind = .realloc → I.breaks s.heap (s.place op.index) op.size.toNat = false

instance (s : Play I) (op : TraceOp) : Decidable (s.Sane op) :=
  inferInstanceAs (Decidable (_ → _))

/-- No request goes wrong. -/
def Unbroken : Play I → List TraceOp → Prop
  | _, [] => True
  | s, op :: ops => s.Sane op ∧
      match s.apply op with
      | none => True
      | some s' => s'.Unbroken ops

instance Unbroken.decide : (s : Play I) → (ops : List TraceOp) → Decidable (s.Unbroken ops)
  | _, [] => inferInstanceAs (Decidable True)
  | s, op :: ops =>
      have : Decidable (match s.apply op with
          | none => True
          | some s' => s'.Unbroken ops) :=
        match s.apply op with
        | none => inferInstanceAs (Decidable True)
        | some s' => Unbroken.decide s' ops
      inferInstanceAs (Decidable (_ ∧ _))

/-- The offset of the break. -/
def brk (s : Play I) : Nat := (I.layout s.heap).brk

@[simp] theorem put_heap {s : Play I} {i : Nat} {b : Block} {h : I.Heap} :
    (s.put i b h).heap = h := rfl

@[simp] theorem put_place_self {s : Play I} {i : Nat} {b : Block} {h : I.Heap} :
    (s.put i b h).place i = b := Function.update_self _ _ _

theorem put_place_of_ne {s : Play I} {i j : Nat} {b : Block} {h : I.Heap} (hj : j ≠ i) :
    (s.put i b h).place j = s.place j := Function.update_of_ne hj _ _

@[simp] theorem release_place {s : Play I} {b : Block} : (s.release b).place = s.place := rfl

end Play

/-- What a request may add to the heap. -/
def TraceOp.cost (op : TraceOp) : Nat :=
  match op.kind with
  | .free => 0
  | _ => extension (need op.size.toNat)

/-- What requests may add to the heap. -/
def cost (ops : List TraceOp) : Nat := (ops.map TraceOp.cost).sum

/-- The live indices have blocks of their own. -/
structure Placed {I : Interface P} (s : Play I) (live : Live) : Prop where
  mem : ∀ e ∈ live.entries, s.place e.1 ∈ (I.layout s.heap).blocks
  alloc : ∀ e ∈ live.entries, (s.place e.1).alloc = true
  size : ∀ e ∈ live.entries, 0 < e.2 ∧ e.2 + 8 ≤ (s.place e.1).size
  inj : ∀ e ∈ live.entries, ∀ e' ∈ live.entries, s.place e.1 = s.place e'.1 → e = e'

namespace Placed

variable {I : Interface P} {s s' : Play I} {live : Live} {i n : Nat}

theorem empty : Placed s ∅ := by
  refine ⟨?_, ?_, ?_, ?_⟩ <;> simp

/-- The block of a live index. -/
theorem entry (hi : i ∈ live) : ∃ n, ⟨i, n⟩ ∈ live.entries := by
  obtain ⟨n, hn⟩ := Live.exists_of_mem hi
  exact ⟨n, Live.mem_entries.mpr hn⟩

/-- The other entries are those of other indices. -/
theorem mem_erase {e : (_ : Nat) × Nat} (he : e ∈ (live.erase i).entries) :
    e ∈ live.entries ∧ e.1 ≠ i := by
  have hlookup := Live.mem_entries.mp he
  have hne : e.1 ≠ i := by
    intro hei
    rw [hei, AList.lookup_erase] at hlookup
    cases hlookup
  rw [AList.lookup_erase_ne hne] at hlookup
  exact ⟨Live.mem_entries.mpr hlookup, hne⟩

/-- An index is forgotten. -/
theorem erase (h : Placed s live) : Placed s (live.erase i) :=
  ⟨fun e he => h.mem e (mem_erase he).1, fun e he => h.alloc e (mem_erase he).1,
    fun e he => h.size e (mem_erase he).1,
    fun e he e' he' => h.inj e (mem_erase he).1 e' (mem_erase he').1⟩

/-- A block that no live index has is freed. -/
theorem free (h : Placed s live) {b : Block} (hb : b ∈ (I.layout s.heap).blocks)
    (hal : b.alloc = true) (hne : ∀ e ∈ live.entries, s.place e.1 ≠ b) :
    Placed (s.release b) live :=
  ⟨fun e he => (I.free_alloc hb hal _ (h.alloc e he)).mpr ⟨h.mem e he, hne e he⟩, h.alloc, h.size,
    h.inj⟩

/-- An index without a block is given one that no live index has. -/
theorem put (h : Placed s live) (hi : i ∉ live) (hn : 0 < n) {b : Block} {h' : I.Heap}
    (hb : b ∈ (I.layout h').blocks) (hal : b.alloc = true) (hsize : n + 8 ≤ b.size)
    (hrest : ∀ e ∈ live.entries, s.place e.1 ∈ (I.layout h').blocks ∧ s.place e.1 ≠ b) :
    Placed (s.put i b h') (live.insert i n) := by
  have hold : ∀ e ∈ live.entries, (s.put i b h').place e.1 = s.place e.1 := by
    intro e he
    refine Play.put_place_of_ne fun hei => hi ?_
    rw [← hei]
    exact Live.mem_of_lookup (Live.mem_entries.mp he)
  refine ⟨?_, ?_, ?_, ?_⟩
  all_goals rw [AList.entries_insert_of_notMem hi]
  · refine List.forall_mem_cons.mpr ⟨?_, fun e he => ?_⟩
    · rw [Play.put_place_self]
      exact hb
    · rw [hold e he]
      exact (hrest e he).1
  · refine List.forall_mem_cons.mpr ⟨?_, fun e he => ?_⟩
    · rw [Play.put_place_self]
      exact hal
    · rw [hold e he]
      exact h.alloc e he
  · refine List.forall_mem_cons.mpr ⟨?_, fun e he => ?_⟩
    · rw [Play.put_place_self]
      exact ⟨hn, hsize⟩
    · rw [hold e he]
      exact h.size e he
  · refine List.forall_mem_cons.mpr ⟨List.forall_mem_cons.mpr ⟨fun _ => rfl, fun e he heq => ?_⟩,
      fun e he => List.forall_mem_cons.mpr ⟨fun heq => ?_, fun e' he' heq => ?_⟩⟩
    · rw [hold e he, Play.put_place_self] at heq
      exact absurd heq.symm (hrest e he).2
    · rw [hold e he, Play.put_place_self] at heq
      exact absurd heq (hrest e he).2
    · rw [hold e he, hold e' he'] at heq
      exact h.inj e he e' he' heq

/-- The other live indices have other blocks. -/
theorem ne_of_erase (h : Placed s live) (hi : ⟨i, n⟩ ∈ live.entries) {e : (_ : Nat) × Nat}
    (he : e ∈ (live.erase i).entries) : s.place e.1 ≠ s.place i := fun heq =>
  (mem_erase he).2 (congrArg Sigma.fst (h.inj _ (mem_erase he).1 _ hi heq))

end Placed

/-- The block `b` of the heap `h'` has room for `n` bytes, and it is apart from the blocks of
the live indices, which the heap still has. -/
structure Offered {I : Interface P} (s : Play I) (live : Live) (n : Nat) (b : Block)
    (h' : I.Heap) : Prop where
  mem : b ∈ (I.layout h').blocks
  alloc : b.alloc = true
  room : n + 8 ≤ b.size
  others : ∀ e ∈ live.entries, s.place e.1 ∈ (I.layout h').blocks
  apart : ∀ e ∈ live.entries, (s.place e.1).off + (s.place e.1).size ≤ b.off ∨
    b.off + b.size ≤ (s.place e.1).off

namespace Placed

variable {I : Interface P} {s : Play I} {live : Live} {i n : Nat} {b : Block} {h' : I.Heap}

/-- What `mm_malloc` offers. -/
theorem offered_malloc (h : Placed s live) (hm : I.malloc s.heap n = some (b, h')) :
    Offered s live n b h' := by
  have hserved := I.malloc_served hm
  have henough := hserved.enough
  have hneed := (need_ok n).2
  refine ⟨hserved.mem, hserved.alloc, by omega, fun e he => ?_, fun e he => ?_⟩
  · exact (hserved.blocks _ (h.alloc e he)).mpr (.inr (h.mem e he))
  · exact hserved.apart _ (h.mem e he) (h.alloc e he)

/-- What `mm_realloc` offers, to all but the index itself. -/
theorem offered_realloc (h : Placed s live) (hi : i ∈ live)
    (hm : I.realloc s.heap (s.place i) n = some (b, h')) : Offered s (live.erase i) n b h' := by
  obtain ⟨m, hi⟩ := entry hi
  have hex := I.realloc_exchanged (h.mem _ hi) (h.alloc _ hi) hm
  have henough := hex.enough
  have hneed := (need_ok n).2
  refine ⟨hex.mem, hex.alloc, by omega, fun e he => ?_, fun e he => ?_⟩
  all_goals obtain ⟨hlive, hne⟩ := mem_erase he
  · exact hex.other (h.mem e hlive) (h.alloc e hlive) (h.ne_of_erase hi he)
  · exact hex.apart (h.mem e hlive) (h.alloc e hlive) (h.ne_of_erase hi he)

/-- An index without a block is given one. -/
theorem give (h : Placed s live) (hi : i ∉ live) (hn : 0 < n) (hb : Offered s live n b h') :
    Placed (s.put i b h') (live.insert i n) := by
  refine h.put hi hn hb.mem hb.alloc hb.room fun e he => ⟨hb.others e he, fun heq => ?_⟩
  have hapart := hb.apart e he
  have hsize := h.size e he
  rw [heq] at hapart hsize
  omega

end Placed

section

variable {I : Interface P} {s s' : Play I} {live : Live} {numIds : Int} {op : TraceOp}
  {ops : List TraceOp}

/-! ## Requests that go wrong -/

theorem Play.Unbroken.tail (h : s.Unbroken (op :: ops)) (happly : s.apply op = some s') :
    s'.Unbroken ops := by
  have hrest := h.2
  rwa [happly] at hrest

/-- No request goes wrong if none may. -/
theorem Play.unbroken_of_sane (h : ∀ (s : Play I), ∀ op ∈ ops, s.Sane op) : s.Unbroken ops := by
  induction ops generalizing s with
  | nil => trivial
  | cons op ops ih =>
    refine ⟨h s op List.mem_cons_self, ?_⟩
    cases s.apply op with
    | none => trivial
    | some s' => exact ih fun s op hop => h s op (List.mem_cons_of_mem _ hop)

/-! ## The invariant -/

/-- What a request that does not fail does. -/
theorem Play.apply_cases (h : s.apply op = some s') :
    (op.kind = .alloc ∧ ∃ b h', I.malloc s.heap op.size.toNat = some (b, h') ∧
      s' = s.put op.index b h') ∨
    (op.kind = .free ∧ s' = s.release (s.place op.index)) ∨
    (op.kind = .realloc ∧ ∃ b h', I.realloc s.heap (s.place op.index) op.size.toNat
      = some (b, h') ∧ s' = s.put op.index b h') := by
  unfold Play.apply at h
  cases hk : op.kind with
  | alloc =>
    simp only [hk, Option.map_eq_some_iff] at h
    obtain ⟨r, hm, rfl⟩ := h
    exact .inl ⟨rfl, r.1, r.2, hm, rfl⟩
  | free =>
    simp only [hk, Option.some.injEq] at h
    exact .inr (.inl ⟨rfl, h.symm⟩)
  | realloc =>
    simp only [hk, Option.map_eq_some_iff] at h
    obtain ⟨r, hm, rfl⟩ := h
    exact .inr (.inr ⟨rfl, r.1, r.2, hm, rfl⟩)

/-- Every request keeps the invariant. -/
theorem Placed.step (h : Placed s live) (hop : op.Legal numIds live)
    (happly : s.apply op = some s') : Placed s' (live.next op) := by
  rcases Play.apply_cases happly with ⟨hk, b, h', hm, rfl⟩ | ⟨hk, rfl⟩ | ⟨hk, b, h', hm, rfl⟩
  all_goals
    unfold TraceOp.Legal at hop
    unfold Live.next
    simp only [hk] at hop ⊢
  · exact h.give hop.1 (sizeT_of_sized hop.2.2).2 (h.offered_malloc hm)
  · obtain ⟨n, hn⟩ := Placed.entry hop
    exact h.erase.free (h.mem _ hn) (h.alloc _ hn) fun e he => h.ne_of_erase hn he
  · rw [← Live.insert_erase]
    exact h.erase.give (by simp) (sizeT_of_sized hop.2).2 (h.offered_realloc hop.1 hm)

/-- So do several. -/
theorem Placed.run (h : Placed s live) (hops : Legal numIds live ops)
    (hreplay : s.replay ops = some s') : Placed s' (live.after ops) := by
  induction ops generalizing s live with
  | nil =>
    cases hreplay
    exact h
  | cons op ops ih =>
    rw [Play.replay, Option.bind_eq_some_iff] at hreplay
    obtain ⟨s₁, happly, hreplay⟩ := hreplay
    exact ih (h.step hops.1 happly) hops.2 hreplay

/-! ## The break -/

theorem Play.brk_release {b : Block} : (s.release b).brk = s.brk := I.free_brk _ _

/-- A request adds at most its cost to the heap. -/
theorem Play.brk_apply (h : s.apply op = some s') :
    s.brk ≤ s'.brk ∧ s'.brk ≤ s.brk + op.cost := by
  rcases Play.apply_cases h with ⟨hk, b, h', hm, rfl⟩ | ⟨hk, rfl⟩ | ⟨hk, b, h', hm, rfl⟩
  all_goals simp only [Play.brk_release, TraceOp.cost, hk]
  · exact I.malloc_brk hm
  · omega
  · exact I.realloc_brk hm

/-- A request that fails does not fit. -/
theorem Placed.cost_of_apply (h : Placed s live) (hop : op.Legal numIds live) (hsane : s.Sane op)
    (happly : s.apply op = none) : maxHeap < s.brk + op.cost := by
  unfold Play.apply at happly
  unfold TraceOp.Legal at hop
  unfold TraceOp.cost
  cases hk : op.kind with
  | alloc =>
    simp only [hk, Option.map_eq_none_iff] at happly
    exact I.malloc_refused happly
  | free => simp [hk] at happly
  | realloc =>
    simp only [hk, Option.map_eq_none_iff] at hop happly
    obtain ⟨n, hn⟩ := Placed.entry hop.1
    exact I.realloc_refused (h.mem _ hn) (h.alloc _ hn) (hsane hk) happly

/-- A trace whose cost fits does not fail. -/
theorem Placed.replay_of_cost (h : Placed s live) (hops : Legal numIds live ops)
    (hsane : s.Unbroken ops) (hcost : s.brk + cost ops ≤ maxHeap) :
    ∃ s', s.replay ops = some s' ∧ s'.brk ≤ s.brk + cost ops := by
  induction ops generalizing s live with
  | nil => exact ⟨s, rfl, Nat.le_add_right _ _⟩
  | cons op ops ih =>
    have hsum : cost (op :: ops) = op.cost + cost ops := rfl
    rw [hsum] at hcost ⊢
    cases happly : s.apply op with
    | none =>
      have := h.cost_of_apply hops.1 hsane.1 happly
      omega
    | some s₁ =>
      have hbrk := Play.brk_apply happly
      obtain ⟨s', hreplay, hle⟩ := ih (s := s₁) (h.step hops.1 happly) hops.2
        (hsane.tail happly) (by omega)
      refine ⟨s', ?_, by omega⟩
      rw [Play.replay, happly]
      exact hreplay

/-- The break only rises. -/
theorem Play.brk_replay (h : s.replay ops = some s') : s.brk ≤ s'.brk := by
  induction ops generalizing s with
  | nil =>
    cases h
    exact Nat.le_refl _
  | cons op ops ih =>
    rw [Play.replay, Option.bind_eq_some_iff] at h
    obtain ⟨s₁, happly, h⟩ := h
    exact (Play.brk_apply happly).1.trans (ih h)

/-! ## Payloads and blocks -/

/-- The live payloads with their headers and footers fit into the heap. -/
theorem Placed.total_le (h : Placed s live) :
    16 + live.total + 8 * live.entries.length ≤ s.brk := by
  have hinj : (live.entries.map fun e => s.place e.1).Nodup :=
    (List.nodup_map_iff_inj_on (List.NodupKeys.nodup live.nodupKeys)).mpr h.inj
  have hsub : (live.entries.map fun e => s.place e.1) ⊆ (I.layout s.heap).blocks := by
    intro b hb
    obtain ⟨e, he, rfl⟩ := List.mem_map.mp hb
    exact h.mem e he
  have hroom := (I.layout s.heap).shape.tiles.sum_le hinj hsub
  simp only [List.map_map, Function.comp_def, Block.stop, Nat.add_sub_cancel_left] at hroom
  have hsize : (live.entries.map fun e => e.2 + 8).sum ≤
      (live.entries.map fun e => (s.place e.1).size).sum :=
    List.sum_le_sum fun e he => (h.size e he).2
  have hsum : (live.entries.map fun e => e.2 + 8).sum = live.total + 8 * live.entries.length := by
    rw [Live.total, List.sum_map_add, List.map_const', List.sum_replicate_nat, Nat.mul_comm]
  rw [Play.brk]
  omega

/-- So does the peak of a trace. -/
theorem Placed.peak_le (h : Placed s live) (hops : Legal numIds live ops)
    (hreplay : s.replay ops = some s') : peak live ops + 16 ≤ s'.brk := by
  induction ops generalizing s live with
  | nil =>
    cases hreplay
    have := h.total_le
    rw [peak]
    omega
  | cons op ops ih =>
    have hle := Play.brk_replay hreplay
    have htotal := h.total_le
    rw [Play.replay, Option.bind_eq_some_iff] at hreplay
    obtain ⟨s₁, happly, hreplay⟩ := hreplay
    have hrest := ih (h.step hops.1 happly) hops.2 hreplay
    rw [peak]
    omega

end

end CToys.Malloc.Driver
