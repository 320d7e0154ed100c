import CToys.Lib.Pool
import CToys.Lib.Runs
import CToys.Malloc.Driver.Tracked

/-!
# All clients

The driver is one client of a package.  Here are all of them: in any order they allocate, free
and reallocate blocks, and read and write the bytes that they asked for.

A package gives them what a `Pool` does, which has no addresses, no sizes but theirs, and no
limit.  Each run is a run of the pool with the same operations, of which some were refused, and
what the clients know of the bytes is in the memory (`Backs`).  A call is refused only if the
heap cannot grow, and no legal call goes wrong (`Serves`), apart from the reallocations that
overrun other blocks or copy to `NULL` (`refines_pool`).
-/

namespace CToys.Malloc.Driver

variable {A : Arena} {ρ : Type} {P : Package A ρ} {I : Interface P}

/-- `*(unsigned char *)p`. -/
def loadByte (p : Nat) : Prog A ρ UInt8 := fun σ =>
  if A.InStorage p 1 then .ok (σ.storage (p - A.start), σ) else .error (.segv p)

/-- A machine, and what its client knows: pointers, and the sizes of its blocks. -/
structure Session (A : Arena) (ρ : Type) where
  machine : Machine A ρ
  vars : Nat → Nat
  live : Live

/-- What a client does. -/
inductive Event where
  /-- `p = mm_malloc(size)`, for the variable `i`. -/
  | alloc (i size p : Nat)
  /-- `mm_free`. -/
  | free (i : Nat)
  /-- `p = mm_realloc(.., size)`, for the variable `i` if it is not `NULL`. -/
  | realloc (i size p : Nat)
  /-- Byte `j` is written. -/
  | write (i j : Nat) (v : UInt8)
  /-- Byte `j` is read. -/
  | read (i j : Nat) (v : UInt8)

/-- The same for a pool. -/
def Event.action : Event → Pool.Action
  | .alloc i size p => .alloc i size (p ≠ 0)
  | .free i => .free i
  | .realloc i size p => .realloc i size (p ≠ 0)
  | .write i j v => .write i j v
  | .read i j v => .read i j v

/-- A call returned `p`. -/
def Session.answer (c : Session A ρ) (i size p : Nat) (σ' : Machine A ρ) : Session A ρ :=
  if p = 0 then ⟨σ', c.vars, c.live⟩
  else ⟨σ', Function.update c.vars i p, c.live.insert i size⟩

/-- The steps of a client. -/
inductive Step (P : Package A ρ) : Session A ρ → Event → Session A ρ → Prop
  | alloc {c : Session A ρ} {i size p : Nat} {σ' : Machine A ρ} :
      i ∉ c.live → 0 < size → size ≤ intMax → Returns (P.mmMalloc size) c.machine p σ' →
      Step P c (.alloc i size p) (c.answer i size p σ')
  | free {c : Session A ρ} {i : Nat} {σ' : Machine A ρ} :
      i ∈ c.live → Returns (P.mmFree (c.vars i)) c.machine () σ' →
      Step P c (.free i) ⟨σ', c.vars, c.live.erase i⟩
  | realloc {c : Session A ρ} {i size p : Nat} {σ' : Machine A ρ} :
      i ∈ c.live → 0 < size → size ≤ intMax →
      Returns (P.mmRealloc (c.vars i) size) c.machine p σ' →
      Step P c (.realloc i size p) (c.answer i size p σ')
  | write {c : Session A ρ} {i j n : Nat} {v : UInt8} {σ' : Machine A ρ} :
      c.live.lookup i = some n → j < n →
      Returns (storeByte (c.vars i + j) v) c.machine () σ' →
      Step P c (.write i j v) ⟨σ', c.vars, c.live⟩
  | read {c : Session A ρ} {i j n : Nat} {v : UInt8} {σ' : Machine A ρ} :
      c.live.lookup i = some n → j < n →
      Returns (loadByte (c.vars i + j)) c.machine v σ' →
      Step P c (.read i j v) ⟨σ', c.vars, c.live⟩

/-- After `mm_init` on a reset heap, whatever the memory was. -/
def Started (P : Package A ρ) (c : Session A ρ) : Prop :=
  ∃ σ₀ : Machine A ρ, σ₀.memBrk = A.start ∧ Returns P.mmInit σ₀ 0 c.machine ∧ c.live = ∅

/-- The call of `mm_realloc`, if it is one, does not go wrong. -/
def Sane (I : Interface P) (c : Session A ρ) : Event → Prop
  | .realloc i size _ => ∃ s : Play I, Tracked c.machine c.vars s c.live ∧
      I.breaks s.heap (s.place i) size = false
  | _ => True

/-- The memory has what the client knows. -/
structure Backs (c : Session A ρ) (m : Pool) : Prop where
  size : ∀ i, (m i).map Cell.size = c.live.lookup i
  bytes : ∀ {i x}, m i = some x → x.In c.machine.storage (c.vars i - A.start)

variable {c c' : Session A ρ} {s : Play I} {m : Pool} {i j n size : Nat} {x : Cell} {v : UInt8}
  {σ₁ : Machine A ρ} {live : Live}

namespace Backs

/-- The handles of the pool are the variables in use. -/
theorem eq_none (h : Backs c m) (hi : i ∉ c.live) : m i = none := by
  have hsize := h.size i
  rwa [AList.lookup_eq_none.mpr hi, Option.map_eq_none_iff] at hsize

theorem exists_cell (h : Backs c m) (hi : c.live.lookup i = some n) :
    ∃ x, m i = some x ∧ x.size = n :=
  Option.map_eq_some_iff.mp ((h.size i).trans hi)

theorem lookup (h : Backs c m) (hx : m i = some x) : c.live.lookup i = some x.size := by
  rw [← h.size i, hx]
  rfl

/-- A block whose payload is as before. -/
theorem spared (h : Backs c m) (ht : Tracked c.machine c.vars s c.live) (hx : m i = some x)
    (hs : Spared s live c.machine σ₁) (hi : ⟨i, x.size⟩ ∈ live.entries) :
    x.In σ₁.storage (c.vars i - A.start) := by
  have hptr := ht.pointer (Live.mem_of_lookup (h.lookup hx))
  refine (h.bytes hx).congr fun j hj => ?_
  rw [hptr, Nat.add_sub_cancel_left]
  exact hs _ hi j hj

/-- A block is forgotten. -/
theorem erase (h : Backs c m) (ht : Tracked c.machine c.vars s c.live)
    (hs : Spared s (c.live.erase i) c.machine σ₁) :
    Backs ⟨σ₁, c.vars, c.live.erase i⟩ (m.set i none) := by
  refine ⟨fun k => ?_, fun {k x} hx => ?_⟩
  all_goals by_cases hk : k = i
  · rw [hk, Pool.set_self, AList.lookup_erase]
    rfl
  · rw [Pool.set_of_ne hk, AList.lookup_erase_ne hk]
    exact h.size k
  · rw [hk, Pool.set_self] at hx
    cases hx
  · rw [Pool.set_of_ne hk] at hx
    refine h.spared ht hx hs (Live.mem_entries.mpr ?_)
    rw [AList.lookup_erase_ne hk]
    exact h.lookup hx

/-- A block is handed out. -/
theorem give (h : Backs c m) (ht : Tracked c.machine c.vars s c.live) {b : Block} {h' : I.Heap}
    (hb : Handed s c.live size c.machine b h' σ₁) (hsize : x.size = size)
    (hx : x.In σ₁.storage b.off) :
    Backs ⟨σ₁, Function.update c.vars i (A.start + b.off), c.live.insert i size⟩
      (m.set i (some x)) := by
  refine ⟨fun k => ?_, fun {k y} hy => ?_⟩
  all_goals by_cases hk : k = i
  · rw [hk, Pool.set_self, AList.lookup_insert, ← hsize]
    rfl
  · rw [Pool.set_of_ne hk, AList.lookup_insert_ne hk]
    exact h.size k
  · rw [hk, Pool.set_self] at hy
    cases hy
    show x.In σ₁.storage (Function.update c.vars i (A.start + b.off) k - A.start)
    rwa [hk, Function.update_self, Nat.add_sub_cancel_left]
  · rw [Pool.set_of_ne hk] at hy
    show y.In σ₁.storage (Function.update c.vars i (A.start + b.off) k - A.start)
    rw [Function.update_of_ne hk]
    exact h.spared ht hy hb.spared (Live.mem_entries.mpr (h.lookup hy))

end Backs

/-! ## Single steps -/

/-- A byte of a live block lies in the payload. -/
theorem Tracked.byte (ht : Tracked c.machine c.vars s c.live) (hi : c.live.lookup i = some n)
    (hj : j < n) : c.vars i + j = A.start + ((s.place i).off + j) ∧
      (s.place i).Payload ((s.place i).off + j) ∧ (s.place i).off + j < maxHeap := by
  have hentry : ⟨i, n⟩ ∈ c.live.entries := Live.mem_entries.mpr hi
  have hbd := (I.layout s.heap).shape.bounds (ht.placed.mem _ hentry)
  have hpay : (s.place i).Payload ((s.place i).off + j) := ht.payload hentry hj
  refine ⟨?_, hpay, ?_⟩
  · rw [ht.pointer (Live.mem_of_lookup hi), Nat.add_assoc]
  · unfold Block.Payload at hpay
    simp only at hbd
    omega

/-- A write of a client. -/
theorem Tracked.write (ht : Tracked c.machine c.vars s c.live) (hi : c.live.lookup i = some n)
    (hj : j < n) (v : UInt8) : ∃ σ₁, Returns (storeByte (c.vars i + j) v) c.machine () σ₁ ∧
      σ₁.storage = c.machine.storage.setByte ((s.place i).off + j) v ∧
      Tracked σ₁ c.vars s c.live := by
  obtain ⟨haddr, hpay, hlt⟩ := ht.byte hi hj
  have hentry : ⟨i, n⟩ ∈ c.live.entries := Live.mem_entries.mpr hi
  rw [haddr]
  refine ⟨_, storeByte_returns hlt, rfl, I.of_payload ht.holds fun a ha => ?_, ht.placed,
    ht.blocks⟩
  refine Memory.setByte_apply_of_ne ?_
  rintro rfl
  exact ha _ (ht.placed.mem _ hentry) (ht.placed.alloc _ hentry) hpay

/-- A read of a client. -/
theorem Tracked.read (ht : Tracked c.machine c.vars s c.live) (hi : c.live.lookup i = some n)
    (hj : j < n) : Returns (loadByte (c.vars i + j)) c.machine
      (c.machine.storage (c.vars i - A.start + j)) c.machine := by
  obtain ⟨haddr, -, hlt⟩ := ht.byte hi hj
  have hin : A.InStorage (c.vars i + j) 1 := ⟨by omega, by omega⟩
  have hsub : c.vars i + j - A.start = c.vars i - A.start + j := by
    rw [ht.pointer (Live.mem_of_lookup hi)]
    omega
  simp only [Returns, loadByte, if_pos hin, hsub]

/-- Two live blocks have no address in common. -/
theorem Tracked.apart (ht : Tracked c.machine c.vars s c.live) {i' n' j' : Nat} (hne : i ≠ i')
    (hi : c.live.lookup i = some n) (hi' : c.live.lookup i' = some n') (hj : j < n)
    (hj' : j' < n') : (s.place i).off + j ≠ (s.place i').off + j' := by
  have he : ⟨i, n⟩ ∈ c.live.entries := Live.mem_entries.mpr hi
  have he' : ⟨i', n'⟩ ∈ c.live.entries := Live.mem_entries.mpr hi'
  have hsize : n + 8 ≤ (s.place i).size := (ht.placed.size _ he).2
  have hsize' : n' + 8 ≤ (s.place i').size := (ht.placed.size _ he').2
  have hmem : s.place i ∈ (I.layout s.heap).blocks := ht.placed.mem _ he
  rcases (I.layout s.heap).shape.apart hmem (ht.placed.mem _ he') with heq | hlt | hlt
  · exact absurd (congrArg Sigma.fst (ht.placed.inj _ he _ he' heq)) hne
  · simp only at hlt
    omega
  · simp only at hlt
    omega

theorem Backs.write (h : Backs c m) (ht : Tracked c.machine c.vars s c.live) (hx : m i = some x)
    (hj : j < x.size)
    (hσ : σ₁.storage = c.machine.storage.setByte ((s.place i).off + j) v) :
    Backs ⟨σ₁, c.vars, c.live⟩ (m.set i (some (x.write j v))) := by
  have hi := h.lookup hx
  have hptr : c.vars i - A.start = (s.place i).off := by
    rw [ht.pointer (Live.mem_of_lookup hi), Nat.add_sub_cancel_left]
  rw [← hptr] at hσ
  refine ⟨fun k => ?_, fun {k y} hy => ?_⟩
  all_goals by_cases hk : k = i
  · rw [hk, Pool.set_self]
    exact hi.symm
  · rw [Pool.set_of_ne hk]
    exact h.size k
  · rw [hk, Pool.set_self] at hy
    cases hy
    show (x.write j v).In σ₁.storage (c.vars k - A.start)
    rw [hk, hσ]
    exact (h.bytes hx).write
  · rw [Pool.set_of_ne hk] at hy
    have hk' := h.lookup hy
    refine (h.bytes hy).congr fun l hl => ?_
    rw [hσ, hptr, ht.pointer (Live.mem_of_lookup hk'), Nat.add_sub_cancel_left]
    exact Memory.setByte_apply_of_ne (ht.apart hk hk' hi hl hj)

/-! ## Steps -/

/-- The machine holds a heap with the blocks of the client. -/
def Session.Follows (I : Interface P) (c : Session A ρ) : Prop :=
  ∃ s : Play I, Tracked c.machine c.vars s c.live

/-- After a step the pool has made the operation, too. -/
def Backed (I : Interface P) (m : Pool) (e : Event) (c' : Session A ρ) : Prop :=
  c'.Follows I ∧ ∃ m', m.apply e.action = some m' ∧ Backs c' m'

section

variable {p : Nat} {σ' : Machine A ρ}

/-- A call that is refused. -/
theorem Backs.refused (h : Backs c m) (ht : Tracked c.machine c.vars s c.live) (i size : Nat) :
    (c.answer i size 0 c.machine).Follows I ∧ Backs (c.answer i size 0 c.machine) m :=
  ⟨⟨s, ht⟩, h⟩

theorem Backs.alloc_step (h : Backs c m) (hf : c.Follows I) (hi : i ∉ c.live) (hpos : 0 < size)
    (hle : size ≤ intMax) (hret : Returns (P.mmMalloc size) c.machine p σ') :
    Backed I m (.alloc i size p) (c.answer i size p σ') := by
  obtain ⟨s, ht⟩ := hf
  have hnone := h.eq_none hi
  rcases ht.malloc hpos hle with ⟨-, hret'⟩ | ⟨b, h', σ₁, -, hret', hb⟩
  · obtain ⟨rfl, rfl⟩ := hret.unique hret'
    obtain ⟨hf', h'⟩ := h.refused ht i size
    refine ⟨hf', m, ?_, h'⟩
    simp [Pool.apply, Event.action, hnone]
  · obtain ⟨rfl, rfl⟩ := hret.unique hret'
    have hA := A.pos
    have hne : A.start + b.off ≠ 0 := by omega
    have hserved : decide (A.start + b.off ≠ 0) = true := decide_eq_true hne
    rw [Session.answer, if_neg hne]
    refine ⟨⟨_, ht.give hi hpos hb⟩, m.set i (some (.blank size)), ?_,
      h.give ht hb rfl Cell.In.blank⟩
    simp only [Pool.apply, Event.action, hnone, hserved, if_true]

theorem Backs.free_step (h : Backs c m) (hf : c.Follows I) (hi : i ∈ c.live)
    (hret : Returns (P.mmFree (c.vars i)) c.machine () σ') :
    Backed I m (.free i) ⟨σ', c.vars, c.live.erase i⟩ := by
  obtain ⟨s, ht⟩ := hf
  obtain ⟨n, hn⟩ := Live.exists_of_mem hi
  obtain ⟨x, hx, -⟩ := h.exists_cell hn
  obtain ⟨σ₁, hret', ht', hspared⟩ := ht.free hi
  obtain ⟨-, rfl⟩ := hret.unique hret'
  refine ⟨⟨_, ht'⟩, m.set i none, ?_, h.erase ht hspared⟩
  simp [Pool.apply, Event.action, hx]

/-- The new block has the known bytes of the old one. -/
theorem Backs.realloc_step (h : Backs c m) (hi : i ∈ c.live) (hpos : 0 < size)
    (hle : size ≤ intMax) (hsane : Sane I c (.realloc i size p))
    (hret : Returns (P.mmRealloc (c.vars i) size) c.machine p σ') :
    Backed I m (.realloc i size p) (c.answer i size p σ') := by
  obtain ⟨s, ht, hbreaks⟩ := hsane
  obtain ⟨n, hn⟩ := Live.exists_of_mem hi
  obtain ⟨x, hx, rfl⟩ := h.exists_cell hn
  rcases ht.realloc (Live.mem_entries.mpr hn) hpos hle hbreaks with
    ⟨-, hret'⟩ | ⟨b, h', σ₁, -, hret', hb, hcontents⟩
  · obtain ⟨rfl, rfl⟩ := hret.unique hret'
    obtain ⟨hf', h'⟩ := h.refused ht i size
    refine ⟨hf', m, ?_, h'⟩
    simp [Pool.apply, Event.action, hx]
  · obtain ⟨rfl, rfl⟩ := hret.unique hret'
    have hA := A.pos
    have hne : A.start + b.off ≠ 0 := by omega
    have hptr : c.vars i - A.start = (s.place i).off := by
      rw [ht.pointer hi, Nat.add_sub_cancel_left]
    have hcell : (x.resize size).In σ'.storage b.off :=
      (h.bytes hx).resize fun j hj => by rw [hptr]; exact hcontents j hj
    -- the old block is given back before the new one is handed out
    have herased : Backs ⟨c.machine, c.vars, c.live.erase i⟩ (m.set i none) :=
      h.erase ht fun _ _ _ _ => rfl
    have hgiven := herased.give (i := i) ht.erase hb (x := x.resize size) rfl hcell
    have ht' := ht.erase.give (i := i) (by simp) hpos hb
    rw [Live.insert_erase] at ht' hgiven
    rw [Pool.set_set] at hgiven
    have hserved : decide (A.start + b.off ≠ 0) = true := decide_eq_true hne
    rw [Session.answer, if_neg hne]
    refine ⟨⟨_, ht'⟩, _, ?_, hgiven⟩
    simp only [Pool.apply, Event.action, hx, hserved, if_true, Option.map_some]

theorem Backs.write_step (h : Backs c m) (hf : c.Follows I) (hi : c.live.lookup i = some n)
    (hj : j < n) (hret : Returns (storeByte (c.vars i + j) v) c.machine () σ') :
    Backed I m (.write i j v) ⟨σ', c.vars, c.live⟩ := by
  obtain ⟨s, ht⟩ := hf
  obtain ⟨x, hx, rfl⟩ := h.exists_cell hi
  obtain ⟨σ₁, hret', hstorage, ht'⟩ := ht.write hi hj v
  obtain ⟨-, rfl⟩ := hret.unique hret'
  refine ⟨⟨s, ht'⟩, m.set i (some (x.write j v)), ?_, h.write ht hx hj hstorage⟩
  simp [Pool.apply, Event.action, hx, hj]

theorem Backs.read_step (h : Backs c m) (hf : c.Follows I) (hi : c.live.lookup i = some n)
    (hj : j < n) (hret : Returns (loadByte (c.vars i + j)) c.machine v σ') :
    Backed I m (.read i j v) ⟨σ', c.vars, c.live⟩ := by
  obtain ⟨s, ht⟩ := hf
  obtain ⟨x, hx, rfl⟩ := h.exists_cell hi
  obtain ⟨rfl, rfl⟩ := hret.unique (ht.read hi hj)
  refine ⟨⟨s, ht⟩, m, ?_, h⟩
  have hreads := (h.bytes hx).reads hj
  simp [Pool.apply, Event.action, hx, hj, hreads]

/-- Every step is one of the pool. -/
theorem Backs.step {e : Event} (h : Backs c m) (hf : c.Follows I) (hsane : Sane I c e)
    (hstep : Step P c e c') : Backed I m e c' := by
  cases hstep with
  | alloc hi hpos hle hret => exact h.alloc_step hf hi hpos hle hret
  | free hi hret => exact h.free_step hf hi hret
  | realloc hi hpos hle hret => exact h.realloc_step hi hpos hle hsane hret
  | write hi hj hret => exact h.write_step hf hi hj hret
  | read hi hj hret => exact h.read_step hf hi hj hret

end

/-! ## Runs -/

/-- So is every run. -/
theorem Backs.run {R : Session A ρ → Event → Session A ρ → Prop}
    (hR : ∀ {c e c'}, R c e c' → Step P c e c' ∧ (c.Follows I → Sane I c e)) {es : List Event}
    (hrun : Run R c es c') (h : Backs c m) (hf : c.Follows I) :
    c'.Follows I ∧ ∃ m', m.run (es.map Event.action) = some m' ∧ Backs c' m' := by
  induction hrun generalizing m with
  | nil => exact ⟨hf, m, rfl, h⟩
  | @cons c c₁ c' e es hstep _ ih =>
    obtain ⟨hstep, hsane⟩ := hR hstep
    obtain ⟨hf₁, m₁, happly, h₁⟩ := h.step hf (hsane hf) hstep
    obtain ⟨hf', m', hrun, h'⟩ := ih h₁ hf₁
    refine ⟨hf', m', ?_, h'⟩
    rw [List.map_cons, Pool.run, happly]
    exact hrun

/-- What the client asks for next is done.  A call is refused only if the heap cannot grow. -/
structure Serves (I : Interface P) (c : Session A ρ) : Prop where
  alloc : ∀ i size, i ∉ c.live → 0 < size → size ≤ intMax → ∃ p c',
    Step P c (.alloc i size p) c' ∧
      (p = 0 → A.start + maxHeap < c.machine.memBrk + extension (need size))
  free : ∀ i ∈ c.live, ∃ c', Step P c (.free i) c'
  realloc : ∀ i ∈ c.live, ∀ size, 0 < size → size ≤ intMax → Sane I c (.realloc i size 0) →
    ∃ p c', Step P c (.realloc i size p) c' ∧
      (p = 0 → A.start + maxHeap < c.machine.memBrk + extension (need size))
  write : ∀ i n j v, c.live.lookup i = some n → j < n → ∃ c', Step P c (.write i j v) c'
  read : ∀ i n j, c.live.lookup i = some n → j < n → ∃ v c', Step P c (.read i j v) c'

theorem Session.Follows.serves (hf : c.Follows I) : Serves I c where
  alloc i size hi hpos hle := by
    obtain ⟨s, ht⟩ := hf
    have hA := A.pos
    have hbrk := I.brk ht.holds
    rcases ht.malloc hpos hle with ⟨hm, hret⟩ | ⟨b, h', σ₁, -, hret, -⟩
    · have hfull := I.malloc_refused hm
      exact ⟨_, _, .alloc hi hpos hle hret, fun _ => by omega⟩
    · exact ⟨_, _, .alloc hi hpos hle hret, fun hp => by omega⟩
  free i hi := by
    obtain ⟨s, ht⟩ := hf
    obtain ⟨σ₁, hret, -, -⟩ := ht.free hi
    exact ⟨_, .free hi hret⟩
  realloc i hi size hpos hle hsane := by
    obtain ⟨s, ht, hbreaks⟩ := hsane
    have hA := A.pos
    have hbrk := I.brk ht.holds
    obtain ⟨n, hn⟩ := Placed.entry hi
    rcases ht.realloc hn hpos hle hbreaks with ⟨hm, hret⟩ | ⟨b, h', σ₁, -, hret, -, -⟩
    · have hfull := I.realloc_refused (ht.placed.mem _ hn) (ht.placed.alloc _ hn) hbreaks hm
      exact ⟨_, _, .realloc hi hpos hle hret, fun _ => by omega⟩
    · exact ⟨_, _, .realloc hi hpos hle hret, fun hp => by omega⟩
  write i n j v hi hj := by
    obtain ⟨s, ht⟩ := hf
    obtain ⟨σ₁, hret, -, -⟩ := ht.write hi hj v
    exact ⟨_, .write hi hj hret⟩
  read i n j hi hj := by
    obtain ⟨s, ht⟩ := hf
    exact ⟨_, _, .read hi hj (ht.read hi hj)⟩

/-- The run is one of the pool, which then has the blocks of the client, and the package goes on
to serve. -/
def Realizes (I : Interface P) (es : List Event) (c : Session A ρ) : Prop :=
  (∃ m, Pool.empty.run (es.map Event.action) = some m ∧
    ∀ i, (m i).map Cell.size = c.live.lookup i) ∧ Serves I c

theorem Started.realizes {R : Session A ρ → Event → Session A ρ → Prop}
    (hR : ∀ {c e c'}, R c e c' → Step P c e c' ∧ (c.Follows I → Sane I c e)) {es : List Event}
    (hstart : Started P c) (hrun : Run R c es c') : Realizes I es c' := by
  obtain ⟨σ₀, hbrk, hinit, hlive⟩ := hstart
  obtain ⟨r, σ₁, hinit', -, hholds⟩ := I.mmInit_ensures hbrk
  obtain ⟨-, rfl⟩ := hinit.unique hinit'
  have hf : c.Follows I := ⟨Play.initial I, hlive ▸ .start hholds⟩
  have hempty : Backs c Pool.empty := by
    refine ⟨fun i => ?_, fun {i x} hx => ?_⟩
    · rw [hlive]
      rfl
    · cases hx
  obtain ⟨hf', m, hrun, h⟩ := hempty.run hR hrun hf
  exact ⟨⟨m, hrun, h.size⟩, hf'.serves⟩

/-! ## Sessions that are computed -/

/-- Zeroed memory. -/
def unbooted (statics : ρ) : Machine .low ρ := ⟨fun _ => 0, Arena.low.start, statics⟩

/-- A session after `mm_init`. -/
def opening (P : Package .low ρ) (statics : ρ) : Session .low ρ :=
  ⟨after P.mmInit (unbooted statics), fun _ => 0, ∅⟩

/-- The session after a step. -/
def Session.next (P : Package A ρ) (c : Session A ρ) : Event → Session A ρ
  | .alloc i size p => c.answer i size p (after (P.mmMalloc size) c.machine)
  | .free i => ⟨after (P.mmFree (c.vars i)) c.machine, c.vars, c.live.erase i⟩
  | .realloc i size p => c.answer i size p (after (P.mmRealloc (c.vars i) size) c.machine)
  | .write i j v => ⟨after (storeByte (c.vars i + j) v) c.machine, c.vars, c.live⟩
  | .read i j _ => ⟨after (loadByte (c.vars i + j)) c.machine, c.vars, c.live⟩

/-- Whether the client may make the step, and it has these results. -/
def Session.makes (P : Package A ρ) (c : Session A ρ) : Event → Bool
  | .alloc i size p => !decide (i ∈ c.live) && decide (0 < size) && decide (size ≤ intMax) &&
      decide (result (P.mmMalloc size) c.machine = some p)
  | .free i => decide (i ∈ c.live) && decide (result (P.mmFree (c.vars i)) c.machine = some ())
  | .realloc i size p => decide (i ∈ c.live) && decide (0 < size) && decide (size ≤ intMax) &&
      decide (result (P.mmRealloc (c.vars i) size) c.machine = some p)
  | .write i j v => decide (j < (c.live.lookup i).getD 0) &&
      decide (result (storeByte (c.vars i + j) v) c.machine = some ())
  | .read i j v => decide (j < (c.live.lookup i).getD 0) &&
      decide (result (loadByte (c.vars i + j)) c.machine = some v)

/-- The same for several steps. -/
def Session.makesAll (P : Package A ρ) : Session A ρ → List Event → Bool
  | _, [] => true
  | c, e :: es => c.makes P e && (c.next P e).makesAll P es

/-- A byte that may be used belongs to a block. -/
theorem exists_of_lt_getD {o : Option Nat} (h : j < o.getD 0) : ∃ n, o = some n ∧ j < n := by
  cases o with
  | none => exact absurd h (Nat.not_lt_zero j)
  | some n => exact ⟨n, rfl, h⟩

theorem Step.of_makes {e : Event} (h : c.makes P e = true) : Step P c e (c.next P e) := by
  cases e with
  | alloc i size p =>
    simp only [Session.makes, Bool.and_eq_true, Bool.not_eq_true', decide_eq_false_iff_not,
      decide_eq_true_eq] at h
    obtain ⟨⟨⟨hi, hpos⟩, hle⟩, hret⟩ := h
    exact .alloc hi hpos hle (.of_result hret)
  | free i =>
    simp only [Session.makes, Bool.and_eq_true, decide_eq_true_eq] at h
    exact .free h.1 (.of_result h.2)
  | realloc i size p =>
    simp only [Session.makes, Bool.and_eq_true, decide_eq_true_eq] at h
    obtain ⟨⟨⟨hi, hpos⟩, hle⟩, hret⟩ := h
    exact .realloc hi hpos hle (.of_result hret)
  | write i j v =>
    simp only [Session.makes, Bool.and_eq_true, decide_eq_true_eq] at h
    obtain ⟨n, hi, hj⟩ := exists_of_lt_getD h.1
    exact .write hi hj (.of_result h.2)
  | read i j v =>
    simp only [Session.makes, Bool.and_eq_true, decide_eq_true_eq] at h
    obtain ⟨n, hi, hj⟩ := exists_of_lt_getD h.1
    exact .read hi hj (.of_result h.2)

theorem run_of_makesAll {es : List Event} (h : c.makesAll P es = true) :
    ∃ c', Run (Step P) c es c' := by
  induction es generalizing c with
  | nil => exact ⟨c, .nil⟩
  | cons e es ih =>
    rw [Session.makesAll, Bool.and_eq_true] at h
    obtain ⟨c', hrun⟩ := ih h.2
    exact ⟨c', .cons (.of_makes h.1) hrun⟩

/-! ## The two allocators -/

/-- Both allocators are pools to every client: in every run the bytes that are read are those
that were written, through all reallocations and whatever else was allocated and freed.  Of the
segregated allocator this is said as long as no reallocation goes wrong. -/
theorem refines_pool :
    (∀ (c c' : Session A Implicit.Statics) es, Started (implicitPackage A) c →
      Run (Step (implicitPackage A)) c es c' → Realizes (implicitInterface A) es c') ∧
    ∀ (c c' : Session A Segregated.Statics) es, Started (segregatedPackage A) c →
      Run (fun c e c' => Step (segregatedPackage A) c e c' ∧ Sane (segregatedInterface A) c e)
        c es c' → Realizes (segregatedInterface A) es c' := by
  refine ⟨fun c c' es hstart hrun => hstart.realizes (fun {c e c'} hstep => ⟨hstep, ?_⟩) hrun,
    fun c c' es hstart hrun => hstart.realizes (fun h => ⟨h.1, fun _ => h.2⟩) hrun⟩
  rintro ⟨s, ht⟩
  cases e with
  | realloc i size p => exact ⟨s, ht, rfl⟩
  | _ => trivial

/-- A byte that is written, moved by `mm_realloc` and read. -/
theorem moved_realizes : ∃ c, Realizes (implicitInterface .low)
    [.alloc 0 24 4112, .write 0 3 7, .realloc 0 100 4144, .read 0 3 7] c := by
  have hinit : result (implicitPackage .low).mmInit (unbooted ⟨0, 0⟩) = some 0 := by
    decide +kernel
  have hmakes : (opening (implicitPackage .low) ⟨0, 0⟩).makesAll (implicitPackage .low)
      [.alloc 0 24 4112, .write 0 3 7, .realloc 0 100 4144, .read 0 3 7] = true := by
    decide +kernel
  obtain ⟨c, hrun⟩ := run_of_makesAll hmakes
  exact ⟨c, refines_pool.1 _ c _ ⟨_, rfl, .of_result hinit, rfl⟩ hrun⟩

end CToys.Malloc.Driver
