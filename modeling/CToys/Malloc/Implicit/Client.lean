import CToys.Lib.Runs
import CToys.Malloc.Implicit.Realloc

/-!
# Clients of the implicit allocator

Runs of clients that allocate, free and reallocate what they hold and write the bytes they
asked for, in any order.  Reallocating to 0 bytes frees, and reallocating `NULL` allocates.

`Sound c h` is the invariant: the machine holds the heap `h`, so its rover is at the
prologue or at a block, and the live pointers are the allocated blocks.  Every step keeps
it, and every legal call returns (`reachable_intact`).
-/

namespace CToys.Malloc.Implicit

variable {A : Arena}

/-- A size to reallocate to. -/
abbrev Target : Type := { n : Nat // n ≤ intMax }

/-- What clients do. -/
inductive Event where
  /-- `mm_malloc` returns `p`. -/
  | malloc (r : Request) (p : Nat)
  /-- `mm_free` of what call `k` returned. -/
  | free (k : Nat)
  /-- `mm_realloc` of `NULL`, or of what call `k` returned, returns `p`. -/
  | realloc (k : Option Nat) (t : Target) (p : Nat)
  /-- A write to byte `i` of what call `k` returned. -/
  | write (k i : Nat) (v : UInt8)

/-- The steps of a run. -/
inductive Step : Client A Statics → Event → Client A Statics → Prop
  | malloc {c : Client A Statics} {r : Request} {p : Nat} {σ' : Machine A Statics} :
      Returns (mmMalloc r.1) c.machine p σ' →
      Step c (.malloc r p) ⟨σ', c.ledger.record p r.1⟩
  | free {c : Client A Statics} {k : Nat} {g : Grant} {σ' : Machine A Statics} :
      c.ledger.live k = some g → Returns (mmFree g.ptr) c.machine () σ' →
      Step c (.free k) ⟨σ', c.ledger.drop k⟩
  | realloc_null {c : Client A Statics} {t : Target} {p : Nat} {σ' : Machine A Statics} :
      Returns (mmRealloc 0 t.1) c.machine p σ' →
      Step c (.realloc none t p) ⟨σ', c.ledger.record p t.1⟩
  | realloc {c : Client A Statics} {k : Nat} {t : Target} {p : Nat} {g : Grant}
      {σ' : Machine A Statics} :
      c.ledger.live k = some g → Returns (mmRealloc g.ptr t.1) c.machine p σ' →
      Step c (.realloc (some k) t p) ⟨σ', c.ledger.resize k t.1 p⟩
  | write {c : Client A Statics} {k i : Nat} {v : UInt8} {g : Grant} {σ' : Machine A Statics} :
      c.ledger.live k = some g → i < g.size →
      Returns (storeByte (g.ptr + i) v) c.machine () σ' →
      Step c (.write k i v) ⟨σ', c.ledger⟩

/-- The state after `mm_init` on a reset heap, whatever the memory was. -/
def Started (c : Client A Statics) : Prop :=
  ∃ σ₀ : Machine A Statics, σ₀.memBrk = A.start ∧ Returns mmInit σ₀ 0 c.machine ∧
    c.ledger = .empty

/-- A state of some run. -/
def Reachable (c : Client A Statics) : Prop :=
  ∃ c₀ es, Started c₀ ∧ Run Step c₀ es c

/-- The invariant. -/
structure Sound (c : Client A Statics) (h : Heap) : Prop where
  holds : Holds c.machine h
  serves : Serves A c.ledger h.toLayout

/-! ## Single steps -/

theorem Started.sound {c : Client A Statics} (hc : Started c) : Sound c Heap.initial := by
  obtain ⟨σ₀, hbrk, hinit, hledger⟩ := hc
  obtain ⟨r, σ, hret, -, hholds⟩ := mmInit_ensures hbrk
  obtain ⟨-, rfl⟩ := hret.unique hinit
  refine ⟨hholds, ?_⟩
  rw [hledger]
  exact .empty _ (by decide)

namespace Sound

variable {c : Client A Statics} {h : Heap} {k : Nat} {g : Grant} {size : Nat}

/-- The block of a live pointer. -/
theorem spot (hs : Sound c h) (hk : c.ledger.live k = some g) :
    ∃ s : Spot h.blocks, s.block.alloc = true ∧ g.ptr = A.start + s.block.off ∧
      (s.block.size = need g.size ∨ s.block.size = need g.size + 8) :=
  hs.serves.spot hk

/-- A call of `mm_malloc` returns and does what `Heap.malloc` says. -/
theorem malloc (hs : Sound c h) (hpos : 0 < size) (hsize : size ≤ intMax) :
    (∃ b h', h.malloc (need size) (need_ok size).1 = some (b, h') ∧
      ∃ σ', Returns (mmMalloc size) c.machine (A.start + b.off) σ' ∧
        Sound ⟨σ', c.ledger.record (A.start + b.off) size⟩ h' ∧
        c.machine.storage.AgreeOn σ'.storage (InUse h.blocks)) ∨
    (h.malloc (need size) (need_ok size).1 = none ∧
      Returns (mmMalloc size) c.machine 0 c.machine ∧
      Sound ⟨c.machine, c.ledger.record 0 size⟩ h) := by
  have hint : intMax = 2147483647 := rfl
  have hret := mmMalloc_ensures hs.holds hpos (by omega)
  cases hm : h.malloc (need size) (need_ok size).1 with
  | none =>
    rw [hm] at hret
    obtain ⟨p, σ', hret, rfl, rfl⟩ := hret
    exact .inr ⟨rfl, hret, hs.holds, hs.serves.refuse⟩
  | some res =>
    obtain ⟨b, h'⟩ := res
    rw [hm] at hret
    obtain ⟨p, σ', hret, rfl, hholds, hag⟩ := hret
    exact .inl ⟨b, h', rfl, σ', hret, ⟨hholds, hs.serves.record (Heap.malloc_served hm)⟩, hag⟩

/-- A call of `mm_free` returns and does what `Heap.release` says. -/
theorem free (hs : Sound c h) (hk : c.ledger.live k = some g) (s : Spot h.blocks)
    (hg : g.ptr = A.start + s.block.off) :
    ∃ σ', Returns (mmFree g.ptr) c.machine () σ' ∧
      Sound ⟨σ', c.ledger.drop k⟩ (h.release s) ∧
      c.machine.storage.AgreeOn σ'.storage (InUse (h.release s).blocks) := by
  obtain ⟨⟨⟩, σ', hret, hholds, hag⟩ := mmFree_ensures hs.holds s
  rw [← hg] at hret
  exact ⟨σ', hret, ⟨hholds, hs.serves.drop hk s.mem hg fun c hc => Layout.release_alloc hc⟩, hag⟩

/-- So does a call of `mm_realloc` for 0 bytes. -/
theorem realloc_zero (hs : Sound c h) (hk : c.ledger.live k = some g) (s : Spot h.blocks)
    (hg : g.ptr = A.start + s.block.off) (hz : size = 0) :
    ∃ σ', Returns (mmRealloc g.ptr size) c.machine 0 σ' ∧
      Sound ⟨σ', c.ledger.resize k size 0⟩ (h.release s) ∧
      c.machine.storage.AgreeOn σ'.storage (InUse (h.release s).blocks) := by
  subst hz
  obtain ⟨p, σ', hret, rfl, hholds, hag⟩ := mmRealloc_zero hs.holds s
  rw [← hg] at hret
  exact ⟨σ', hret, ⟨hholds, hs.serves.drop hk s.mem hg fun c hc => Layout.release_alloc hc⟩, hag⟩

/-- A call of `mm_realloc` for more moves the block, or fails and changes nothing. -/
theorem realloc (hs : Sound c h) (hk : c.ledger.live k = some g) (s : Spot h.blocks)
    (hal : s.block.alloc = true) (hg : g.ptr = A.start + s.block.off) (hpos : 0 < size)
    (hsize : size ≤ intMax) :
    (∃ (b : Block) (h' : Heap) (s' : Spot h'.blocks) (σ' : Machine A Statics),
      Served h.toLayout (need size) b h'.toLayout ∧
        Returns (mmRealloc g.ptr size) c.machine (A.start + b.off) σ' ∧
        Sound ⟨σ', c.ledger.resize k size (A.start + b.off)⟩ (h'.release s') ∧
        Moved s size c.machine σ' b h' s') ∨
    (Returns (mmRealloc g.ptr size) c.machine 0 c.machine ∧
      Sound ⟨c.machine, c.ledger.resize k size 0⟩ h) := by
  have hA := A.pos
  have hint : intMax = 2147483647 := rfl
  have hret := mmRealloc_ensures hs.holds s hal hpos (by omega)
  rw [← hg] at hret
  cases hm : h.malloc (need size) (need_ok size).1 with
  | none =>
    rw [hm] at hret
    obtain ⟨p, σ', hret, rfl, rfl⟩ := hret
    rw [Ledger.resize_refused (by omega)]
    exact .inr ⟨hret, hs.holds, hs.serves.refuse⟩
  | some res =>
    obtain ⟨b, h'⟩ := res
    rw [hm] at hret
    obtain ⟨p, σ', hret, rfl, s', hmoved⟩ := hret
    have hserved := Heap.malloc_served hm
    have hlive : (c.ledger.record (A.start + b.off) size).live k = some g := by
      rw [Ledger.record_live_of_ne (hs.serves.lt_calls hk).ne, hk]
    refine .inl ⟨b, h', s', σ', hserved, hret, ⟨hmoved.holds, ?_⟩, hmoved⟩
    rw [Ledger.resize_moved (by omega) (by omega)]
    exact (hs.serves.record hserved).drop hlive s'.mem (by rw [hg, hmoved.same])
      fun c hc => Layout.release_alloc hc

/-- A write of a client returns and changes one payload byte. -/
theorem write (hs : Sound c h) {i : Nat} (hk : c.ledger.live k = some g)
    (hi : i < g.size) (v : UInt8) :
    Returns (storeByte (g.ptr + i) v) c.machine ()
        (c.machine.withStorage (c.machine.storage.setByte (g.ptr - A.start + i) v)) ∧
      Sound ⟨c.machine.withStorage (c.machine.storage.setByte (g.ptr - A.start + i) v),
        c.ledger⟩ h := by
  obtain ⟨hret, hag⟩ := hs.serves.write_returns c.machine hk hi v
  exact ⟨hret, hs.holds.of_payload (hag.mono fun a ha b hb _ => ha b hb), hs.serves⟩

end Sound

/-- `mm_realloc(NULL, 0)` does nothing. -/
theorem mmRealloc_null_zero {σ : Machine A Statics} {size : Nat} (hz : size = 0) :
    Returns (mmRealloc 0 size) σ 0 σ := by
  rw [hz]
  rfl

/-- Every step keeps the invariant, and the heap has blocks. -/
theorem Step.sound {c c' : Client A Statics} {ev : Event} {h : Heap} (hstep : Step c ev c')
    (hs : Sound c h) (hne : h.blocks ≠ []) : ∃ h', Sound c' h' ∧ h'.blocks ≠ [] := by
  have hmalloc {size p : Nat} {σ' : Machine A Statics} (hpos : 0 < size) (hsize : size ≤ intMax)
      (hret : Returns (mmMalloc size) c.machine p σ') :
      ∃ h', Sound ⟨σ', c.ledger.record p size⟩ h' ∧ h'.blocks ≠ [] := by
    rcases hs.malloc hpos hsize with ⟨b, h', hm, σ₁, hret', hs', -⟩ | ⟨-, hret', hs'⟩
    · obtain ⟨rfl, rfl⟩ := hret'.unique hret
      exact ⟨h', hs', (Heap.malloc_served hm).ne_nil⟩
    · obtain ⟨rfl, rfl⟩ := hret'.unique hret
      exact ⟨h, hs', hne⟩
  cases hstep with
  | @malloc r p σ' hret => exact hmalloc r.2.1 r.2.2 hret
  | @free k g σ' hk hret =>
    obtain ⟨s, -, hg, -⟩ := hs.spot hk
    obtain ⟨σ₁, hret', hs', -⟩ := hs.free hk s hg
    obtain ⟨-, rfl⟩ := hret'.unique hret
    exact ⟨_, hs', Layout.release_ne_nil⟩
  | @realloc_null t p σ' hret =>
    rcases Nat.eq_zero_or_pos t.1 with hz | hpos
    · obtain ⟨rfl, rfl⟩ := (mmRealloc_null_zero hz).unique hret
      exact ⟨h, ⟨hs.holds, hs.serves.refuse⟩, hne⟩
    · exact hmalloc hpos t.2 (mmRealloc_null ▸ hret)
  | @realloc k t p g σ' hk hret =>
    obtain ⟨s, hal, hg, -⟩ := hs.spot hk
    rcases Nat.eq_zero_or_pos t.1 with hz | hpos
    · obtain ⟨σ₁, hret', hs', -⟩ := hs.realloc_zero hk s hg hz
      obtain ⟨rfl, rfl⟩ := hret'.unique hret
      exact ⟨_, hs', Layout.release_ne_nil⟩
    · rcases hs.realloc hk s hal hg hpos t.2 with ⟨b, h', s', σ₁, -, hret', hs', -⟩ | ⟨hret', hs'⟩
      · obtain ⟨rfl, rfl⟩ := hret'.unique hret
        exact ⟨_, hs', Layout.release_ne_nil⟩
      · obtain ⟨rfl, rfl⟩ := hret'.unique hret
        exact ⟨_, hs', hne⟩
  | @write k i v g σ' hk hi hret =>
    obtain ⟨hret', hs'⟩ := hs.write hk hi v
    obtain ⟨-, rfl⟩ := hret'.unique hret
    exact ⟨h, hs', hne⟩

theorem Reachable.nonempty {c : Client A Statics} (hc : Reachable c) :
    ∃ h, Sound c h ∧ h.blocks ≠ [] := by
  obtain ⟨c₀, es, hc₀, hrun⟩ := hc
  exact hrun.invariant (I := fun c => ∃ h, Sound c h ∧ h.blocks ≠ [])
    (fun _ _ _ ⟨_, hs, hne⟩ hstep => hstep.sound hs hne) ⟨_, hc₀.sound, by decide⟩

theorem Reachable.sound {c : Client A Statics} (hc : Reachable c) : ∃ h, Sound c h := by
  obtain ⟨h, hs, -⟩ := hc.nonempty
  exact ⟨h, hs⟩

/-- `mem_reset_brk` and `mm_init` start a run again on any machine. -/
theorem started_of_reset {σ σ' : Machine A Statics}
    (h : Returns (memResetBrk >>= fun _ => mmInit) σ 0 σ') : Started ⟨σ', .empty⟩ := by
  unfold Returns at h
  rw [memResetBrk_bind] at h
  exact ⟨σ.withBrk A.start, rfl, h, rfl⟩

theorem Started.reachable {c : Client A Statics} (hc : Started c) : Reachable c :=
  ⟨c, [], hc, .nil⟩

theorem Reachable.step {c c' : Client A Statics} {ev : Event} (hc : Reachable c)
    (hstep : Step c ev c') : Reachable c' := by
  obtain ⟨c₀, es, hc₀, hrun⟩ := hc
  exact ⟨c₀, _, hc₀, hrun.append (.single hstep)⟩

/-! ## Runs on a zeroed machine -/

/-- A reset machine with zeroed memory. -/
def zeroed : Machine .low Statics := ⟨fun _ => 0, Arena.low.start, ⟨0, 0⟩⟩

/-- The state after `mm_init` on it. -/
def booted : Client .low Statics := ⟨after mmInit zeroed, .empty⟩

theorem booted_started : Started booted := by
  have hinit : result mmInit zeroed = some 0 := by decide +kernel
  refine ⟨zeroed, rfl, ?_, rfl⟩
  simp only [booted]
  exact .of_result hinit

/-- The client after a call of `mm_malloc` that returned `p`. -/
def mallocAt (c : Client A Statics) (r : Request) (p : Nat) : Client A Statics :=
  ⟨after (mmMalloc r.1) c.machine, c.ledger.record p r.1⟩

theorem step_mallocAt {c : Client A Statics} {r : Request} {p : Nat}
    (h : result (mmMalloc r.1) c.machine = some p) : Step c (.malloc r p) (mallocAt c r p) :=
  .malloc (.of_result h)

/-- After one request of 24 bytes. -/
def single : Client .low Statics := mallocAt booted .small 4112

theorem single_reachable : Reachable single :=
  booted_started.reachable.step (step_mallocAt (by decide +kernel))

/-- After the block was moved to 100 bytes. -/
def widened : Client .low Statics :=
  ⟨after (mmRealloc 4112 100) single.machine, single.ledger.resize 0 100 4144⟩

theorem widened_step : Step single (.realloc (some 0) ⟨100, by decide⟩ 4144) widened := by
  have hmove : result (mmRealloc 4112 100) single.machine = some 4144 := by decide +kernel
  exact .realloc (g := ⟨4112, 24⟩) rfl (.of_result hmove)

/-! ## Well-formedness -/

/-- `mm_init` succeeds on every reset heap.  In every state of every run after it, the
machine holds a heap whose allocated blocks are the live pointers, with the rover at the
prologue or at a block, and every legal call returns. -/
theorem reachable_intact {c : Client A Statics} (hc : Reachable c) :
    (∀ σ₀ : Machine A Statics, σ₀.memBrk = A.start → ∃ σ, Returns mmInit σ₀ 0 σ) ∧
      (∃ h, Sound c h) ∧
      (∀ r, ∃ p c', Step c (.malloc r p) c') ∧
      (∀ k g, c.ledger.live k = some g → ∃ c', Step c (.free k) c') ∧
      (∀ t, ∃ p c', Step c (.realloc none t p) c') ∧
      (∀ k g t, c.ledger.live k = some g → ∃ p c', Step c (.realloc (some k) t p) c') ∧
      ∀ k g i v, c.ledger.live k = some g → i < g.size → ∃ c', Step c (.write k i v) c' := by
  obtain ⟨h, hs⟩ := hc.sound
  have hmalloc {size : Nat} (hpos : 0 < size) (hsize : size ≤ intMax) :
      ∃ p σ', Returns (mmMalloc size) c.machine p σ' := by
    rcases hs.malloc hpos hsize with ⟨b, -, -, σ', hret, -⟩ | ⟨-, hret, -⟩
    · exact ⟨_, _, hret⟩
    · exact ⟨_, _, hret⟩
  refine ⟨fun σ₀ hbrk => ?_, ⟨h, hs⟩, fun r => ?_, fun k g hk => ?_, fun t => ?_,
    fun k g t hk => ?_, fun k g i v hk hi => ⟨_, .write hk hi (hs.write hk hi v).1⟩⟩
  · obtain ⟨r, σ, hret, rfl, -⟩ := mmInit_ensures hbrk
    exact ⟨σ, hret⟩
  · obtain ⟨p, σ', hret⟩ := hmalloc r.2.1 r.2.2
    exact ⟨p, _, .malloc hret⟩
  · obtain ⟨s, -, hg, -⟩ := hs.spot hk
    obtain ⟨σ', hret, -⟩ := hs.free hk s hg
    exact ⟨_, .free hk hret⟩
  · rcases Nat.eq_zero_or_pos t.1 with hz | hpos
    · exact ⟨0, _, .realloc_null (mmRealloc_null_zero hz)⟩
    · obtain ⟨p, σ', hret⟩ := hmalloc hpos t.2
      exact ⟨p, _, .realloc_null hret⟩
  · obtain ⟨s, hal, hg, -⟩ := hs.spot hk
    rcases Nat.eq_zero_or_pos t.1 with hz | hpos
    · obtain ⟨σ', hret, -⟩ := hs.realloc_zero hk s hg hz
      exact ⟨0, _, .realloc hk hret⟩
    · rcases hs.realloc hk s hal hg hpos t.2 with ⟨b, -, -, σ', -, hret, -⟩ | ⟨hret, -⟩
      · exact ⟨_, _, .realloc hk hret⟩
      · exact ⟨_, _, .realloc hk hret⟩

theorem single_intact : (∃ h, Sound single h) ∧
    ∀ t, ∃ p c', Step single (.realloc (some 0) t p) c' := by
  obtain ⟨-, hsound, -, -, -, hrealloc, -⟩ := reachable_intact single_reachable
  exact ⟨hsound, fun t => hrealloc 0 _ t rfl⟩

end CToys.Malloc.Implicit
