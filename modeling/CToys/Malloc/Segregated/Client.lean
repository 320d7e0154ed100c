import CToys.Lib.Runs
import CToys.Malloc.Segregated.Heap

/-!
# Clients of the segregated allocator

Runs of clients that allocate, free what they hold and write the bytes they asked for, in
any order.  `Sound c h` is the invariant: the machine holds the heap `h` and the live
pointers are its allocated blocks.  Every step keeps it, with the heap that `Heap.malloc`
or `Heap.release` gives.

So in every state of a run the machine holds some heap, and every legal call returns
(`reachable_wellFormed`).
-/

namespace CToys.Malloc.Segregated

variable {A : Arena}

/-- What clients do. -/
inductive Event where
  /-- `mm_malloc` returns `p`. -/
  | malloc (r : Request) (p : Nat)
  /-- `mm_free` of what call `k` returned. -/
  | free (k : Nat)
  /-- A write to byte `i` of what call `k` returned. -/
  | write (k i : Nat) (v : UInt8)

/-- The steps of a run. -/
inductive Step : Client A Statics → Event → Client A Statics → Prop
  | malloc {c : Client A Statics} {r : Request} {p : Nat} {σ' : Machine A Statics} :
      Returns (mmMalloc r.1) c.machine p σ' →
      Step c (.malloc r p) ⟨σ', c.ledger.record p r.1⟩
  | free {c : Client A Statics} {k : Nat} {g : Grant} {σ' : Machine A Statics} :
      c.ledger.live k = some g → Returns (mmFree g.ptr) c.machine () σ' →
      Step c (.free k) ⟨σ', c.ledger.drop k⟩
  | write {c : Client A Statics} {k i : Nat} {v : UInt8} {g : Grant} {σ' : Machine A Statics} :
      c.ledger.live k = some g → i < g.size →
      Returns (storeByte (g.ptr + i) v) c.machine () σ' →
      Step c (.write k i v) ⟨σ', c.ledger⟩

/-- The state after `mm_init` on a reset heap, whatever the memory was. -/
def Started (c : Client A Statics) : Prop :=
  ∃ σ₀ : Machine A Statics, σ₀.memBrk = A.start ∧ Returns mmInit σ₀ 0 c.machine ∧
    c.ledger = .empty

/-- A state of some run. -/
def Reachable (c : Client A Statics) : Prop :=
  ∃ c₀ es, Started c₀ ∧ Run Step c₀ es c

/-- The invariant. -/
structure Sound (c : Client A Statics) (h : Heap) : Prop where
  holds : Holds c.machine h
  serves : Serves A c.ledger h.toLayout

/-! ## Single steps -/

theorem Started.sound {c : Client A Statics} (hc : Started c) : Sound c Heap.initial := by
  obtain ⟨σ₀, hbrk, hinit, hledger⟩ := hc
  obtain ⟨r, σ, hret, -, hholds⟩ := mmInit_ensures hbrk
  obtain ⟨-, rfl⟩ := hret.unique hinit
  refine ⟨hholds, ?_⟩
  rw [hledger]
  exact .empty _ (by decide)

namespace Sound

variable {c c' : Client A Statics} {h : Heap}

/-- The block of a live pointer. -/
theorem spot (hs : Sound c h) {k : Nat} {g : Grant} (hk : c.ledger.live k = some g) :
    ∃ s : Spot h.blocks, s.block.alloc = true ∧ g.ptr = A.start + s.block.off ∧
      (s.block.size = need g.size ∨ s.block.size = need g.size + 8) :=
  hs.serves.spot hk

/-- A call of `mm_malloc` returns and does what `Heap.malloc` says. -/
theorem malloc (hs : Sound c h) (r : Request) :
    (∃ b h', h.malloc (need r.1) (need_ok r.1).1 = some (b, h') ∧
      ∃ σ', Returns (mmMalloc r.1) c.machine (A.start + b.off) σ' ∧
        Sound ⟨σ', c.ledger.record (A.start + b.off) r.1⟩ h' ∧
        c.machine.storage.AgreeOn σ'.storage (InUse h.blocks)) ∨
    (h.malloc (need r.1) (need_ok r.1).1 = none ∧
      Returns (mmMalloc r.1) c.machine 0 c.machine ∧
      Sound ⟨c.machine, c.ledger.record 0 r.1⟩ h) := by
  have hr := r.2
  have hint : intMax = 2147483647 := rfl
  have hret := mmMalloc_ensures hs.holds r.2.1 (by omega)
  cases hm : h.malloc (need r.1) (need_ok r.1).1 with
  | none =>
    rw [hm] at hret
    obtain ⟨p, σ', hret, rfl, rfl⟩ := hret
    exact .inr ⟨rfl, hret, hs.holds, hs.serves.refuse⟩
  | some res =>
    obtain ⟨b, h'⟩ := res
    rw [hm] at hret
    obtain ⟨p, σ', hret, rfl, hholds, hag⟩ := hret
    exact .inl ⟨b, h', rfl, σ', hret, ⟨hholds, hs.serves.record (Heap.malloc_served hm)⟩, hag⟩

/-- A call of `mm_free` returns and does what `Heap.release` says. -/
theorem free (hs : Sound c h) {k : Nat} {g : Grant} (hk : c.ledger.live k = some g)
    (s : Spot h.blocks) (hal : s.block.alloc = true) (hg : g.ptr = A.start + s.block.off) :
    ∃ σ', Returns (mmFree g.ptr) c.machine () σ' ∧
      Sound ⟨σ', c.ledger.drop k⟩ (h.release s hal) ∧
      c.machine.storage.AgreeOn σ'.storage (InUse (h.release s hal).blocks) := by
  obtain ⟨⟨⟩, σ', hret, hholds, hag⟩ := mmFree_ensures hs.holds s hal
  rw [← hg] at hret
  exact ⟨σ', hret, ⟨hholds, hs.serves.drop hk s.mem hg fun c hc => Layout.release_alloc hc⟩, hag⟩

/-- A write of a client returns and changes one payload byte. -/
theorem write (hs : Sound c h) {k i : Nat} {g : Grant} (hk : c.ledger.live k = some g)
    (hi : i < g.size) (v : UInt8) :
    Returns (storeByte (g.ptr + i) v) c.machine ()
        (c.machine.withStorage (c.machine.storage.setByte (g.ptr - A.start + i) v)) ∧
      Sound ⟨c.machine.withStorage (c.machine.storage.setByte (g.ptr - A.start + i) v),
        c.ledger⟩ h := by
  obtain ⟨hret, hag⟩ := hs.serves.write_returns c.machine hk hi v
  exact ⟨hret, hs.holds.of_payload hag, hs.serves⟩

end Sound

/-- Every step keeps the invariant, and the heap has blocks. -/
theorem Step.sound {c c' : Client A Statics} {ev : Event} {h : Heap} (hstep : Step c ev c')
    (hs : Sound c h) (hne : h.blocks ≠ []) : ∃ h', Sound c' h' ∧ h'.blocks ≠ [] := by
  cases hstep with
  | @malloc r p σ' hret =>
    rcases hs.malloc r with ⟨b, h', hm, σ₁, hret', hs', -⟩ | ⟨-, hret', hs'⟩
    · obtain ⟨rfl, rfl⟩ := hret'.unique hret
      exact ⟨h', hs', (Heap.malloc_served hm).ne_nil⟩
    · obtain ⟨rfl, rfl⟩ := hret'.unique hret
      exact ⟨h, hs', hne⟩
  | @free k g σ' hk hret =>
    obtain ⟨s, hal, hg, -⟩ := hs.spot hk
    obtain ⟨σ₁, hret', hs', -⟩ := hs.free hk s hal hg
    obtain ⟨-, rfl⟩ := hret'.unique hret
    exact ⟨_, hs', Layout.release_ne_nil⟩
  | @write k i v g σ' hk hi hret =>
    obtain ⟨hret', hs'⟩ := hs.write hk hi v
    obtain ⟨-, rfl⟩ := hret'.unique hret
    exact ⟨h, hs', hne⟩

theorem Reachable.nonempty {c : Client A Statics} (hc : Reachable c) :
    ∃ h, Sound c h ∧ h.blocks ≠ [] := by
  obtain ⟨c₀, es, hc₀, hrun⟩ := hc
  exact hrun.invariant (I := fun c => ∃ h, Sound c h ∧ h.blocks ≠ [])
    (fun _ _ _ ⟨_, hs, hne⟩ hstep => hstep.sound hs hne) ⟨_, hc₀.sound, by decide⟩

theorem Reachable.sound {c : Client A Statics} (hc : Reachable c) : ∃ h, Sound c h := by
  obtain ⟨h, hs, -⟩ := hc.nonempty
  exact ⟨h, hs⟩

/-- `mem_reset_brk` and `mm_init` start a run again on any machine. -/
theorem started_of_reset {σ σ' : Machine A Statics}
    (h : Returns (memResetBrk >>= fun _ => mmInit) σ 0 σ') : Started ⟨σ', .empty⟩ := by
  unfold Returns at h
  rw [memResetBrk_bind] at h
  exact ⟨σ.withBrk A.start, rfl, h, rfl⟩

theorem Started.reachable {c : Client A Statics} (hc : Started c) : Reachable c :=
  ⟨c, [], hc, .nil⟩

theorem Reachable.step {c c' : Client A Statics} {ev : Event} (hc : Reachable c)
    (hstep : Step c ev c') : Reachable c' := by
  obtain ⟨c₀, es, hc₀, hrun⟩ := hc
  exact ⟨c₀, _, hc₀, hrun.append (.single hstep)⟩

/-- A reset machine with zeroed memory. -/
def zeroed : Machine .low Statics := ⟨fun _ => 0, Arena.low.start, ⟨0, fun _ => 0⟩⟩

/-- The state after `mm_init` on it. -/
def booted : Client .low Statics := ⟨after mmInit zeroed, .empty⟩

theorem booted_started : Started booted := by
  have hinit : result mmInit zeroed = some 0 := by decide +kernel
  refine ⟨zeroed, rfl, ?_, rfl⟩
  simp only [booted]
  exact .of_result hinit

/-- The client after a call of `mm_malloc` that returned `p`. -/
def mallocAt (c : Client A Statics) (r : Request) (p : Nat) : Client A Statics :=
  ⟨after (mmMalloc r.1) c.machine, c.ledger.record p r.1⟩

/-- The client after `mm_free` of the pointer `p` that call `k` returned. -/
def freeAt (c : Client A Statics) (k p : Nat) : Client A Statics :=
  ⟨after (mmFree p) c.machine, c.ledger.drop k⟩

section

variable {c : Client A Statics} {r : Request} {k p size : Nat}

theorem step_mallocAt (h : result (mmMalloc r.1) c.machine = some p) :
    Step c (.malloc r p) (mallocAt c r p) :=
  .malloc (.of_result h)

theorem step_freeAt (hk : c.ledger.live k = some ⟨p, size⟩)
    (h : result (mmFree p) c.machine = some ()) : Step c (.free k) (freeAt c k p) :=
  .free hk (.of_result h)

theorem Reachable.mallocAt (hc : Reachable c)
    (h : result (mmMalloc r.1) c.machine = some p) : Reachable (mallocAt c r p) :=
  hc.step (step_mallocAt h)

theorem Reachable.freeAt (hc : Reachable c) (hk : c.ledger.live k = some ⟨p, size⟩)
    (h : result (mmFree p) c.machine = some ()) : Reachable (freeAt c k p) :=
  hc.step (step_freeAt hk h)

/-- The heap after `mm_malloc`. -/
theorem Sound.mallocAt {h h' : Heap} {b : Block} (hs : Sound c h)
    (hm : h.malloc (need r.1) (need_ok r.1).1 = some (b, h')) :
    Sound (mallocAt c r (A.start + b.off)) h' := by
  rcases hs.malloc r with ⟨b', h₁, hm', σ', hret, hs', -⟩ | ⟨hm', -, -⟩
  · obtain ⟨rfl, rfl⟩ : b' = b ∧ h₁ = h' := by simpa [hm] using hm'.symm
    unfold Segregated.mallocAt
    rwa [hret.after_eq]
  · rw [hm] at hm'
    cases hm'

end

/-- After one request of 24 bytes. -/
def single : Client .low Statics := mallocAt booted .small 4112

/-- The block and the rest of the first chunk. -/
theorem single_blocks :
    ∃ h, Sound single h ∧ h.blocks = [⟨16, 32, true⟩, ⟨48, 4064, false⟩] := by
  have hserved : (Heap.initial.malloc 32 (by decide)).map (fun x => (x.1, x.2.blocks))
      = some (⟨16, 32, true⟩, [⟨16, 32, true⟩, ⟨48, 4064, false⟩]) := by decide
  obtain ⟨⟨b, h⟩, hm, hblocks⟩ := Option.map_eq_some_iff.mp hserved
  obtain ⟨rfl, hblocks⟩ := Prod.mk.inj hblocks
  exact ⟨h, booted_started.sound.mallocAt (r := .small) hm, hblocks⟩

/-- After two requests of 24 bytes. -/
def paired : Client .low Statics :=
  mallocAt (mallocAt booted .small 4112) .small 4144

theorem paired_reachable : Reachable paired :=
  (booted_started.reachable.mallocAt (by decide +kernel)).mallocAt (by decide +kernel)

/-- The two blocks and the rest of the first chunk. -/
theorem paired_blocks : ∃ h, Sound paired h ∧
    h.blocks = [⟨16, 32, true⟩, ⟨48, 32, true⟩, ⟨80, 4032, false⟩] := by
  have hserved : (Heap.initial.malloc 32 (by decide)).bind
      (fun x => (x.2.malloc 32 (by decide)).map fun y => (x.1, y.1, y.2.blocks))
      = some (⟨16, 32, true⟩, ⟨48, 32, true⟩,
        [⟨16, 32, true⟩, ⟨48, 32, true⟩, ⟨80, 4032, false⟩]) := by decide
  obtain ⟨⟨b, h⟩, hm, hserved⟩ := Option.bind_eq_some_iff.mp hserved
  obtain ⟨⟨b', h'⟩, hm', hall⟩ := Option.map_eq_some_iff.mp hserved
  obtain ⟨hb, hrest⟩ := Prod.mk.inj hall
  obtain ⟨hb', hblocks⟩ := Prod.mk.inj hrest
  obtain rfl : b = ⟨16, 32, true⟩ := hb
  obtain rfl : b' = ⟨48, 32, true⟩ := hb'
  have hs : Sound single h := booted_started.sound.mallocAt (r := .small) hm
  exact ⟨h', hs.mallocAt (r := .small) hm', hblocks⟩

/-! ## Well-formedness -/

/-- `mm_init` succeeds on every reset heap.  In every state of every run after it, the
machine holds a heap whose allocated blocks are the live pointers, and every legal call
returns. -/
theorem reachable_wellFormed {c : Client A Statics} (hc : Reachable c) :
    (∀ σ₀ : Machine A Statics, σ₀.memBrk = A.start → ∃ σ, Returns mmInit σ₀ 0 σ) ∧
      (∃ h, Sound c h) ∧
      (∀ r, ∃ p c', Step c (.malloc r p) c') ∧
      (∀ k g, c.ledger.live k = some g → ∃ c', Step c (.free k) c') ∧
      ∀ k g i v, c.ledger.live k = some g → i < g.size → ∃ c', Step c (.write k i v) c' := by
  obtain ⟨h, hs⟩ := hc.sound
  refine ⟨fun σ₀ hbrk => ?_, ⟨h, hs⟩, fun r => ?_, fun k g hk => ?_,
    fun k g i v hk hi => ?_⟩
  · obtain ⟨r, σ, hret, rfl, -⟩ := mmInit_ensures hbrk
    exact ⟨σ, hret⟩
  · rcases hs.malloc r with ⟨b, -, -, σ', hret, -⟩ | ⟨-, hret, -⟩
    · exact ⟨_, _, .malloc hret⟩
    · exact ⟨_, _, .malloc hret⟩
  · obtain ⟨s, hal, hg, -⟩ := hs.spot hk
    obtain ⟨σ', hret, -⟩ := hs.free hk s hal hg
    exact ⟨_, .free hk hret⟩
  · exact ⟨_, .write hk hi (hs.write hk hi v).1⟩

theorem paired_wellFormed : (∃ h, Sound paired h) ∧
    (∀ r, ∃ p c', Step paired (.malloc r p) c') ∧ ∃ c', Step paired (.free 1) c' := by
  obtain ⟨-, hsound, hmalloc, hfree, -⟩ := reachable_wellFormed paired_reachable
  exact ⟨hsound, hmalloc, hfree 1 _ rfl⟩

end CToys.Malloc.Segregated
