import CToys.Malloc.Segregated.Client

/-!
# Contents never influence placement

Two runs on two memories, perhaps at different addresses, in which the clients make the
same calls and write what they like.  The machines hold the same heap throughout, because
`Heap.malloc` and `Heap.release` know nothing of the memory.
-/

namespace CToys.Malloc.Segregated

variable {A A' : Arena}

/-- The calls of a run.  Writes of clients are not calls. -/
inductive Call where
  /-- `mm_malloc`. -/
  | malloc (r : Request)
  /-- `mm_free` of what call `k` returned. -/
  | free (k : Nat)

/-- The call that an event is. -/
def Event.call : Event → Option Call
  | .malloc r _ => some (.malloc r)
  | .free k => some (.free k)
  | .write .. => none

/-- The pointer as an offset into the heap, or `none` for `NULL`. -/
def offsetOf (A : Arena) (p : Nat) : Option Nat := if p = 0 then none else some (p - A.start)

/-- What a call of `mm_malloc` returned. -/
def Event.returned (A : Arena) : Event → Option (Option Nat)
  | .malloc _ p => some (offsetOf A p)
  | _ => none

/-- Two clients hold the same blocks of the same heap. -/
structure Twins (c : Client A Statics) (d : Client A' Statics) (h : Heap) : Prop where
  left : Sound c h
  right : Sound d h
  calls : c.ledger.calls = d.ledger.calls
  live : ∀ k, (c.ledger.live k).map (fun g => offsetOf A g.ptr)
    = (d.ledger.live k).map (fun g => offsetOf A' g.ptr)

theorem offsetOf_ptr {A : Arena} (o : Nat) : offsetOf A (A.start + o) = some o := by
  have := A.pos
  rw [offsetOf, if_neg (by omega), Nat.add_sub_cancel_left]

namespace Twins

variable {c c' : Client A Statics} {d d' : Client A' Statics} {h : Heap}

/-- Recording results at the same offset keeps the live blocks the same. -/
private theorem record_live (ht : Twins c d h) {p q size : Nat}
    (hpq : offsetOf A p = offsetOf A' q) (k : Nat) :
    ((c.ledger.record p size).live k).map (fun g => offsetOf A g.ptr)
      = ((d.ledger.record q size).live k).map (fun g => offsetOf A' g.ptr) := by
  have hzero : p = 0 ↔ q = 0 := by
    simp only [offsetOf] at hpq
    split at hpq <;> split at hpq <;> simp_all
  by_cases hk : k = c.ledger.calls
  · by_cases hp : p = 0
    · have hq := hzero.mp hp
      simpa [Ledger.record, hp, hq] using ht.live k
    · have hq : q ≠ 0 := fun e => hp (hzero.mpr e)
      have hright : (d.ledger.record q size).live k = some ⟨q, size⟩ := by
        rw [hk, ht.calls, Ledger.record_live_self _ _ hq]
      rw [hright, hk, Ledger.record_live_self _ _ hp]
      exact congrArg some hpq
  · rw [Ledger.record_live_of_ne hk, Ledger.record_live_of_ne (ht.calls ▸ hk)]
    exact ht.live k

/-- The same call on both sides has the same result. -/
theorem call (ht : Twins c d h) {e f : Event} {x : Call} (hstep : Step c e c')
    (hstep' : Step d f d') (he : e.call = some x) (hf : f.call = some x) :
    (∃ h', Twins c' d' h') ∧ e.returned A = f.returned A' := by
  cases hstep with
  | @malloc r p σ hret =>
    cases hstep' with
    | free _ _ => cases he; cases hf
    | write _ _ _ => cases hf
    | @malloc r' q τ hret' =>
      obtain rfl : r = r' := by
        cases he
        cases hf
        rfl
      rcases ht.left.malloc r with ⟨b, h₁, hm, σ₁, hc, hs, -⟩ | ⟨hm, hc, hs⟩ <;>
        rcases ht.right.malloc r with ⟨b', h₂, hm', σ₂, hd, hs', -⟩ | ⟨hm', hd, hs'⟩
      · obtain ⟨rfl, rfl⟩ := hc.unique hret
        obtain ⟨rfl, rfl⟩ := hd.unique hret'
        rw [hm] at hm'
        cases hm'
        have hoff : offsetOf A (A.start + b.off) = offsetOf A' (A'.start + b.off) := by
          rw [offsetOf_ptr, offsetOf_ptr]
        exact ⟨⟨h₁, hs, hs', congrArg (· + 1) ht.calls, ht.record_live hoff⟩,
          congrArg some hoff⟩
      · rw [hm] at hm'
        cases hm'
      · rw [hm] at hm'
        cases hm'
      · obtain ⟨rfl, rfl⟩ := hc.unique hret
        obtain ⟨rfl, rfl⟩ := hd.unique hret'
        exact ⟨⟨h, hs, hs', congrArg (· + 1) ht.calls, ht.record_live rfl⟩, rfl⟩
  | @free k g σ hk hret =>
    cases hstep' with
    | malloc _ => cases he; cases hf
    | write _ _ _ => cases hf
    | @free k' g' τ hk' hret' =>
      obtain rfl : k = k' := by
        cases he
        cases hf
        rfl
      obtain ⟨s, hal, hg, -⟩ := ht.left.spot hk
      obtain ⟨s', hal', hg', -⟩ := ht.right.spot hk'
      have hoff := ht.live k
      rw [hk, hk', Option.map_some, Option.map_some, hg, hg', offsetOf_ptr, offsetOf_ptr] at hoff
      have hss : s.block.off = s'.block.off := by simpa using hoff
      obtain ⟨σ₁, hc, hs, -⟩ := ht.left.free hk s hal hg
      obtain ⟨σ₂, hd, hs', -⟩ := ht.right.free hk' s hal (by rw [hg', hss])
      obtain ⟨-, rfl⟩ := hc.unique hret
      obtain ⟨-, rfl⟩ := hd.unique hret'
      refine ⟨⟨_, hs, hs', ht.calls, fun j => ?_⟩, rfl⟩
      by_cases hjk : j = k
      · rw [hjk, Ledger.drop_live_self, Ledger.drop_live_self]
        rfl
      · rw [Ledger.drop_live_of_ne hjk, Ledger.drop_live_of_ne hjk]
        exact ht.live j
  | write _ _ _ => cases he

/-- A write on either side changes nothing that the other could see. -/
theorem write_left (ht : Twins c d h) {e : Event} (hstep : Step c e c') (he : e.call = none) :
    Twins c' d h ∧ e.returned A = none := by
  cases hstep with
  | malloc _ => cases he
  | free _ _ => cases he
  | @write k i v g σ hk hi hret =>
    obtain ⟨hret', hs⟩ := ht.left.write hk hi v
    obtain ⟨-, rfl⟩ := hret'.unique hret
    exact ⟨⟨hs, ht.right, ht.calls, ht.live⟩, rfl⟩

theorem symm (ht : Twins c d h) : Twins d c h :=
  ⟨ht.right, ht.left, ht.calls.symm, fun k => (ht.live k).symm⟩

end Twins

/-- Two runs with the same calls return the same offsets, and the machines hold the same
heap: the same break, the same blocks and the same free lists.  The first steps of a run
are a run, so this is so after every step. -/
theorem placement_independent {c₀ c : Client A Statics} {d₀ d : Client A' Statics}
    {es fs : List Event} (hc : Started c₀) (hd : Started d₀) (hrun : Run Step c₀ es c)
    (hrun' : Run Step d₀ fs d) (hcalls : es.filterMap Event.call = fs.filterMap Event.call) :
    es.filterMap (Event.returned A) = fs.filterMap (Event.returned A') ∧
      ∃ h : Heap, Holds c.machine h ∧ Holds d.machine h := by
  have hinit : ∃ h, Twins c₀ d₀ h := by
    refine ⟨Heap.initial, hc.sound, hd.sound, ?_, fun k => ?_⟩
    · obtain ⟨-, -, -, hl⟩ := hc
      obtain ⟨-, -, -, hl'⟩ := hd
      rw [hl, hl']
    · obtain ⟨-, -, -, hl⟩ := hc
      obtain ⟨-, -, -, hl'⟩ := hd
      rw [hl, hl']
      rfl
  obtain ⟨⟨h, ht⟩, hobs⟩ := hrun.sync (R := fun c d => ∃ h, Twins c d h) hrun'
    (fun _ _ _ _ ⟨h, ht⟩ hstep he => ⟨⟨h, (ht.write_left hstep he).1⟩,
      (ht.write_left hstep he).2⟩)
    (fun _ _ _ _ ⟨h, ht⟩ hstep he => ⟨⟨h, (ht.symm.write_left hstep he).1.symm⟩,
      (ht.symm.write_left hstep he).2⟩)
    (fun _ _ _ _ _ _ _ ⟨_, ht⟩ hstep hstep' he hf => ht.call hstep hstep' he hf) hcalls hinit
  exact ⟨hobs, h, ht.left.holds, ht.right.holds⟩

/-- A reset machine with other bytes. -/
def filled : Machine .low Statics := ⟨fun _ => 255, Arena.low.start, ⟨0, fun _ => 0⟩⟩

/-- The state after `mm_init` on it. -/
def rebooted : Client .low Statics := ⟨after mmInit filled, .empty⟩

/-- The client on the other bytes also writes to its block. -/
theorem placement_rebooted : ∃ h : Heap,
    Holds (mallocAt booted .small 4112).machine h ∧
      Holds (after (storeByte 4112 7) (mallocAt rebooted .small 4112).machine) h := by
  have hinit : result mmInit filled = some 0 := by decide +kernel
  have hstarted : Started rebooted := by
    refine ⟨filled, rfl, ?_, rfl⟩
    simp only [rebooted]
    exact .of_result hinit
  have hfirst : result (mmMalloc 24) booted.machine = some 4112 := by decide +kernel
  have hsecond : result (mmMalloc 24) rebooted.machine = some 4112 := by decide +kernel
  have hstore : result (storeByte 4112 7) (mallocAt rebooted .small 4112).machine
      = some () := by decide +kernel
  have hwrite : Step (mallocAt rebooted .small 4112) (.write 0 0 7) _ :=
    .write (g := ⟨4112, 24⟩) rfl (by decide) (.of_result hstore)
  exact (placement_independent booted_started hstarted
    (.single (step_mallocAt (r := .small) hfirst))
    (.cons (step_mallocAt (r := .small) hsecond) (.single hwrite)) rfl).2

end CToys.Malloc.Segregated
