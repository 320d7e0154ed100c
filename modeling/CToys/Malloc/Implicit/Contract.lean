import CToys.Malloc.Implicit.Client

/-!
# What clients of the implicit allocator may rely on

In every state of a run each live block is aligned, lies in the heap, has the size that its
request needs and is apart from the other live blocks.  A step hands out what it returns,
leaves every live payload alone that it does not free or move, and a block that moves takes
its contents along.
-/

namespace CToys.Malloc.Implicit

variable {A : Arena}

namespace Event

/-- The pointer that a call returned and the size it was asked for. -/
def answer : Event → Option (Nat × Nat)
  | .malloc r p => some (p, r.1)
  | .realloc _ t p => some (p, t.1)
  | _ => none

/-- What call `k` returned is freed or moved. -/
def Consumes (k : Nat) : Event → Prop
  | .free k' => k' = k
  | .realloc (some k') t p => k' = k ∧ (t.1 = 0 ∨ p ≠ 0)
  | _ => False

/-- Byte `i` of what call `k` returned after an event, if it was `v` before. -/
def store (k i : Nat) (v : UInt8) : Event → UInt8
  | .write k' i' v' => if k' = k ∧ i' = i then v' else v
  | _ => v

end Event

section

variable {c c' : Client A Statics} {h : Heap} {k : Nat} {g : Grant} {ev : Event}

/-- The block behind a live pointer stays live, with all of its bytes but the one that the
client writes. -/
def Keeps (c c' : Client A Statics) (k : Nat) (g : Grant) (b : Block) (ev : Event) : Prop :=
  c'.ledger.live k = some g ∧ ∀ i < b.size - 8, c'.machine.storage (b.off + i)
    = ev.store k i (c.machine.storage (b.off + i))

/-- A step keeps the blocks that it does not consume. -/
private theorem keeps (hs : Sound c h) (hk : c.ledger.live k = some g) {s : Spot h.blocks}
    (hal : s.block.alloc = true) (hg : g.ptr = A.start + s.block.off) (hstep : Step c ev c')
    (hev : ¬ ev.Consumes k) : Keeps c c' k g s.block ev := by
  have hcalls : k ≠ c.ledger.calls := (hs.serves.lt_calls hk).ne
  have hpay {i : Nat} (hi : i < s.block.size - 8) : s.block.Payload (s.block.off + i) :=
    ⟨by omega, by omega⟩
  have hmalloc {size p : Nat} {σ' : Machine A Statics} (hpos : 0 < size) (hsize : size ≤ intMax)
      (hret : Returns (mmMalloc size) c.machine p σ') :
      (c.ledger.record p size).live k = some g ∧ ∀ i < s.block.size - 8,
        σ'.storage (s.block.off + i) = c.machine.storage (s.block.off + i) := by
    rw [Ledger.record_live_of_ne hcalls]
    refine ⟨hk, fun i hi => ?_⟩
    rcases hs.malloc hpos hsize with ⟨b, h', -, σ₁, hret', -, hag⟩ | ⟨-, hret', -⟩
    · obtain ⟨rfl, rfl⟩ := hret'.unique hret
      exact hag _ ⟨s.block, s.mem, hal, hpay hi⟩
    · obtain ⟨rfl, rfl⟩ := hret'.unique hret
      rfl
  -- another live block is another block
  have hother {k' : Nat} {g' : Grant} {s' : Spot h.blocks} (hk' : c.ledger.live k' = some g')
      (hg' : g'.ptr = A.start + s'.block.off) (hne : k ≠ k') : s.block ≠ s'.block := fun e =>
    hne (hs.serves.inj hk hk' (by rw [hg, hg', e]))
  cases hstep with
  | @malloc r p σ' hret => exact hmalloc r.2.1 r.2.2 hret
  | @free k' g' σ' hk' hret =>
    have hkk : k ≠ k' := fun e => hev e.symm
    obtain ⟨s', -, hg', -⟩ := hs.spot hk'
    obtain ⟨σ₁, hret', -, hag⟩ := hs.free hk' s' hg'
    obtain ⟨-, rfl⟩ := hret'.unique hret
    have hmem := (Layout.release_alloc (s := s') hal).mpr ⟨s.mem, hother hk' hg' hkk⟩
    exact ⟨(Ledger.drop_live_of_ne hkk).trans hk, fun i hi => hag _ ⟨_, hmem, hal, hpay hi⟩⟩
  | @realloc_null t p σ' hret =>
    rcases Nat.eq_zero_or_pos t.1 with hz | hpos
    · obtain ⟨rfl, rfl⟩ := (mmRealloc_null_zero hz).unique hret
      exact ⟨(Ledger.record_live_of_ne hcalls).trans hk, fun _ _ => rfl⟩
    · exact hmalloc hpos t.2 hret
  | @realloc k' t p g' σ' hk' hret =>
    obtain ⟨s', hal', hg', -⟩ := hs.spot hk'
    rcases Nat.eq_zero_or_pos t.1 with hz | hpos
    · have hkk : k ≠ k' := fun e => hev ⟨e.symm, .inl hz⟩
      obtain ⟨σ₁, hret', -, hag⟩ := hs.realloc_zero hk' s' hg' hz
      obtain ⟨rfl, rfl⟩ := hret'.unique hret
      have hmem := (Layout.release_alloc (s := s') hal).mpr ⟨s.mem, hother hk' hg' hkk⟩
      refine ⟨?_, fun i hi => hag _ ⟨_, hmem, hal, hpay hi⟩⟩
      rw [Ledger.resize, if_pos hz]
      exact (Ledger.drop_live_of_ne hkk).trans hk
    · rcases hs.realloc hk' s' hal' hg' hpos t.2 with
        ⟨b, h', s'', σ₁, -, hret', -, hmoved⟩ | ⟨hret', -⟩
      · obtain ⟨rfl, rfl⟩ := hret'.unique hret
        have hA := A.pos
        have hkk : k ≠ k' := fun e => hev ⟨e.symm, .inr (by omega)⟩
        refine ⟨?_, fun i hi => ?_⟩
        · rw [Ledger.resize_moved (by omega) (by omega), Ledger.drop_live_of_ne hkk,
            Ledger.record_live_of_ne hcalls, hk]
        · exact hmoved.frame _ ⟨_, s'.mem_sides s.mem (hother hk' hg' hkk), hal, hpay hi⟩
      · obtain ⟨rfl, rfl⟩ := hret'.unique hret
        refine ⟨?_, fun _ _ => rfl⟩
        rw [Ledger.resize_refused (by omega), Ledger.record_live_of_ne hcalls, hk]
  | @write k' i' v g' σ' hk' hi' hret =>
    obtain ⟨hret', -⟩ := hs.write hk' hi' v
    obtain ⟨-, rfl⟩ := hret'.unique hret
    exact ⟨hk, fun i hi => hs.serves.setByte_apply s.mem hk hg hk' hi' hi v _⟩

/-- What a call returned is live under the number of the call. -/
private theorem answered (hs : Sound c h) (hstep : Step c ev c') {p size : Nat}
    (hans : ev.answer = some (p, size)) (hp : p ≠ 0) :
    c'.ledger.live c.ledger.calls = some ⟨p, size⟩ := by
  cases hstep with
  | malloc hret =>
    cases hans
    exact Ledger.record_live_self _ _ hp
  | free => cases hans
  | realloc_null hret =>
    cases hans
    exact Ledger.record_live_self _ _ hp
  | @realloc k t p g σ' hk hret =>
    cases hans
    obtain ⟨s, -, hg, -⟩ := hs.spot hk
    have hz : t.1 ≠ 0 := fun hz => by
      obtain ⟨σ₁, hret', -⟩ := hs.realloc_zero hk s hg hz
      exact hp (hret'.unique hret).1.symm
    rw [Ledger.resize_moved hz hp, Ledger.drop_live_of_ne (hs.serves.lt_calls hk).ne',
      Ledger.record_live_self _ _ hp]
  | write => cases hans

/-- A block that moves takes its contents along. -/
private theorem copied (hs : Sound c h) (hk : c.ledger.live k = some g) {s : Spot h.blocks}
    (hal : s.block.alloc = true) (hg : g.ptr = A.start + s.block.off) {t : Target} {p : Nat}
    (hstep : Step c (.realloc (some k) t p) c') (hp : p ≠ 0) :
    ∀ i < min (s.block.size - 8) t.1,
      c'.machine.storage (p - A.start + i) = c.machine.storage (s.block.off + i) := by
  cases hstep with | @realloc _ _ _ g' σ' hk' hret =>
  obtain rfl := Option.some.inj (hk'.symm.trans hk)
  rcases Nat.eq_zero_or_pos t.1 with hz | hpos
  · obtain ⟨σ₁, hret', -⟩ := hs.realloc_zero hk s hg hz
    exact absurd (hret'.unique hret).1.symm hp
  · rcases hs.realloc hk s hal hg hpos t.2 with
      ⟨b, h', s', σ₁, -, hret', -, hmoved⟩ | ⟨hret', -⟩
    · obtain ⟨rfl, rfl⟩ := hret'.unique hret
      rw [Nat.add_sub_cancel_left]
      exact hmoved.contents
    · exact absurd (hret'.unique hret).1.symm hp

end

/-- What holds of every live block, and what every step does. -/
theorem call_contract {c : Client A Statics} (hc : Reachable c) :
    (∀ k g, c.ledger.live k = some g →
      8 ∣ g.ptr ∧ A.start + 16 ≤ g.ptr ∧
        g.ptr + c.machine.blockSize g.ptr ≤ c.machine.memBrk ∧
        (c.machine.blockSize g.ptr = need g.size ∨
          c.machine.blockSize g.ptr = need g.size + 8) ∧
        g.size ≤ c.machine.blockSize g.ptr - 8 ∧
        ∀ k' g', c.ledger.live k' = some g' → k' ≠ k →
          g.ptr + (c.machine.blockSize g.ptr - 8) ≤ g'.ptr ∨
            g'.ptr + (c.machine.blockSize g'.ptr - 8) ≤ g.ptr) ∧
    ∀ ev c', Step c ev c' →
      (∀ p size, ev.answer = some (p, size) → p ≠ 0 →
        c'.ledger.live c.ledger.calls = some ⟨p, size⟩) ∧
      (∀ k g, c.ledger.live k = some g → ¬ ev.Consumes k → c'.ledger.live k = some g ∧
        ∀ i < c.machine.blockSize g.ptr - 8, c'.machine.storage (g.ptr - A.start + i)
          = ev.store k i (c.machine.storage (g.ptr - A.start + i))) ∧
      ∀ k g t p, ev = .realloc (some k) t p → p ≠ 0 → c.ledger.live k = some g →
        ∀ i < min (c.machine.blockSize g.ptr - 8) t.1,
          c'.machine.storage (p - A.start + i) = c.machine.storage (g.ptr - A.start + i) := by
  obtain ⟨h, hs⟩ := hc.sound
  have hsize (s : Spot h.blocks) : c.machine.blockSize (A.start + s.block.off) = s.block.size :=
    blockSize_eq (hs.holds.tagged.header _ s.mem)
  have hbrk := hs.holds.brk
  refine ⟨fun k g hk => ?_, fun ev c' hstep => ⟨fun p size hans hp => ?_,
    fun k g hk hev => ?_, fun k g t p hev hp hk => ?_⟩⟩
  · obtain ⟨s, hal, hg, henough⟩ := hs.spot hk
    have hb := h.shape.bounds s.mem
    have halign := h.shape.aligned s.mem
    have hneed := (need_ok g.size).2
    rw [hg, hsize]
    refine ⟨Nat.dvd_add A.aligned halign, by omega, by omega, henough, by omega,
      fun k' g' hk' hne => ?_⟩
    obtain ⟨s', -, hg', -⟩ := hs.spot hk'
    have hb' := h.shape.bounds s'.mem
    rw [hg', hsize]
    rcases h.shape.apart s.mem s'.mem with e | e | e
    · exact absurd (hs.serves.inj hk' hk (by rw [hg, hg', e])) hne
    · exact .inl (by omega)
    · exact .inr (by omega)
  · exact answered hs hstep hans hp
  · obtain ⟨s, hal, hg, -⟩ := hs.spot hk
    have hkeep := keeps hs hk hal hg hstep hev
    rw [hg, hsize, Nat.add_sub_cancel_left]
    exact hkeep
  · subst hev
    obtain ⟨s, hal, hg, -⟩ := hs.spot hk
    rw [hg, hsize, Nat.add_sub_cancel_left]
    exact copied hs hk hal hg hstep hp

/-- A block of 24 bytes moves to one of 100 bytes. -/
theorem single_contract : widened.ledger.live 1 = some ⟨4144, 100⟩ ∧
    ∀ i < 24, widened.machine.storage (48 + i) = single.machine.storage (16 + i) := by
  have hsize : single.machine.blockSize 4112 = 32 := by decide +kernel
  obtain ⟨-, hsteps⟩ := call_contract single_reachable
  obtain ⟨hanswer, -, hcopy⟩ := hsteps _ _ widened_step
  refine ⟨hanswer 4144 100 rfl (by decide), fun i hi => ?_⟩
  exact hcopy 0 ⟨4112, 24⟩ _ 4144 rfl (by decide) rfl i (by simp only [hsize]; omega)

end CToys.Malloc.Implicit
