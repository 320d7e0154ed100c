import CToys.Malloc.Segregated.Client

/-!
# What clients may rely on

A block that `mm_malloc` returned is aligned, lies in the heap and has the size that the
request needs.  Until it is freed it stays there, apart from all other live blocks, and
its payload holds the bytes that the client wrote last, whatever else is allocated, freed
or written.
-/

namespace CToys.Malloc.Segregated

variable {A : Arena}

/-- Byte `i` of what call `k` returned after an event, if it was `v` before. -/
def Event.store (k i : Nat) (v : UInt8) : Event → UInt8
  | .write k' i' v' => if k' = k ∧ i' = i then v' else v
  | _ => v

/-- Byte `i` of what call `k` returned after some events, if it was `v` before. -/
def stored (k i : Nat) (es : List Event) (v : UInt8) : UInt8 := es.foldl (Event.store k i) v

/-- Call `k` returned the block `b`, and the client holds it. -/
structure Owns (c : Client A Statics) (k size : Nat) (b : Block) (h : Heap) : Prop where
  sound : Sound c h
  live : c.ledger.live k = some ⟨A.start + b.off, size⟩
  mem : b ∈ h.blocks
  alloc : b.alloc = true

namespace Owns

variable {c c' : Client A Statics} {k size : Nat} {b : Block} {h : Heap} {ev : Event}

/-- A step that does not free a block keeps it and all of its bytes but the one that the
client writes. -/
theorem step (ho : Owns c k size b h) (hstep : Step c ev c') (hev : ev ≠ .free k) :
    ∃ h', Owns c' k size b h' ∧ ∀ i < b.size - 8, c'.machine.storage (b.off + i)
      = ev.store k i (c.machine.storage (b.off + i)) := by
  have hs := ho.sound
  have hpayload {i : Nat} (hi : i < b.size - 8) : b.Payload (b.off + i) := ⟨by omega, by omega⟩
  have hk : k ≠ c.ledger.calls := (hs.serves.lt_calls ho.live).ne
  cases hstep with
  | @malloc r p σ' hret =>
    have hlive : (c.ledger.record p r.1).live k = some ⟨A.start + b.off, size⟩ := by
      rw [Ledger.record_live_of_ne hk, ho.live]
    rcases hs.malloc r with ⟨b', h', hm, σ₁, hret', hs', hag⟩ | ⟨-, hret', hs'⟩
    · obtain ⟨rfl, rfl⟩ := hret'.unique hret
      have hmem := ((Heap.malloc_served hm).blocks b ho.alloc).mpr (.inr ho.mem)
      exact ⟨h', ⟨hs', hlive, hmem, ho.alloc⟩, fun i hi =>
        hag _ ⟨b, ho.mem, ho.alloc, hpayload hi⟩⟩
    · obtain ⟨rfl, rfl⟩ := hret'.unique hret
      exact ⟨h, ⟨hs', hlive, ho.mem, ho.alloc⟩, fun i hi => rfl⟩
  | @free k' g σ' hk' hret =>
    have hkk : k ≠ k' := by
      rintro rfl
      exact hev rfl
    obtain ⟨s, hal, hg, -⟩ := hs.spot hk'
    obtain ⟨σ₁, hret', hs', hag⟩ := hs.free hk' s hal hg
    obtain ⟨-, rfl⟩ := hret'.unique hret
    have hne : b ≠ s.block := fun e => hkk (hs.serves.inj ho.live hk' (by rw [hg, e]))
    have hmem : b ∈ (h.release s hal).blocks := (Layout.release_alloc ho.alloc).mpr ⟨ho.mem, hne⟩
    exact ⟨_, ⟨hs', by rw [Ledger.drop_live_of_ne hkk, ho.live], hmem, ho.alloc⟩,
      fun i hi => hag _ ⟨b, hmem, ho.alloc, hpayload hi⟩⟩
  | @write k' i' v g σ' hk' hi' hret =>
    obtain ⟨hret', hs'⟩ := hs.write hk' hi' v
    obtain ⟨-, rfl⟩ := hret'.unique hret
    exact ⟨h, ⟨hs', ho.live, ho.mem, ho.alloc⟩,
      fun i hi => hs.serves.setByte_apply ho.mem ho.live rfl hk' hi' hi v _⟩

/-- So does a run. -/
theorem run {d : Client A Statics} {fs : List Event} (hrun : Run Step c fs d)
    (ho : Owns c k size b h) (hfs : Event.free k ∉ fs) :
    ∃ h', Owns d k size b h' ∧ ∀ i < b.size - 8, d.machine.storage (b.off + i)
      = stored k i fs (c.machine.storage (b.off + i)) := by
  induction hrun generalizing h with
  | nil => exact ⟨h, ho, fun i _ => rfl⟩
  | cons hstep _ ih =>
    obtain ⟨hev, hrest⟩ := not_or.mp (mt List.mem_cons.mpr hfs)
    obtain ⟨h₁, ho₁, hbytes₁⟩ := ho.step hstep fun e => hev e.symm
    obtain ⟨h₂, ho₂, hbytes₂⟩ := ih ho₁ hrest
    refine ⟨h₂, ho₂, fun i hi => ?_⟩
    rw [hbytes₂ i hi, hbytes₁ i hi]
    rfl

end Owns

/-- What `mm_malloc` returns, from the call on until the block is freed. -/
theorem malloc_contract {c c' d : Client A Statics} {r : Request} {p : Nat} {fs : List Event}
    (hc : Reachable c) (hcall : Step c (.malloc r p) c') (hp : p ≠ 0)
    (hrun : Run Step c' fs d) (hfs : Event.free c.ledger.calls ∉ fs) :
    d.ledger.live c.ledger.calls = some ⟨p, r.1⟩ ∧
      8 ∣ p ∧ A.start + 16 ≤ p ∧ p + d.machine.blockSize p ≤ d.machine.memBrk ∧
      (d.machine.blockSize p = need r.1 ∨ d.machine.blockSize p = need r.1 + 8) ∧
      r.1 ≤ d.machine.blockSize p - 8 ∧
      (∀ k g, d.ledger.live k = some g → k ≠ c.ledger.calls →
        p + (d.machine.blockSize p - 8) ≤ g.ptr ∨
          g.ptr + (d.machine.blockSize g.ptr - 8) ≤ p) ∧
      ∀ i < d.machine.blockSize p - 8, d.machine.storage (p - A.start + i)
        = stored c.ledger.calls i fs (c'.machine.storage (p - A.start + i)) := by
  obtain ⟨h, hs⟩ := hc.sound
  cases hcall with | @malloc _ _ σ' hret =>
  rcases hs.malloc r with ⟨b, h', hm, σ₁, hret', hs', -⟩ | ⟨-, hret', -⟩
  swap
  · exact absurd (hret'.unique hret).1.symm hp
  obtain ⟨rfl, rfl⟩ := hret'.unique hret
  have hserved := Heap.malloc_served hm
  have ho : Owns (A := A) ⟨σ₁, c.ledger.record (A.start + b.off) r.1⟩ c.ledger.calls r.1 b h' :=
    ⟨hs', Ledger.record_live_self _ _ hp, hserved.mem, hserved.alloc⟩
  obtain ⟨h'', hd, hbytes⟩ := ho.run hrun hfs
  have hbd := h''.shape.bounds hd.mem
  have halign := h''.shape.aligned hd.mem
  have hneed := (need_ok r.1).2
  have hsize := blockSize_eq (A := A) (hd.sound.holds.tagged.header b hd.mem)
  have hbrk := hd.sound.holds.brk
  have henough := hserved.enough
  rw [hsize, Nat.add_sub_cancel_left]
  refine ⟨hd.live, Nat.dvd_add A.aligned halign, by omega, by omega, henough, by omega,
    fun k g hk hne => ?_, hbytes⟩
  obtain ⟨b', hb', hal', hg, -⟩ := hd.sound.serves.block hk
  have hbd' := h''.shape.bounds hb'
  rw [hg, blockSize_eq (A := A) (hd.sound.holds.tagged.header b' hb')]
  rcases h''.shape.apart hd.mem hb' with e | e | e
  · exact absurd (hd.sound.serves.inj hk hd.live (by rw [hg, ← e])) hne
  · exact .inl (by omega)
  · exact .inr (by omega)

/-- The first of two blocks, after the second one was given out. -/
theorem paired_contract : paired.ledger.live 0 = some ⟨4112, 24⟩ ∧
    4112 + paired.machine.blockSize 4112 ≤ paired.machine.memBrk ∧
    ∀ i < paired.machine.blockSize 4112 - 8, paired.machine.storage (16 + i)
      = (mallocAt booted .small 4112).machine.storage (16 + i) := by
  have hfirst : result (mmMalloc 24) booted.machine = some 4112 := by decide +kernel
  have hsecond : result (mmMalloc 24) (mallocAt booted .small 4112).machine
      = some 4144 := by decide +kernel
  obtain ⟨hlive, -, -, hle, -, -, -, hbytes⟩ := malloc_contract booted_started.reachable
    (step_mallocAt (r := .small) hfirst) (by decide)
    (.single (step_mallocAt (r := .small) hsecond)) (by simp)
  exact ⟨hlive, hle, hbytes⟩

end CToys.Malloc.Segregated
