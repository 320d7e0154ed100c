import CToys.Malloc.Driver.Sound
import CToys.Malloc.Driver.Tracked

/-!
# The verdict on the allocators

On a legal trace `eval_mm_valid` prints nothing and returns 1, or prints one error and returns
0, and a replay on heaps says which (`validOps_checks`).  A request fails when `mm_malloc` finds
no room.  A reallocation also fails when the low byte of its index is 128 or more: the payload
is filled with that byte, but it is read back as a `char`, which is signed, and compared to the
byte as an `int`.  If there is no memory for the range of a block, the driver ends before it
can tell (`Starved`).

`Holding` is what every evaluation of a trace keeps: the machine holds the heap of the replay,
and the driver has the pointers to the live blocks.  `Validating` adds what the checks rest on.
-/

namespace CToys.Malloc.Driver

variable {A : Arena} {ρ : Type} {P : Package A ρ} {I : Interface P} {d d' : State A ρ}
  {s s' : Play I} {live : Live} {tr : Trace} {op : TraceOp} {ops : List TraceOp}
  {supply : Supply}

/-! ## Replays with the checks -/

/-- A request that is checked. -/
def Play.check (s : Play I) (op : TraceOp) : Except Complaint (Play I) :=
  match s.apply op with
  | none => .error (if op.kind = .alloc then .mallocFailed else .reallocFailed)
  | some s' => if op.kind = .realloc ∧ 128 ≤ op.index % 256 then .error .notPreserved else .ok s'

/-- Several of them, up to the first error. -/
def Play.checks (tracenum : Nat) : (i : Nat) → Play I → List TraceOp → Except Report (Play I)
  | _, s, [] => .ok s
  | i, s, op :: ops =>
      match s.check op with
      | .error c => .error ⟨tracenum, i + 5, c⟩
      | .ok s' => s'.checks tracenum (i + 1) ops

/-- No block with a high index is reallocated. -/
def LowReallocs (ops : List TraceOp) : Prop :=
  ∀ op ∈ ops, op.kind = .realloc → op.index % 256 < 128

instance (ops : List TraceOp) : Decidable (LowReallocs ops) :=
  inferInstanceAs (Decidable (∀ op ∈ ops, op.kind = .realloc → op.index % 256 < 128))

theorem Play.check_eq_ok_iff : s.check op = .ok s' ↔
    s.apply op = some s' ∧ (op.kind = .realloc → op.index % 256 < 128) := by
  unfold Play.check
  cases happly : s.apply op with
  | none => simp
  | some s₁ =>
    by_cases hbad : op.kind = .realloc ∧ 128 ≤ op.index % 256
    · simp only [if_pos hbad, reduceCtorEq, false_iff, not_and]
      intro _ hlow
      have := hlow hbad.1
      omega
    · have hlow : op.kind = .realloc → op.index % 256 < 128 := fun hk => by
        have := not_and.mp hbad hk
        omega
      simp only [if_neg hbad, Except.ok.injEq, Option.some.injEq]
      exact (and_iff_left hlow).symm

/-- The checks find nothing when there is room and no block with a high index is moved. -/
theorem Play.checks_eq_ok_iff {tracenum i : Nat} : s.checks tracenum i ops = .ok s' ↔
    s.replay ops = some s' ∧ LowReallocs ops := by
  induction ops generalizing s i with
  | nil => simp [Play.checks, Play.replay, LowReallocs]
  | cons op ops ih =>
    have hlow : LowReallocs (op :: ops) ↔
        (op.kind = .realloc → op.index % 256 < 128) ∧ LowReallocs ops := List.forall_mem_cons
    rw [Play.checks, Play.replay, Option.bind_eq_some_iff, hlow]
    cases hcheck : s.check op with
    | error c =>
      simp only [reduceCtorEq, false_iff]
      rintro ⟨⟨s₁, happly, -⟩, hop, -⟩
      rw [Play.check_eq_ok_iff.mpr ⟨happly, hop⟩] at hcheck
      cases hcheck
    | ok s₁ =>
      obtain ⟨happly, hop⟩ := Play.check_eq_ok_iff.mp hcheck
      simp only [ih, happly, Option.some.injEq, exists_eq_left', and_iff_right hop]

/-! ## What every evaluation keeps -/

/-- The machine and `trace->blocks` follow the replay. -/
structure Holding (tr : Trace) (d : State A ρ) (s : Play I) (live : Live) : Prop extends
    Tracked d.machine d.blocks s live where
  bounded : ∀ i ∈ live, i < capacity tr.numIds 4

/-- What the checks rest on. -/
structure Validating (tr : Trace) (d : State A ρ) (s : Play I) (live : Live) : Prop extends
    Holding tr d s live, Checked d live where
  filled : ∀ e ∈ live.entries, ∀ j < e.2,
    d.machine.storage ((s.place e.1).off + j) = UInt8.ofNat e.1

/-- The payload of a block that was handed out may be filled. -/
theorem Handed.fill {n : Nat} {σ σ₁ : Machine A ρ} {b : Block} {h' : I.Heap}
    (hb : Handed s live n σ b h' σ₁) (hplaced : Placed s live) (v : UInt8) :
    Handed s live n σ b h' (σ₁.withStorage (fill σ₁.storage b.off n v)) := by
  have hroom := hb.offered.room
  refine ⟨hb.offered, I.of_payload hb.holds fun a ha => ?_, fun e he j hj => ?_⟩
  · have hnot := ha b hb.offered.mem hb.offered.alloc
    have hout : ¬ (b.off ≤ a ∧ a < b.off + n) := by
      unfold Block.Payload at hnot
      omega
    simp [Malloc.fill, hout]
  · have hsize := (hplaced.size e he).2
    have hapart := hb.offered.apart e he
    have hout : ¬ (b.off ≤ (s.place e.1).off + j ∧ (s.place e.1).off + j < b.off + n) := by omega
    refine Eq.trans ?_ (hb.spared e he j hj)
    simp [Malloc.fill, hout]

/-- A new block passes `add_range`. -/
theorem Interface.accepts {h : I.Heap} (hr : I.Holds d.machine h) {b : Block}
    (hb : b ∈ (I.layout h).blocks) {size : Int} (hsized : 0 < size ∧ size ≤ intMax)
    (hsize : size.toNat + 8 ≤ b.size)
    (hapart : ∀ r ∈ d.ranges, ∃ c : Block, (c.off + c.size ≤ b.off ∨ b.off + b.size ≤ c.off) ∧
      A.start + c.off ≤ r.lo ∧ r.lo ≤ r.hi ∧ r.hi < A.start + c.off + c.size) :
    Accepts d (A.start + b.off) size := by
  have hA := A.pos
  have hfits := A.fits
  have hmax := maxHeap_eq
  have halA := A.aligned
  have hbd := (I.layout h).shape.bounds hb
  have hal := (I.layout h).shape.aligned hb
  have hbrk := I.brk hr
  have hlast : lastByte (A.start + b.off) size = A.start + b.off + size.toNat - 1 := by
    unfold lastByte sizeT
    omega
  have hsub : sub32 d.machine.memBrk 1 = d.machine.memBrk - 1 := by
    unfold sub32
    omega
  refine ⟨hsized.1, by omega, by omega, by omega, fun r hrange => meets_eq_false_iff.mpr ?_⟩
  obtain ⟨c, hc, hlo, hle, hhi⟩ := hapart r hrange
  omega

/-- The range of a live payload lies in its block. -/
theorem Validating.extent (h : Validating tr d s live) {e : (_ : Nat) × Nat}
    (he : e ∈ live.entries) : A.start + (s.place e.1).off ≤ (d.extent e).lo ∧
      (d.extent e).lo ≤ (d.extent e).hi ∧
      (d.extent e).hi < A.start + (s.place e.1).off + (s.place e.1).size := by
  have hsize := h.placed.size e he
  have hblock := h.blocks e he
  simp only [State.extent]
  omega

/-! ## A new block -/

/-- The live payloads are as filled as before. -/
theorem Validating.spared (h : Validating tr d s live) {live' : Live} {σ₁ : Machine A ρ}
    (hsub : ∀ e ∈ live'.entries, e ∈ live.entries) (hspared : Spared s live' d.machine σ₁) :
    ∀ e ∈ live'.entries, ∀ j < e.2, σ₁.storage ((s.place e.1).off + j) = UInt8.ofNat e.1 :=
  fun e he j hj => (hspared e he j hj).trans (h.filled e (hsub e he) j hj)

/-- The payload of a new block is filled, and the others stay filled. -/
theorem Handed.filled {index n : Nat} {σ σ₁ : Machine A ρ} {b : Block} {h' : I.Heap}
    (hb : Handed s live n σ b h' σ₁) (hplaced : Placed s live) (hi : index ∉ live)
    (hfilled : ∀ e ∈ live.entries, ∀ j < e.2,
      σ.storage ((s.place e.1).off + j) = UInt8.ofNat e.1) :
    ∀ e ∈ (live.insert index n).entries, ∀ j < e.2, Malloc.fill σ₁.storage b.off n
      (UInt8.ofNat index) (((s.put index b h').place e.1).off + j) = UInt8.ofNat e.1 := by
  rw [AList.entries_insert_of_notMem hi]
  refine List.forall_mem_cons.mpr ⟨fun j hj => ?_, fun e he j hj => ?_⟩
  · have hj : j < n := hj
    have hin : b.off ≤ b.off + j ∧ b.off + j < b.off + n := ⟨by omega, by omega⟩
    rw [Play.put_place_self]
    simp [Malloc.fill, hin]
  · rw [(put_place_of_mem s b h' hi he).2]
    exact ((hb.fill hplaced _).spared e he j hj).trans (hfilled e he j hj)

/-! ## One request -/

theorem mallocError_returns {tracenum i : Nat} {c : Complaint} :
    Returns (mallocError tracenum i c) d ()
      { d with errors := d.errors ++ [⟨tracenum, i + 5, c⟩] } := rfl

/-- What the loop of `eval_mm_valid` makes of a request. -/
def Answers (tr : Trace) (tracenum i : Nat) (d : State A ρ) (live : Live) (ok : Bool)
    (d' : State A ρ) : Except Complaint (Play I) → Prop
  | .ok s' => ok = true ∧ Validating tr d' s' live ∧ d'.errors = d.errors
  | .error c => ok = false ∧ d'.errors = d.errors ++ [⟨tracenum, i + 5, c⟩]

/-- There is no memory for the range of a request from number `i` up to number `j`.  The driver
ends, and has printed no error since. -/
def Starved (supply : Supply) (i j : Nat) (d : State A ρ) (status : Nat) (d' : State A ρ) : Prop :=
  status = 1 ∧ d'.errors = d.errors ∧ ∃ k, i ≤ k ∧ k < j ∧ supply k rangeSize = false

/-- Where there is memory for every range, the driver does not end. -/
theorem not_starved {i j status : Nat} (hs : ∀ k, supply k rangeSize = true) :
    ¬ Starved supply i j d status d' := by
  rintro ⟨-, -, k, -, -, hk⟩
  exact absurd (hk.symm.trans (hs k)) Bool.false_ne_true

/-- The range of a request that is not added. -/
theorem addRange_starves {lo tracenum i : Nat} {size : Int} (hs : supply i rangeSize = false)
    (hok : Accepts d lo size) {d₀ : State A ρ} (hd : d.errors = d₀.errors) :
    Ends (addRange supply lo size tracenum i) d (Starved supply i (i + 1) d₀) :=
  (addRange_exits hs hok).ends ⟨rfl, hd, i, le_rfl, Nat.lt_succ_self i, hs⟩

theorem validOp_alloc (hP : P.Grows) (h : Validating tr d s live) {index : Nat} {size : Int}
    (hop : TraceOp.Legal tr.numIds live ⟨.alloc, index, size⟩) {tracenum i : Nat} :
    Settles (validOp P supply tr tracenum i ⟨.alloc, index, size⟩) d
      (fun ok d' => Answers tr tracenum i d (live.next ⟨.alloc, index, size⟩) ok d'
        (s.check ⟨.alloc, index, size⟩)) (Starved supply i (i + 1) d) := by
  have hA := A.pos
  have hi : index ∉ live := hop.1
  have hsized : 0 < size ∧ size ≤ intMax := hop.2.2
  obtain ⟨hsizeT, hpos⟩ := sizeT_of_sized hsized
  rcases h.malloc hpos (Int.toNat_le.mpr hsized.2) with ⟨hm, hret⟩ | ⟨b, h', σ₁, hm, hret, hb⟩
  · have hcheck : s.check ⟨.alloc, index, size⟩ = .error .mallocFailed := by
      simp [Play.check, Play.apply, hm]
    rw [← hsizeT] at hret
    rw [hcheck]
    refine (call_returns hret).settles ?_
    rw [if_pos rfl]
    exact mallocError_returns.settles (.pure ⟨rfl, rfl⟩)
  · have hcheck : s.check ⟨.alloc, index, size⟩ = .ok (s.put index b h') := by
      simp [Play.check, Play.apply, hm]
    rw [← hsizeT] at hret
    rw [hcheck]
    have hroom := hb.offered.room
    have hbd := (I.layout h').shape.bounds hb.offered.mem
    have hok : Accepts { d with machine := σ₁ } (A.start + b.off) size := by
      refine Interface.accepts hb.holds hb.offered.mem hsized hroom fun r hr => ?_
      rw [h.ranges] at hr
      obtain ⟨e, he, rfl⟩ := List.mem_map.mp hr
      exact ⟨s.place e.1, hb.offered.apart e he, h.extent he⟩
    cases hs : supply i rangeSize with
    | false =>
      refine (call_returns hret).settles ?_
      rw [if_neg (by omega)]
      exact .inr (addRange_starves hs hok rfl).bind
    | true =>
      have hset : Returns (memset (A.start + b.off) (UInt8.ofNat index) (sizeT size)) σ₁ ()
          (σ₁.withStorage (fill σ₁.storage b.off size.toNat (UInt8.ofNat index))) := by
        rw [hsizeT]
        exact memset_returns hpos (by omega)
      have hpass : Returns (validOp P supply tr tracenum i ⟨.alloc, index, size⟩) d true _ :=
        validOp_alloc_iff.mpr ⟨hs, _, σ₁, _, hret, by omega, hok, hset, hop.2.1, rfl⟩
      obtain ⟨hchecked, herrors⟩ := h.toChecked.step hP hop hpass
      rw [hsizeT] at hpass hchecked
      refine .inl (hpass.ensures ⟨rfl, ⟨⟨?_, (hop.bounded h.bounded).2⟩, hchecked, ?_⟩, rfl⟩)
      · exact h.give hi hpos (hb.fill h.placed _)
      · exact hb.filled h.placed hi h.filled

theorem validOp_free (hP : P.Grows) (h : Validating tr d s live) {index : Nat} {size : Int}
    (hop : TraceOp.Legal tr.numIds live ⟨.free, index, size⟩) {tracenum i : Nat} :
    Ensures (validOp P supply tr tracenum i ⟨.free, index, size⟩) d fun ok d' =>
      Answers tr tracenum i d (live.next ⟨.free, index, size⟩) ok d'
        (s.check ⟨.free, index, size⟩) := by
  have hi : index ∈ live := hop
  obtain ⟨σ₁, hret, htracked, hspared⟩ := h.free hi
  have hpass : Returns (validOp P supply tr tracenum i ⟨.free, index, size⟩) d true _ :=
    validOp_free_iff.mpr ⟨σ₁, h.bounded _ hi, hret, rfl⟩
  obtain ⟨hchecked, -⟩ := h.toChecked.step hP hop hpass
  exact hpass.ensures ⟨rfl, ⟨⟨htracked, (hop.bounded h.bounded).2⟩, hchecked,
    h.spared (fun e he => (Placed.mem_erase he).1) hspared⟩, rfl⟩

/-! ## Reallocations -/

/-- The comparison succeeds when the byte is a `char`. -/
theorem preserved_returns {σ : Machine A ρ} {o index left j : Nat}
    (hbytes : ∀ k < left, σ.storage (o + (j + k)) = UInt8.ofNat index)
    (hle : o + (j + left) ≤ maxHeap) :
    Returns (preserved (A.start + o) (index % 256) left j) σ
      (decide (left = 0 ∨ index % 256 < 128)) σ := by
  induction left generalizing j with
  | zero => exact .pure _ _
  | succ left ih =>
    have hin : A.InStorage (A.start + o + j) 1 := ⟨by omega, by omega⟩
    have hbyte : σ.storage (A.start + o + j - A.start) = UInt8.ofNat index := by
      rw [Nat.add_assoc, Nat.add_sub_cancel_left]
      exact hbytes 0 (by omega)
    have hval : (UInt8.ofNat index).toNat = index % 256 := by simp
    have hload : Returns (loadChar (A.start + o + j)) σ
        (if index % 256 < 128 then ((index % 256 : Nat) : Int)
          else ((index % 256 : Nat) : Int) - 256) σ := by
      simp only [Returns, loadChar, if_pos hin, hbyte, hval]
    unfold preserved
    refine hload.bind ?_
    by_cases hlow : index % 256 < 128
    · have hrest := ih (j := j + 1) (fun k hk => by
        have := hbytes (k + 1) (by omega)
        rwa [show j + (k + 1) = j + 1 + k by omega] at this) (by omega)
      rw [if_pos hlow, if_neg (by simp)]
      simpa [hlow] using hrest
    · have hne : ((index % 256 : Nat) : Int) - 256 ≠ ((index % 256 : Nat) : Int) := by omega
      rw [if_neg hlow, if_pos hne]
      simpa [hlow] using Returns.pure false σ

/-- The bytes that are compared: at least one, and all of them were filled. -/
theorem Validating.keptBytes (h : Validating tr d s live) {index n : Nat} {size : Int}
    (hn : ⟨index, n⟩ ∈ live.entries) (hsize : 0 < size) :
    Driver.keptBytes d index size = min n size.toNat ∧ 0 < min n size.toNat := by
  have hmax := maxHeap_eq
  have hsizes : d.blockSizes index = n := h.sizes _ hn
  have hpos : 0 < n ∧ n + 8 ≤ (s.place index).size := h.placed.size _ hn
  have hbd := (I.layout s.heap).shape.bounds (h.placed.mem _ hn)
  simp only at hbd
  have hint : toInt32 n = n := by rw [toInt32, if_pos (by omega)]
  unfold Driver.keptBytes
  rw [hsizes, hint]
  split <;> omega

section

variable {index : Nat} {size : Int} {tracenum i : Nat} {b : Block} {h' : I.Heap}
  {σ₁ : Machine A ρ}

/-- What `mm_realloc` did before its answer is checked. -/
structure Renewed (d : State A ρ) (s : Play I) (live : Live) (index : Nat) (size : Int)
    (b : Block) (h' : I.Heap) (σ₁ : Machine A ρ) : Prop where
  realloc : I.realloc s.heap (s.place index) size.toNat = some (b, h')
  returns : Returns (P.mmRealloc (d.blocks index) (sizeT size)) d.machine (A.start + b.off) σ₁
  handed : Handed s (live.erase index) size.toNat d.machine b h' σ₁
  contents : ∀ n, ⟨index, n⟩ ∈ live.entries → ∀ k < min n size.toNat,
    σ₁.storage (b.off + k) = d.machine.storage ((s.place index).off + k)

/-- The call is refused, or there is a block. -/
theorem Holding.realloc_cases (h : Holding tr d s live)
    (hop : TraceOp.Legal tr.numIds live ⟨.realloc, index, size⟩)
    (hsane : s.Sane ⟨.realloc, index, size⟩) :
    (I.realloc s.heap (s.place index) size.toNat = none ∧
      Returns (P.mmRealloc (d.blocks index) (sizeT size)) d.machine 0 d.machine) ∨
    ∃ b h' σ₁, Renewed d s live index size b h' σ₁ := by
  have hsized : 0 < size ∧ size ≤ intMax := hop.2
  obtain ⟨hsizeT, hpos⟩ := sizeT_of_sized hsized
  obtain ⟨n, hn⟩ := Placed.entry hop.1
  have hcases := h.realloc hn hpos (Int.toNat_le.mpr hsized.2) (hsane rfl)
  rw [← hsizeT] at hcases
  rcases hcases with hrefused | ⟨b, h', σ₁, hm, hret, hb, hcontents⟩
  · rw [hsizeT] at hrefused
    exact .inl (hsizeT ▸ hrefused)
  · refine .inr ⟨b, h', σ₁, hsizeT ▸ hm, hret, hsizeT ▸ hb, fun n' hn' => ?_⟩
    obtain rfl : n = n' := Option.some.inj
      ((Live.mem_entries.mp hn).symm.trans (Live.mem_entries.mp hn'))
    exact hsizeT ▸ hcontents

/-- The new block passes `add_range`. -/
theorem Renewed.accepts (hnew : Renewed d s live index size b h' σ₁) (h : Validating tr d s live)
    (hop : TraceOp.Legal tr.numIds live ⟨.realloc, index, size⟩) :
    Accepts (d.moved index σ₁) (A.start + b.off) size := by
  have hb := hnew.handed.offered
  refine Interface.accepts (d := d.moved index σ₁) hnew.handed.holds hb.mem hop.2 hb.room ?_
  intro r hr
  rw [State.moved, (h.toChecked.erase hop.1).ranges] at hr
  obtain ⟨e, he, rfl⟩ := List.mem_map.mp hr
  exact ⟨s.place e.1, hb.apart e he, h.extent (Placed.mem_erase he).1⟩

/-- What is compared was copied, and had been filled before. -/
theorem Renewed.compared (hnew : Renewed d s live index size b h' σ₁)
    (h : Validating tr d s live)
    (hop : TraceOp.Legal tr.numIds live ⟨.realloc, index, size⟩) :
    Returns (preserved (A.start + b.off) (index % 256) (Driver.keptBytes d index size) 0) σ₁
      (decide (index % 256 < 128)) σ₁ := by
  have hsized : 0 < size ∧ size ≤ intMax := hop.2
  obtain ⟨n, hn⟩ := Placed.entry hop.1
  obtain ⟨hkept, hpos⟩ := h.keptBytes hn hsized.1
  have hroom := hnew.handed.offered.room
  have hbd := (I.layout h').shape.bounds hnew.handed.offered.mem
  have hbytes : ∀ k < min n size.toNat, σ₁.storage (b.off + (0 + k)) = UInt8.ofNat index := by
    intro k hk
    rw [Nat.zero_add, hnew.contents n hn k hk]
    exact h.filled _ hn k (by simp only; omega)
  have hcompare := preserved_returns (A := A) hbytes (by omega)
  rw [← hkept] at hcompare hpos
  simpa only [hpos.ne', false_or] using hcompare

/-- A reallocation that passes. -/
theorem Renewed.passes (hnew : Renewed d s live index size b h' σ₁) (hP : P.Grows)
    (h : Validating tr d s live) (hs : supply i rangeSize = true)
    (hop : TraceOp.Legal tr.numIds live ⟨.realloc, index, size⟩) (hlow : index % 256 < 128) :
    Ensures (validOp P supply tr tracenum i ⟨.realloc, index, size⟩) d fun ok d' => ok = true ∧
      Validating tr d' (s.put index b h') (live.next ⟨.realloc, index, size⟩) ∧
        d'.errors = d.errors := by
  have hA := A.pos
  have hnot : index ∉ live.erase index := by simp
  have hsized : 0 < size ∧ size ≤ intMax := hop.2
  obtain ⟨hsizeT, hpos⟩ := sizeT_of_sized hsized
  have hroom := hnew.handed.offered.room
  have hbd := (I.layout h').shape.bounds hnew.handed.offered.mem
  have hcompare := hnew.compared h hop
  rw [decide_eq_true hlow] at hcompare
  have hset : Returns (memset (A.start + b.off) (UInt8.ofNat index) (sizeT size)) σ₁ ()
      (σ₁.withStorage (fill σ₁.storage b.off size.toNat (UInt8.ofNat index))) := by
    rw [hsizeT]
    exact memset_returns hpos (by omega)
  have hpass : Returns (validOp P supply tr tracenum i ⟨.realloc, index, size⟩) d true _ :=
    validOp_realloc_iff.mpr ⟨hs, _, σ₁, _, h.bounded _ hop.1, hnew.returns, by omega,
      hnew.accepts h hop, hcompare, hset, rfl⟩
  obtain ⟨hchecked, -⟩ := h.toChecked.step hP hop hpass
  have herased := h.toHolding.toTracked.erase (i := index)
  have hgiven := herased.give hnot hpos (hnew.handed.fill herased.placed (UInt8.ofNat index))
  have hfill := hnew.handed.filled herased.placed hnot
    fun e he => h.filled e (Placed.mem_erase he).1
  rw [Live.insert_erase] at hgiven hfill
  exact hpass.ensures ⟨rfl, ⟨⟨hgiven, (hop.bounded h.bounded).2⟩, hchecked, hfill⟩, rfl⟩

/-- One that does not: the byte is read back as a negative number. -/
theorem Renewed.complains (hnew : Renewed d s live index size b h' σ₁)
    (h : Validating tr d s live) (hs : supply i rangeSize = true)
    (hop : TraceOp.Legal tr.numIds live ⟨.realloc, index, size⟩) (hhigh : ¬ index % 256 < 128) :
    Ensures (validOp P supply tr tracenum i ⟨.realloc, index, size⟩) d fun ok d' => ok = false ∧
      d'.errors = d.errors ++ [⟨tracenum, i + 5, .notPreserved⟩] := by
  have hA := A.pos
  have hcap := h.bounded _ hop.1
  have hcompare := hnew.compared h hop
  rw [decide_eq_false hhigh] at hcompare
  refine Returns.step (getBlock_returns_iff.mpr ⟨hcap, rfl, rfl⟩) ?_
  refine (call_returns hnew.returns).step ?_
  rw [if_neg (by omega)]
  refine Returns.step ((removeRange_returns_iff (u := ())).mpr rfl) ?_
  refine Returns.step (addRange_returns_iff.mpr ⟨hs, hnew.accepts h hop, rfl⟩) ?_
  refine Returns.step (getBlockSize_returns_iff.mpr ⟨hcap, rfl, rfl⟩) ?_
  refine Returns.step (call_returns hcompare) ?_
  exact mallocError_returns.step (.pure ⟨rfl, rfl⟩)

/-- One for whose range there is no memory. -/
theorem Renewed.starves (hnew : Renewed d s live index size b h' σ₁)
    (h : Validating tr d s live) (hs : supply i rangeSize = false)
    (hop : TraceOp.Legal tr.numIds live ⟨.realloc, index, size⟩) :
    Ends (validOp P supply tr tracenum i ⟨.realloc, index, size⟩) d
      (Starved supply i (i + 1) d) := by
  have hA := A.pos
  have hcap := h.bounded _ hop.1
  refine Returns.ends (getBlock_returns_iff.mpr ⟨hcap, rfl, rfl⟩) ?_
  refine (call_returns hnew.returns).ends ?_
  rw [if_neg (by omega)]
  refine Returns.ends ((removeRange_returns_iff (u := ())).mpr rfl) ?_
  exact (addRange_starves hs (hnew.accepts h hop) rfl).bind

theorem validOp_realloc (hP : P.Grows) (h : Validating tr d s live)
    (hop : TraceOp.Legal tr.numIds live ⟨.realloc, index, size⟩)
    (hsane : s.Sane ⟨.realloc, index, size⟩) :
    Settles (validOp P supply tr tracenum i ⟨.realloc, index, size⟩) d
      (fun ok d' => Answers tr tracenum i d (live.next ⟨.realloc, index, size⟩) ok d'
        (s.check ⟨.realloc, index, size⟩)) (Starved supply i (i + 1) d) := by
  have hcap := h.bounded _ hop.1
  rcases h.toHolding.realloc_cases hop hsane with ⟨hm, hret⟩ | ⟨b, h', σ₁, hnew⟩
  · have hcheck : s.check ⟨.realloc, index, size⟩ = .error .reallocFailed := by
      simp [Play.check, Play.apply, hm]
    rw [hcheck]
    refine Returns.settles (getBlock_returns_iff.mpr ⟨hcap, rfl, rfl⟩) ?_
    refine (call_returns hret).settles ?_
    rw [if_pos rfl]
    exact mallocError_returns.settles (.pure ⟨rfl, rfl⟩)
  · have happly : s.apply ⟨.realloc, index, size⟩ = some (s.put index b h') := by
      simp [Play.apply, hnew.realloc]
    cases hs : supply i rangeSize with
    | false => exact .inr (hnew.starves h hs hop)
    | true =>
      by_cases hlow : index % 256 < 128
      · have hcheck : s.check ⟨.realloc, index, size⟩ = .ok (s.put index b h') :=
          Play.check_eq_ok_iff.mpr ⟨happly, fun _ => hlow⟩
        rw [hcheck]
        exact .inl (hnew.passes hP h hs hop hlow)
      · have hcheck : s.check ⟨.realloc, index, size⟩ = .error .notPreserved := by
          simp [Play.check, happly, Nat.not_lt.mp hlow]
        rw [hcheck]
        exact .inl (hnew.complains h hs hop hlow)

end

/-! ## The whole trace -/

section

variable {tracenum i : Nat}

theorem validOp_checks (hP : P.Grows) (h : Validating tr d s live)
    (hop : op.Legal tr.numIds live) (hsane : s.Sane op) :
    Settles (validOp P supply tr tracenum i op) d
      (fun ok d' => Answers tr tracenum i d (live.next op) ok d' (s.check op))
      (Starved supply i (i + 1) d) := by
  obtain ⟨kind, index, size⟩ := op
  cases kind with
  | alloc => exact validOp_alloc hP h hop
  | free => exact .inl (validOp_free hP h hop)
  | realloc => exact validOp_realloc hP h hop hsane

/-- What the loop of `eval_mm_valid` makes of a trace. -/
def Concludes (tr : Trace) (d : State A ρ) (live : Live) (ok : Bool) (d' : State A ρ) :
    Except Report (Play I) → Prop
  | .ok s' => ok = true ∧ Validating tr d' s' live ∧ d'.errors = d.errors
  | .error r => ok = false ∧ d'.errors = d.errors ++ [r]

theorem validOps_checks (hP : P.Grows) (h : Validating tr d s live)
    (hops : Legal tr.numIds live ops) (hsane : s.Unbroken ops) :
    Settles (validOps P supply tr tracenum i ops) d
      (fun ok d' => Concludes tr d (live.after ops) ok d' (s.checks tracenum i ops))
      (Starved supply i (i + ops.length) d) := by
  induction ops generalizing d s live i with
  | nil => exact .pure ⟨rfl, h, rfl⟩
  | cons op ops ih =>
    obtain ⟨hop, hops⟩ := hops
    have hfirst : Settles (validOp P supply tr tracenum i op) d _ _ :=
      validOp_checks hP h hop hsane.1
    refine (hfirst.mono (fun _ _ h => h) ?_).bind fun ok d₁ hanswer => ?_
    · rintro status d' ⟨hstatus, herrors, k, hle, hlt, hk⟩
      exact ⟨hstatus, herrors, k, hle, by rw [List.length_cons]; omega, hk⟩
    rw [Play.checks]
    cases hcheck : s.check op with
    | error c =>
      rw [hcheck] at hanswer
      obtain ⟨rfl, herrors⟩ := hanswer
      exact .pure ⟨rfl, herrors⟩
    | ok s₁ =>
      rw [hcheck] at hanswer
      obtain ⟨rfl, h₁, herrors⟩ := hanswer
      have happly := (Play.check_eq_ok_iff.mp hcheck).1
      have hrest := ih (i := i + 1) h₁ hops (hsane.tail happly)
      refine hrest.mono (fun ok d' hconcl => ?_) ?_
      swap
      · rintro status d' ⟨hstatus, herrors', k, hle, hlt, hk⟩
        refine ⟨hstatus, herrors'.trans herrors, k, by omega, ?_, hk⟩
        rw [List.length_cons]
        omega
      simp only
      cases hchecks : s₁.checks tracenum (i + 1) ops with
      | error r =>
        rw [hchecks] at hconcl
        exact ⟨hconcl.1, by rw [hconcl.2, herrors]⟩
      | ok s' =>
        rw [hchecks] at hconcl
        exact ⟨hconcl.1, hconcl.2.1, hconcl.2.2.trans herrors⟩

/-- After `mm_init` no block is live. -/
theorem Validating.start {σ₀ : Machine A ρ} (hholds : I.Holds σ₀ I.initial) :
    Validating tr (d.fresh σ₀) (Play.initial I) ∅ := by
  have hbrk := I.brk hholds
  have hle := (I.layout I.initial).shape.le
  refine ⟨⟨.start hholds, by simp⟩, .empty ?_ rfl, by simp⟩
  change A.start ≤ σ₀.memBrk ∧ σ₀.memBrk ≤ A.start + maxHeap
  omega

theorem evalMmValid_checks (hP : P.Grows) (htr : tr.Legal)
    (hsane : (Play.initial I).Unbroken tr.ops) (tracenum : Nat) :
    Settles (evalMmValid P supply tr tracenum) d
      (fun ok d' => Concludes tr d tr.live ok d' ((Play.initial I).checks tracenum 0 tr.ops))
      (Starved supply 0 tr.ops.length d) := by
  have hreset : Returns (call memResetBrk) d () { d with machine := d.machine.withBrk A.start } :=
    call_returns (a := ()) rfl
  have hclear : Returns clearRanges { d with machine := d.machine.withBrk A.start } ()
      { d with machine := d.machine.withBrk A.start, ranges := [] } := rfl
  obtain ⟨r, σ₀, hinit, rfl, hholds⟩ := I.mmInit_ensures (σ := d.machine.withBrk A.start) rfl
  refine hreset.settles (hclear.settles ?_)
  refine Returns.settles (call_returns hinit) ?_
  have hops : Settles (validOps P supply tr tracenum 0 tr.ops) (d.fresh σ₀) _ _ :=
    validOps_checks hP (.start hholds) htr hsane
  rwa [Nat.zero_add] at hops

end

/-! ## The two allocators -/

/-- The errors that `eval_mm_valid` prints. -/
def reports (I : Interface P) (tracenum : Nat) (ops : List TraceOp) : List Report :=
  match (Play.initial I).checks tracenum 0 ops with
  | .ok _ => []
  | .error r => [r]

/-- The errors are found by a replay. -/
theorem reports_eq_nil_iff {tracenum : Nat} : reports I tracenum ops = [] ↔
    ((Play.initial I).replay ops).isSome ∧ LowReallocs ops := by
  rw [Option.isSome_iff_exists, reports]
  cases hchecks : (Play.initial I).checks tracenum 0 ops with
  | error r =>
    simp only [List.cons_ne_nil, false_iff]
    rintro ⟨⟨s, hreplay⟩, hlow⟩
    rw [Play.checks_eq_ok_iff.mpr ⟨hreplay, hlow⟩] at hchecks
    cases hchecks
  | ok s =>
    obtain ⟨hreplay, hlow⟩ := Play.checks_eq_ok_iff.mp hchecks
    simp only [true_iff]
    exact ⟨⟨s, hreplay⟩, hlow⟩

theorem Concludes.verdict {tracenum : Nat} {ok : Bool} (h : Concludes tr d tr.live ok d'
    ((Play.initial I).checks tracenum 0 tr.ops)) :
    ok = decide (reports I tracenum tr.ops = []) ∧
      d'.errors = d.errors ++ reports I tracenum tr.ops := by
  unfold reports
  cases hchecks : (Play.initial I).checks tracenum 0 tr.ops with
  | error r =>
    rw [hchecks] at h
    simp [h.1, h.2]
  | ok s =>
    rw [hchecks] at h
    simp [h.1, h.2.2]

/-- A trace that moves a block with index 128. -/
def highMove : Trace := ⟨0, 129, 1, [⟨.alloc, 128, 1⟩, ⟨.realloc, 128, 1⟩]⟩

/-- A trace that moves a block, and stretches it. -/
def resizing : Trace := ⟨0, 2, 1,
  [⟨.alloc, 0, 24⟩, ⟨.alloc, 1, 40⟩, ⟨.realloc, 0, 100⟩, ⟨.free, 1, 0⟩, ⟨.realloc, 0, 200⟩]⟩

/-- No reallocation of the implicit allocator goes wrong. -/
theorem implicit_unbroken {s : Play (implicitInterface A)} : s.Unbroken ops :=
  Play.unbroken_of_sane fun _ _ _ _ => rfl

theorem evalMmValid_reports (hP : P.Grows) (htr : tr.Legal)
    (hsane : (Play.initial I).Unbroken tr.ops) (supply : Supply) (tracenum : Nat) :
    Settles (evalMmValid P supply tr tracenum) d
      (fun ok d' => ok = decide (reports I tracenum tr.ops = []) ∧
        d'.errors = d.errors ++ reports I tracenum tr.ops)
      (Starved supply 0 tr.ops.length d) ∧
    (reports I tracenum tr.ops = [] ↔
      ((Play.initial I).replay tr.ops).isSome ∧ LowReallocs tr.ops) :=
  ⟨(evalMmValid_checks hP htr hsane tracenum).mono (fun _ _ h => h.verdict) fun _ _ h => h,
    reports_eq_nil_iff⟩

/-- On a legal trace of the implicit allocator `eval_mm_valid` prints the errors of the replay,
and it returns 1 if and only if the replay succeeds and no block with a high index is
reallocated.  It ends with status 1 only if there is no memory for the range of a request. -/
theorem implicit_verdict {d : State A Implicit.Statics} (htr : tr.Legal) (supply : Supply)
    (tracenum : Nat) :
    Settles (evalMmValid (implicitPackage A) supply tr tracenum) d
      (fun ok d' => ok = decide (reports (implicitInterface A) tracenum tr.ops = []) ∧
        d'.errors = d.errors ++ reports (implicitInterface A) tracenum tr.ops)
      (Starved supply 0 tr.ops.length d) ∧
    (reports (implicitInterface A) tracenum tr.ops = [] ↔
      ((Play.initial (implicitInterface A)).replay tr.ops).isSome ∧ LowReallocs tr.ops) :=
  evalMmValid_reports implicit_grows htr implicit_unbroken supply tracenum

/-- The second line of requests is the one with the error. -/
theorem highMove_verdict : ∃ d', Returns (evalMmValid (implicitPackage .low) plenty highMove 0)
    (blank ⟨0, 0⟩) false d' ∧ d'.errors = [⟨0, 6, .notPreserved⟩] := by
  have hreports : reports (implicitInterface .low) 0 highMove.ops = [⟨0, 6, .notPreserved⟩] := by
    decide +kernel
  have hlegal : highMove.Legal := by decide +kernel
  obtain ⟨ok, d', hret, rfl, herrors⟩ :=
    (implicit_verdict (d := blank ⟨0, 0⟩) hlegal plenty 0).1.ensures
      fun _ _ => not_starved fun _ => rfl
  rw [hreports] at hret herrors
  exact ⟨d', hret, herrors⟩

example : reports (implicitInterface .low) 0 moving.ops = [] := by decide +kernel

/-- The same for the segregated allocator, on traces whose reallocations do not go wrong. -/
theorem segregated_verdict {d : State A Segregated.Statics} (htr : tr.Legal)
    (hsane : (Play.initial (segregatedInterface A)).Unbroken tr.ops) (supply : Supply)
    (tracenum : Nat) :
    Settles (evalMmValid (segregatedPackage A) supply tr tracenum) d
      (fun ok d' => ok = decide (reports (segregatedInterface A) tracenum tr.ops = []) ∧
        d'.errors = d.errors ++ reports (segregatedInterface A) tracenum tr.ops)
      (Starved supply 0 tr.ops.length d) ∧
    (reports (segregatedInterface A) tracenum tr.ops = [] ↔
      ((Play.initial (segregatedInterface A)).replay tr.ops).isSome ∧ LowReallocs tr.ops) :=
  evalMmValid_reports segregated_grows htr hsane supply tracenum

theorem resizing_verdict : ∃ d', Returns (evalMmValid (segregatedPackage .low) plenty resizing 3)
    (blank ⟨0, fun _ => 0⟩) true d' ∧ d'.errors = [] := by
  have hreports : reports (segregatedInterface .low) 3 resizing.ops = [] := by decide +kernel
  have hlegal : resizing.Legal := by decide +kernel
  obtain ⟨ok, d', hret, rfl, herrors⟩ := (segregated_verdict (d := blank ⟨0, fun _ => 0⟩) hlegal
    (by decide +kernel) plenty 3).1.ensures fun _ _ => not_starved fun _ => rfl
  rw [hreports] at hret herrors
  exact ⟨d', hret, herrors⟩

theorem evalMmValid_of_cost (hP : P.Grows) (htr : tr.Legal)
    (hsane : (Play.initial I).Unbroken tr.ops) (hlow : LowReallocs tr.ops)
    (hcost : 16 + chunksize + cost tr.ops ≤ maxHeap) (supply : Supply) (tracenum : Nat) :
    Settles (evalMmValid P supply tr tracenum) d (fun ok d' => ok = true ∧ d'.errors = d.errors)
      (Starved supply 0 tr.ops.length d) := by
  have hbrk : (Play.initial I).brk = 16 + chunksize := I.initial_brk
  obtain ⟨s, hreplay, -⟩ := Placed.empty.replay_of_cost htr hsane (by rwa [hbrk])
  refine (evalMmValid_checks hP htr hsane tracenum).mono (fun ok d' hconcl => ?_) fun _ _ h => h
  rw [Play.checks_eq_ok_iff.mpr ⟨hreplay, hlow⟩] at hconcl
  exact ⟨hconcl.1, hconcl.2.2⟩

/-- A legal trace passes when the break after `mm_init` and what its requests may add fit, as
long as there is memory for the ranges. -/
theorem passes_of_cost (htr : tr.Legal) (hlow : LowReallocs tr.ops)
    (hcost : 16 + chunksize + cost tr.ops ≤ maxHeap) (supply : Supply) (tracenum : Nat) :
    (∀ d : State A Implicit.Statics, Settles (evalMmValid (implicitPackage A) supply tr tracenum) d
      (fun ok d' => ok = true ∧ d'.errors = d.errors) (Starved supply 0 tr.ops.length d)) ∧
    ((Play.initial (segregatedInterface A)).Unbroken tr.ops → ∀ d : State A Segregated.Statics,
      Settles (evalMmValid (segregatedPackage A) supply tr tracenum) d
        (fun ok d' => ok = true ∧ d'.errors = d.errors) (Starved supply 0 tr.ops.length d)) :=
  ⟨fun _ => evalMmValid_of_cost implicit_grows htr implicit_unbroken hlow hcost supply tracenum,
    fun hsane _ => evalMmValid_of_cost segregated_grows htr hsane hlow hcost supply tracenum⟩

theorem resizing_passes : ∃ d', Returns (evalMmValid (segregatedPackage .low) plenty resizing 0)
    (blank ⟨0, fun _ => 0⟩) true d' ∧ d'.errors = [] := by
  have hlegal : resizing.Legal := by decide +kernel
  obtain ⟨ok, d', hret, rfl, herrors⟩ := ((passes_of_cost hlegal (by decide) (by decide) plenty 0).2
    (by decide +kernel) (blank ⟨0, fun _ => 0⟩)).ensures fun _ _ => not_starved fun _ => rfl
  exact ⟨d', hret, herrors⟩

end CToys.Malloc.Driver
