import CToys.Stdio.Getline

/-!
# One call of `my_getline`

A call on a buffer whose size `*n` tells ends in one of three ways (`Outcome`).  It delivers
the next line with its newline, or meets the end of the stream and returns -1, or is refused
memory and returns -1.

The loop keeps the size of the buffer above the number of bytes read, so that the
terminating zero byte fits too.  It asks for memory when the number of bytes has reached the
size, so it never asks for more than twice the bytes there are.
-/

namespace CToys.Stdio

/-! ## Buffers -/

namespace Buffer

variable (b : Buffer) (c : UInt8) {i k : Nat}

theorem take_succ : b.take (k + 1) = b.take k ++ [b.bytes k] := by
  rw [take, List.range_succ, List.map_append]
  rfl

theorem take_length : (b.take k).length = k := by
  rw [take, List.length_map, List.length_range]

/-- A store does not change the bytes before. -/
theorem take_set (h : k ≤ i) : (b.set i c).take k = b.take k := by
  refine List.map_congr_left fun j hj => Function.update_of_ne ?_ ..
  have := List.mem_range.mp hj
  omega

theorem take_set_self : (b.set i c).take (i + 1) = b.take i ++ [c] := by
  rw [take_succ, take_set b c (Nat.le_refl i)]
  simp [set]

/-- `realloc` keeps the bytes. -/
theorem take_resized (al : Allocator) {j size : Nat} (h : k ≤ b.size) :
    (b.resized al j size).take k = b.take k := by
  refine List.map_congr_left fun i hi => if_pos ?_
  have := List.mem_range.mp hi
  omega

end Buffer

/-! ## The loop -/

/-- `*lineptr` is the buffer `b` and `*n` is its size. -/
structure Holds (s : State) (b : Buffer) : Prop where
  lineptr : s.lineptr = some b
  size : b.size = s.n
  limit : s.n < 2 ^ 63

/-- The ways in which a call ends that has the first `count` bytes of a line in the buffer
`b`. -/
inductive Outcome (al : Allocator) (s : State) (b : Buffer) (count : Nat) : Int → State → Prop
  /-- The rest of the line is read. -/
  | line {v rest : List UInt8} {b' : Buffer} {s' : State} :
      s.stream = v ++ newline :: rest → newline ∉ v → s'.stream = rest → Holds s' b' →
      count + v.length + 1 < b'.size →
      b'.take (count + v.length + 1) = b.take count ++ v ++ [newline] →
      b'.bytes (count + v.length + 1) = 0 → s'.errno = s.errno →
      Outcome al s b count (count + v.length + 1 : Nat) s'
  /-- The stream ends. -/
  | eof {b' : Buffer} {s' : State} :
      newline ∉ s.stream → s'.stream = [] → Holds s' b' → s'.errno = s.errno →
      Outcome al s b count (-1) s'
  /-- There is no memory. -/
  | refused {k size : Nat} {s' : State} :
      al.grants k size = false → size ≤ max mallocSize (2 * (count + s.stream.length)) →
      s'.errno = some .enomem → Outcome al s b count (-1) s'

/-- `malloc` gives a buffer or is refused. -/
theorem mallocLine_cases (al : Allocator) (s : State) :
    (∃ b s', Returns (mallocLine al) s true s' ∧ Holds s' b ∧ s'.n = s.n ∧
      s'.allocs = s.allocs + 1 ∧ s'.stream = s.stream ∧ s'.errno = s.errno ∧
      al.grants s.allocs s.n = true) ∨
    ∃ s', Returns (mallocLine al) s false s' ∧ al.grants s.allocs s.n = false ∧
      s'.lineptr = none := by
  cases hgrant : al.grants s.allocs s.n with
  | true =>
    let fresh : Buffer := ⟨s.n, al.fill s.allocs⟩
    have hret : Returns (mallocLine al) s true
        { s with allocs := s.allocs + 1, lineptr := some fresh } := by
      unfold Returns mallocLine
      simp only [fresh, hgrant, if_true]
    exact .inl ⟨fresh, _, hret, ⟨rfl, rfl, al.limit _ _ hgrant⟩, rfl, rfl, rfl, rfl, rfl⟩
  | false =>
    have hret : Returns (mallocLine al) s false
        { s with allocs := s.allocs + 1, lineptr := none } := by
      unfold Returns mallocLine
      simp only [hgrant, Bool.false_eq_true, if_false]
    exact .inr ⟨_, hret, rfl, rfl⟩

/-- `realloc` gives a buffer with the bytes of the old one or is refused. -/
theorem reallocLine_cases (al : Allocator) {s : State} {b : Buffer} (hptr : s.lineptr = some b) :
    (∃ s', Returns (reallocLine al) s true s' ∧ Holds s' (b.resized al s.allocs s.n) ∧
      s'.n = s.n ∧ s'.allocs = s.allocs + 1 ∧ s'.stream = s.stream ∧ s'.errno = s.errno ∧
      al.grants s.allocs s.n = true) ∨
    ∃ s', Returns (reallocLine al) s false s' ∧ al.grants s.allocs s.n = false ∧
      s'.lineptr = some b ∧ s'.n = s.n := by
  cases hgrant : al.grants s.allocs s.n with
  | true =>
    have hret : Returns (reallocLine al) s true { s with
        allocs := s.allocs + 1, lineptr := some (b.resized al s.allocs s.n) } := by
      unfold Returns reallocLine
      simp only [hgrant, hptr, if_true, Option.getD_some]
    exact .inl ⟨_, hret, ⟨rfl, rfl, al.limit _ _ hgrant⟩, rfl, rfl, rfl, rfl, rfl⟩
  | false =>
    have hret : Returns (reallocLine al) s false { s with allocs := s.allocs + 1 } := by
      unfold Returns reallocLine
      simp only [hgrant, Bool.false_eq_true, if_false]
    exact .inr ⟨_, hret, rfl, hptr, rfl⟩

/-- Room was made for `count` bytes and a zero byte: the buffer is large enough, or it was
doubled. -/
inductive Grows (al : Allocator) (s s' : State) (count : Nat) : Prop
  | stays : count < s.n → s'.n = s.n → s'.allocs = s.allocs → Grows al s s' count
  | doubles : s.n = count → s'.n = 2 * s.n → s'.allocs = s.allocs + 1 →
      al.grants s.allocs (2 * s.n) = true → Grows al s s' count

/-- There is no memory to double the buffer.  It is the old one, and `*n` is the size that was
asked for. -/
structure Refused (al : Allocator) (s s' : State) (b : Buffer) (count : Nat) : Prop where
  full : s.n = count
  grants : al.grants s.allocs (2 * s.n) = false
  lineptr : s'.lineptr = some b
  size : s'.n = 2 * s.n
  errno : s'.errno = some .enomem

theorem Grows.lt {al : Allocator} {s s' : State} {count : Nat} (h : Grows al s s' count)
    (hpos : 0 < count) : count < s'.n := by
  cases h with
  | stays hroom hn _ => rwa [hn]
  | doubles hfull hn _ _ => omega

/-- `makeRoom` leaves room for the byte and a zero byte, or is refused. -/
theorem makeRoom_cases (al : Allocator) {s : State} {b : Buffer} {count : Nat} (hb : Holds s b)
    (hcount : count < s.n) :
    (∃ s' b', Returns (makeRoom al (count + 1) count) s (some count) s' ∧ Holds s' b' ∧
      b'.take count = b.take count ∧ s'.stream = s.stream ∧ s'.errno = s.errno ∧
      Grows al s s' (count + 1)) ∨
    ∃ s', Returns (makeRoom al (count + 1) count) s none s' ∧ Refused al s s' b (count + 1) := by
  have hlimit := hb.limit
  have hsize := hb.size
  have hsub : sub64 s.n 1 = s.n - 1 := sub64_of_le (by omega) (by omega)
  have hget : Returns (get : Process State State) s s s := rfl
  by_cases hroom : count + 1 > s.n - 1
  · have hfull : s.n = count + 1 := by omega
    have hmul : mul64 s.n 2 = 2 * s.n := by
      rw [mul64_of_lt (by omega), Nat.mul_comm]
    let asked : State := { s with n := 2 * s.n }
    have hset : Returns (setN (2 * s.n)) s () asked := rfl
    rcases reallocLine_cases al (s := asked) hb.lineptr with
      ⟨s', hrealloc, hb', hn, hallocs, hstream, herrno, hgrant⟩ |
        ⟨s', hrealloc, hgrant, hptr, hn⟩
    · refine .inl ⟨s', _, ?_, hb', b.take_resized al (by omega), hstream, herrno,
        .doubles hfull hn hallocs hgrant⟩
      unfold makeRoom
      refine hget.bind ?_
      rw [hsub, if_pos hroom, hmul]
      refine hset.bind (hrealloc.bind ?_)
      rw [if_pos rfl, Nat.add_sub_cancel]
      exact .pure _ _
    · let failed : State := { s' with errno := some .enomem }
      have hfailed : Returns (setErrno .enomem) s' () failed := rfl
      refine .inr ⟨failed, ?_, hfull, hgrant, hptr, hn, rfl⟩
      unfold makeRoom
      refine hget.bind ?_
      rw [hsub, if_pos hroom, hmul]
      refine hset.bind (hrealloc.bind ?_)
      rw [if_neg (by decide)]
      exact hfailed.bind (.pure _ _)
  · refine .inl ⟨s, b, ?_, hb, rfl, rfl, rfl, .stays (by omega) rfl rfl⟩
    unfold makeRoom
    refine hget.bind ?_
    rw [hsub, if_neg hroom]
    exact .pure _ _

theorem ssize_of_lt {count : Nat} (h : count < 2 ^ 63) : ssize count = count := by
  unfold ssize
  rw [Int.bmod_def]
  omega

/-- A store inside the buffer. -/
theorem storeLine_returns {s : State} {b : Buffer} (hb : Holds s b) {i : Nat} (hi : i < s.n)
    (c : UInt8) : Returns (storeLine i c) s () { s with lineptr := some (b.set i c) } := by
  have hsize := hb.size
  unfold Returns storeLine
  simp only [hb.lineptr]
  exact if_pos (by omega)

theorem Holds.set {s : State} {b : Buffer} (hb : Holds s b) (i : Nat) (c : UInt8) :
    Holds { s with lineptr := some (b.set i c) } (b.set i c) :=
  ⟨rfl, hb.size, hb.limit⟩

/-- The outcome with one more byte in the buffer is one with that byte in the stream. -/
theorem Outcome.cons {al : Allocator} {s s₁ s' : State} {b b₁ : Buffer} {count : Nat} {c : UInt8}
    {stream : List UInt8} {r : Int} (hs : s.stream = c :: stream) (hs₁ : s₁.stream = stream)
    (hc : c ≠ newline) (herrno : s₁.errno = s.errno)
    (htake : b₁.take (count + 1) = b.take count ++ [c])
    (h : Outcome al s₁ b₁ (count + 1) r s') : Outcome al s b count r s' := by
  cases h with
  | @line v rest b' s' hsplit hv hrest hb' hsize hbytes hzero he =>
    have hlen : count + 1 + v.length + 1 = count + (c :: v).length + 1 := by
      rw [List.length_cons]
      omega
    rw [hlen] at hsize hbytes hzero ⊢
    refine .line (v := c :: v) ?_ ?_ hrest hb' hsize ?_ hzero (he.trans herrno)
    · rw [hs, ← hs₁, hsplit, List.cons_append]
    · exact List.not_mem_cons_of_ne_of_not_mem hc.symm hv
    · rw [hbytes, htake]
      simp
  | @eof b' s' hline hend hb' he =>
    refine .eof ?_ hend hb' (he.trans herrno)
    rw [hs]
    exact List.not_mem_cons_of_ne_of_not_mem hc.symm (hs₁ ▸ hline)
  | @refused k size s' hgrant hsize he =>
    refine .refused hgrant ?_ he
    rw [hs, List.length_cons]
    rw [hs₁] at hsize
    omega

/-- The outcome depends on the stream and on `errno` only. -/
theorem Outcome.congr {al : Allocator} {s s₁ s' : State} {b : Buffer} {count : Nat} {r : Int}
    (h : Outcome al s₁ b count r s') (hstream : s₁.stream = s.stream)
    (herrno : s₁.errno = s.errno) : Outcome al s b count r s' := by
  cases h with
  | line hsplit hv hrest hb' hsize hbytes hzero he =>
    exact .line (hstream ▸ hsplit) hv hrest hb' hsize hbytes hzero (he.trans herrno)
  | eof hline hend hb' he => exact .eof (hstream ▸ hline) hend hb' (he.trans herrno)
  | refused hgrant hsize he => exact .refused hgrant (hstream ▸ hsize) he

/-- At the end of the stream the loop ends. -/
theorem readLoop_nil {al : Allocator} {left count : Nat} {s : State} (hstream : s.stream = []) :
    Returns (readLoop al (left + 1) count count) s (-1) s := by
  have hread : Returns getByte s none s := by
    unfold Returns getByte
    rw [hstream]
  rw [readLoop]
  exact hread.bind (.pure _ _)

/-- The end of the loop: the terminating zero byte. -/
def terminate (count : Nat) : Process State Int := do
  storeLine count 0
  return ssize count

/-- A round reads one byte into the buffer, or is refused memory. -/
theorem readLoop_cons (al : Allocator) (left : Nat) {count : Nat} {s : State} {b : Buffer}
    {c : UInt8} {stream : List UInt8} (hstream : s.stream = c :: stream) (hb : Holds s b)
    (hcount : count < s.n) :
    (∃ s₁ b₁, readLoop al (left + 1) count count s =
        (if c = newline then terminate (count + 1)
          else readLoop al left (count + 1) (count + 1)) s₁ ∧
      Holds s₁ b₁ ∧ b₁.take (count + 1) = b.take count ++ [c] ∧ s₁.stream = stream ∧
      s₁.errno = s.errno ∧ Grows al s s₁ (count + 1)) ∨
    ∃ s₁, Returns (readLoop al (left + 1) count count) s (-1) s₁ ∧
      Refused al s s₁ b (count + 1) := by
  have hlimit := hb.limit
  have hread : Returns getByte s (some c) { s with stream := stream } := by
    unfold Returns getByte
    rw [hstream]
  have hadd : add64 count 1 = count + 1 := add64_of_lt (by omega)
  have hb₀ : Holds { s with stream := stream } b := ⟨hb.lineptr, hb.size, hb.limit⟩
  rw [readLoop]
  rcases makeRoom_cases al hb₀ hcount with
    ⟨s₁, b₁, hroom, hb₁, htake, hs₁, he₁, hgrows⟩ | ⟨s₁, hroom, hrefused⟩
  · have hlt : count + 1 < s₁.n := hgrows.lt (Nat.succ_pos _)
    let s₂ : State := { s₁ with lineptr := some (b₁.set count c) }
    refine .inl ⟨s₂, _, ?_, hb₁.set count c, ?_, hs₁, he₁, ?_⟩
    · refine hread.bind_apply.trans ?_
      rw [hadd]
      exact hroom.bind_apply.trans (storeLine_returns hb₁ (by omega) c).bind_apply
    · rw [Buffer.take_set_self, htake]
    · cases hgrows with
      | stays hroom hn hallocs => exact .stays hroom hn hallocs
      | doubles hfull hn hallocs hgrant => exact .doubles hfull hn hallocs hgrant
  · refine .inr ⟨s₁, ?_, hrefused.full, hrefused.grants, hrefused.lineptr, hrefused.size,
      hrefused.errno⟩
    refine hread.bind ?_
    rw [hadd]
    exact hroom.bind (.pure _ _)

/-- The zero byte fits behind the bytes read. -/
theorem terminate_returns {s : State} {b : Buffer} {count : Nat} (hb : Holds s b)
    (hcount : count < s.n) :
    Returns (terminate count) s count { s with lineptr := some (b.set count 0) } := by
  have hlimit := hb.limit
  refine (storeLine_returns hb hcount 0).bind ?_
  rw [ssize_of_lt (by omega)]
  exact .pure _ _

/-- The loop ends in one of the three ways. -/
theorem readLoop_ensures {al : Allocator} {left : Nat} : ∀ {s : State} {b : Buffer} {count : Nat},
    s.stream.length < left → Holds s b → count < s.n →
    Ensures (readLoop al left count count) s (Outcome al s b count) := by
  induction left with
  | zero =>
    intro s b count hleft
    omega
  | succ left ih =>
    intro s b count hleft hb hcount
    cases hstream : s.stream with
    | nil => exact (readLoop_nil hstream).ensures (.eof (by simp [hstream]) hstream hb rfl)
    | cons c stream =>
      rcases readLoop_cons al left hstream hb hcount with
        ⟨s₁, b₁, heq, hb₁, htake, hs₁, he₁, hgrows⟩ | ⟨s₁, hret, hrefused⟩
      swap
      · have hfull := hrefused.full
        refine hret.ensures (.refused hrefused.grants ?_ hrefused.errno)
        rw [hstream, List.length_cons]
        omega
      have hlt := hgrows.lt (Nat.succ_pos _)
      refine .of_apply heq ?_
      by_cases hc : c = newline
      · -- the line is complete
        subst hc
        rw [if_pos rfl]
        refine (terminate_returns hb₁ hlt).ensures ?_
        refine .line (v := []) hstream List.not_mem_nil hs₁ (hb₁.set (count + 1) 0) ?_ ?_ ?_ he₁
        · have hsame := hb₁.size
          simp only [Buffer.set, List.length_nil]
          omega
        · rw [List.append_nil, ← htake]
          exact Buffer.take_set _ _ (Nat.le_refl _)
        · exact Function.update_self ..
      · rw [if_neg hc]
        refine (ih ?_ hb₁ hlt).mono fun r s' h => h.cons hstream hs₁ hc he₁ htake
        rw [hstream, List.length_cons] at hleft
        rw [hs₁]
        omega

/-! ## A call -/

/-- The state between two calls: there is no buffer yet, or one whose size `*n` tells. -/
def Usable (s : State) : Prop := s.lineptr = none ∨ ∃ b, Holds s b ∧ 0 < s.n

/-- A call ends in one of the three ways. -/
theorem myGetline_ensures (al : Allocator) {s : State} (hs : Usable s) :
    Ensures (myGetline al .all) s fun r s' => ∃ b, Outcome al s b 0 r s' := by
  have hget : Returns (get : Process State State) s s s := rfl
  unfold myGetline
  rw [if_neg (by decide)]
  refine hget.step ?_
  rcases hs with hnone | ⟨b, hb, hpos⟩
  · rw [if_pos (by simp [hnone])]
    let asked : State := { s with n := mallocSize }
    have hset : Returns (setN mallocSize) s () asked := rfl
    refine hset.step ?_
    rcases mallocLine_cases al asked with
      ⟨b, s', hmalloc, hb, hn, -, hstream, herrno, -⟩ | ⟨s', hmalloc, hgrant, -⟩
    · refine hmalloc.step ?_
      rw [if_pos rfl]
      have hpos : 0 < mallocSize := by decide
      have hget' : Returns (get : Process State State) s' s' s' := rfl
      refine hget'.step ?_
      refine (readLoop_ensures (Nat.lt_succ_self _) hb (hn ▸ hpos)).mono fun r s'' h => ?_
      exact ⟨b, h.congr hstream herrno⟩
    · have hfailed : Returns (setErrno .enomem) s' () { s' with errno := some .enomem } := rfl
      refine hmalloc.step ?_
      rw [if_neg (by decide)]
      refine hfailed.step (.pure ⟨⟨0, fun _ => 0⟩, ?_⟩)
      exact .refused hgrant (Nat.le_max_left ..) rfl
  · rw [if_neg (by simp [hb.lineptr])]
    refine hget.step ((readLoop_ensures (Nat.lt_succ_self _) hb hpos).mono ?_)
    exact fun r s' h => ⟨b, h⟩

end CToys.Stdio
