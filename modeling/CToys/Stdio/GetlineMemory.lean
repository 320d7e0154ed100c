import CToys.Stdio.GetlineSize

/-!
# Buffers of the caller, and memory that runs out

A caller may pass a buffer of its own with its size in `*n`.  `my_getline` compares the number
of bytes with `*n - 1`, so a size of 0 wraps and the first byte is stored outside the buffer
(`inBounds_iff`).

It assigns `*n` before it knows whether `realloc` succeeds.  After a refusal `*n` is twice the
size of the buffer, and a later call trusts it (`staysConsistent_iff`).
-/

namespace CToys.Stdio

variable {al : Allocator} {s s' : State}

/-! ## Buffers of the caller -/

/-- What the manual allows: `*lineptr` is `NULL` or a buffer of `*n` bytes. -/
def Allowed (s : State) : Prop := s.lineptr = none ∨ ∃ b, Holds s b

/-- A call stores nothing outside the buffer, and `*n` is the size of the buffer if it
succeeds. -/
def InBounds (al : Allocator) (s : State) : Prop :=
  ¬ Fails (myGetline al .all) s .bounds ∧
    ∀ r s', Returns (myGetline al .all) s r s' → 0 ≤ r → ∃ b, s'.lineptr = some b ∧ b.size = s'.n

/-- The loop on an existing buffer. -/
theorem myGetline_apply {b : Buffer} (hptr : s.lineptr = some b) :
    myGetline al .all s = readLoop al (s.stream.length + 1) 0 0 s := by
  have hget : Returns (get : Process State State) s s s := rfl
  unfold myGetline
  rw [if_neg (by decide), hget.bind_apply, if_neg (by simp [hptr])]
  exact hget.bind_apply

/-- With a buffer of 0 bytes the first byte is stored outside. -/
theorem myGetline_fails {b : Buffer} (hptr : s.lineptr = some b) (hsize : b.size = 0)
    (hn : s.n = 0) (hstream : s.stream ≠ []) : Fails (myGetline al .all) s .bounds := by
  obtain ⟨c, stream, hcons⟩ := List.exists_cons_of_ne_nil hstream
  have hread : Returns getByte s (some c) { s with stream := stream } := by
    unfold Returns getByte
    rw [hcons]
  have hget : Returns (get : Process State State) { s with stream := stream }
      { s with stream := stream } { s with stream := stream } := rfl
  have hroom : Returns (makeRoom al 1 0) { s with stream := stream } (some 0)
      { s with stream := stream } := by
    unfold makeRoom
    refine hget.bind ?_
    -- `0 - 1` is the largest `size_t`
    have hwrap : ¬ 1 > sub64 s.n 1 := by
      rw [hn, sub64]
      omega
    rw [if_neg hwrap]
    exact .pure _ _
  have hstore : Fails (storeLine 0 c) { s with stream := stream } .bounds := by
    unfold Fails storeLine
    simp only [hptr, hsize, Nat.lt_irrefl, if_false]
  have hadd : add64 0 1 = 1 := add64_of_lt (by omega)
  unfold Fails
  rw [myGetline_apply hptr, readLoop]
  refine hread.bind_fails ?_
  rw [hadd]
  exact hroom.bind_fails hstore.bind

/-- A call is in bounds exactly if `*lineptr` is `NULL`, the buffer has at least one byte, or
there is nothing to read. -/
theorem inBounds_iff (al : Allocator) (hs : Allowed s) :
    InBounds al s ↔ s.lineptr = none ∨ 1 ≤ s.n ∨ s.stream = [] := by
  constructor
  · rintro ⟨hnot, -⟩
    by_contra hcon
    obtain ⟨hptr, hn, hstream⟩ : s.lineptr ≠ none ∧ ¬ 1 ≤ s.n ∧ s.stream ≠ [] := by
      simpa only [not_or] using hcon
    obtain ⟨b, hb⟩ := hs.resolve_left hptr
    have hsize := hb.size
    exact hnot (myGetline_fails hb.lineptr (by omega) (by omega) hstream)
  · intro hcond
    have husable : Usable s ∨ s.stream = [] ∧ s.lineptr ≠ none := by
      rcases hs with hnone | ⟨b, hb⟩
      · exact .inl (.inl hnone)
      · rcases hcond with hnone | hpos | hnil
        · exact .inl (.inl hnone)
        · exact .inl (.inr ⟨b, hb, hpos⟩)
        · exact .inr ⟨hnil, by simp [hb.lineptr]⟩
    rcases husable with hu | ⟨hnil, hptr⟩
    · obtain ⟨r, s₁, hret, hend⟩ := myGetline_ending al hu
      refine ⟨hret.not_fails, fun r' s₂ hret' hr => ?_⟩
      obtain ⟨rfl, rfl⟩ := hret.unique hret'
      rcases hend with ⟨-, -, rfl, -⟩ | ⟨-, hend⟩
      · exact absurd hr (by decide)
      · obtain ⟨b, -, hb, -⟩ := hend.full_of_nonneg hr
        exact ⟨b, hb.lineptr, hb.size⟩
    · obtain ⟨b, hb⟩ := Option.ne_none_iff_exists'.mp hptr
      have hret : Returns (myGetline al .all) s (-1) s := by
        unfold Returns
        rw [myGetline_apply hb]
        exact readLoop_nil hnil
      refine ⟨hret.not_fails, fun r' s₂ hret' hr => ?_⟩
      obtain ⟨rfl, -⟩ := hret.unique hret'
      exact absurd hr (by decide)

/-- A program that passes a buffer of `n` bytes of its own. -/
def supplied (n : Nat) (stream : List UInt8) : State :=
  { opened stream with lineptr := some ⟨n, fun _ => 0⟩, n := n }

theorem supplied_holds {n : Nat} (hn : n < 2 ^ 63) (stream : List UInt8) :
    Holds (supplied n stream) ⟨n, fun _ => 0⟩ :=
  ⟨rfl, rfl, hn⟩

theorem inBounds_one : InBounds .generous (supplied 1 [newline]) :=
  (inBounds_iff .generous (.inr ⟨_, supplied_holds (by decide) [newline]⟩)).mpr
    (.inr (.inl (Nat.le_refl 1)))

/-- An empty line in a buffer of 0 bytes. -/
theorem not_inBounds_zero : Allowed (supplied 0 [newline]) ∧
    ¬ InBounds .generous (supplied 0 [newline]) := by
  refine ⟨.inr ⟨_, supplied_holds (by decide) [newline]⟩, fun hin => hin.1 ?_⟩
  exact myGetline_fails (b := ⟨0, fun _ => 0⟩) rfl rfl rfl (List.cons_ne_nil _ _)

/-! ## Memory that runs out -/

/-- `*lineptr` is `NULL` or a buffer whose size `*n` tells. -/
def Consistent (s : State) : Prop := s.lineptr = none ∨ ∃ b, s.lineptr = some b ∧ b.size = s.n

/-- A call that returns. -/
def Call (al : Allocator) (s : State) (r : Int) (s' : State) : Prop :=
  Returns (myGetline al .all) s r s'

/-- After any number of calls size and buffer agree, and the next call stores nothing outside
the buffer. -/
def StaysConsistent (al : Allocator) (s : State) : Prop :=
  ∀ rs s', Run (Call al) s rs s' → Consistent s' ∧ ¬ Fails (myGetline al .all) s' .bounds

/-- If a call gets a buffer, the allocator grants each doubling up to a size that is larger than
the number of bytes the call reads. -/
def ReallocsGranted (al : Allocator) (s : State) : Prop :=
  (s.lineptr = none → al.grants s.allocs mallocSize = true) →
    ∀ j, startSize s * 2 ^ j ≤ lineLength s.stream →
      al.grants (startAllocs s + j) (startSize s * 2 ^ (j + 1)) = true

theorem Usable.consistent (hs : Usable s) : Consistent s := by
  rcases hs with hnone | ⟨b, hb, -⟩
  · exact .inl hnone
  · exact .inr ⟨b, hb.lineptr, hb.size⟩

theorem Usable.startSize_pos (hs : Usable s) : 0 < startSize s := by
  rcases hs with hnone | ⟨b, hb, hpos⟩
  · simp only [startSize, hnone, Option.isNone_none, if_true]
    decide
  · simpa [startSize, hb.lineptr] using hpos

/-- A buffer that is large enough was granted all doublings. -/
theorem Sized.grants {n a len j : Nat} (h : Sized al n a len j s) {i : Nat}
    (hi : n * 2 ^ i ≤ len) : al.grants (a + i) (n * 2 ^ (i + 1)) = true := by
  refine h.granted i (Nat.lt_of_not_le fun hji => ?_)
  have hpow : 2 ^ j ≤ 2 ^ i := Nat.pow_le_pow_right (by decide) hji
  have hmul := Nat.mul_le_mul_left n hpow
  have := h.least.exceeds
  omega

/-- A call leaves a buffer that can be used again, or it is refused a doubling and leaves one
that cannot. -/
theorem Usable.call (al : Allocator) (hs : Usable s) :
    ∃ r s', Call al s r s' ∧
      (ReallocsGranted al s ∧ Usable s' ∨ ¬ ReallocsGranted al s ∧ ¬ Consistent s') := by
  obtain ⟨r, s', hret, hend⟩ := myGetline_ending al hs
  refine ⟨r, s', hret, ?_⟩
  rcases hend with ⟨hnone, hrefused, -, hptr⟩ | ⟨hgrant, hend⟩
  · refine .inl ⟨fun hgrant => ?_, .inl hptr⟩
    rw [hgrant hnone] at hrefused
    cases hrefused
  · cases hend with
    | @full _ _ b j hb hsized _ =>
      have hexceeds := hsized.least.exceeds
      rw [← hsized.size] at hexceeds
      exact .inl ⟨fun _ i hi => hsized.grants hi, .inr ⟨b, hb, by omega⟩⟩
    | @refused _ b j hle hrefused hptr hsize hn =>
      refine .inr ⟨fun hgranted => ?_, fun hcons => ?_⟩
      · rw [hgranted hgrant j hle] at hrefused
        cases hrefused
      · rcases hcons with hnone | ⟨b', hptr', hsize'⟩
        · rw [hptr] at hnone
          cases hnone
        · obtain rfl : b = b' := Option.some.inj (hptr.symm.trans hptr')
          have hpos := Nat.mul_pos hs.startSize_pos (Nat.two_pow_pos j)
          rw [hsize, hn, ← two_mul_two_pow] at hsize'
          omega

/-- The calls of a run leave usable buffers if they are granted all doublings. -/
theorem usable_of_granted {rs : List Int} (hs : Usable s)
    (hgranted : ∀ rs s', Run (Call al) s rs s' → Usable s' → ReallocsGranted al s')
    (hrun : Run (Call al) s rs s') : Usable s' := by
  induction hrun with
  | nil => exact hs
  | @cons s s₁ s₂ r rs hcall _ ih =>
    obtain ⟨r', s', hcall', hcases⟩ := hs.call al
    obtain ⟨rfl, rfl⟩ := hcall'.unique hcall
    rcases hcases with ⟨-, hs₁⟩ | ⟨hbad, -⟩
    · exact ih hs₁ fun rs' s' hrun => hgranted (_ :: rs') s' (.cons hcall hrun)
    · exact absurd (hgranted [] s .nil hs) hbad

/-- In a run that stays consistent the next call is granted all doublings. -/
theorem StaysConsistent.granted {rs : List Int} (h : StaysConsistent al s)
    (hrun : Run (Call al) s rs s') (hs' : Usable s') : ReallocsGranted al s' := by
  obtain ⟨r, s₁, hcall, hcases⟩ := hs'.call al
  rcases hcases with ⟨hgranted, -⟩ | ⟨-, hbad⟩
  · exact hgranted
  · exact absurd (h (rs ++ [r]) s₁ (hrun.append (.single hcall))).1 hbad

/-- In a run of calls every state is consistent, and no call stores outside the buffer, exactly
if no call is refused a doubling. -/
theorem staysConsistent_iff (al : Allocator) (hs : Usable s) :
    StaysConsistent al s ↔ ∀ rs s', Run (Call al) s rs s' → ReallocsGranted al s' := by
  constructor
  · intro h rs s' hrun
    exact h.granted hrun (usable_of_granted hs (fun _ _ => h.granted) hrun)
  · intro hgranted rs s' hrun
    have hs' := usable_of_granted hs (fun rs s' hrun _ => hgranted rs s' hrun) hrun
    obtain ⟨r, s₁, hcall, -⟩ := hs'.call al
    exact ⟨hs'.consistent, Returns.not_fails hcall⟩

/-- The allocator that grants nothing. -/
def Allocator.empty : Allocator where
  grants _ _ := false
  fill _ _ := 0
  limit _ _ h := nomatch h

/-- All doublings for a stream of a reasonable length are granted. -/
theorem reallocsGranted_generous (hlen : 2 * s.stream.length < 2 ^ 63) :
    ReallocsGranted .generous s := by
  intro _ j hj
  have hline := lineLength_le s.stream
  refine decide_eq_true ?_
  rw [← two_mul_two_pow]
  omega

/-- Calls that are granted all they ask for leave a usable buffer, and no more of the stream. -/
theorem generous_run {rs : List Int} (hrun : Run (Call .generous) s rs s') (hs : Usable s)
    (hlen : 2 * s.stream.length < 2 ^ 63) : Usable s' ∧ 2 * s'.stream.length < 2 ^ 63 := by
  refine hrun.invariant (I := fun s => Usable s ∧ 2 * s.stream.length < 2 ^ 63) ?_ ⟨hs, hlen⟩
  rintro s r s' ⟨hs, hlen⟩ hcall
  constructor
  · obtain ⟨r', s₁, hcall', hcases⟩ := hs.call .generous
    obtain ⟨rfl, rfl⟩ := hcall'.unique hcall
    rcases hcases with ⟨-, hs₁⟩ | ⟨hbad, -⟩
    · exact hs₁
    · exact absurd (reallocsGranted_generous hlen) hbad
  · obtain ⟨r', s₁, hret, b, hout⟩ := myGetline_ensures .generous hs
    obtain ⟨rfl, rfl⟩ := hret.unique hcall
    cases hout with
    | line hsplit _ hrest =>
      rw [hsplit, List.length_append, List.length_cons, ← hrest] at hlen
      omega
    | eof _ hend =>
      rw [hend]
      decide
    | refused hgrant hsize =>
      have hsmall : mallocSize < 2 ^ 63 := by decide
      have hbig := of_decide_eq_false hgrant
      omega

/-- A buffer of 1 byte grows with the lines. -/
theorem staysConsistent_one : StaysConsistent .generous (supplied 1 [97, newline]) := by
  have hs : Usable (supplied 1 [97, newline]) :=
    .inr ⟨_, supplied_holds (by decide) _, Nat.one_pos⟩
  exact (staysConsistent_iff .generous hs).mpr fun rs s' hrun =>
    reallocsGranted_generous (generous_run hrun hs (by decide)).2

/-- The second byte does not fit into a buffer of 1 byte and cannot be had.  The call returns
-1 and leaves 2 in `*n`, and the next call stores its zero byte outside the buffer. -/
theorem not_staysConsistent_one : Usable (supplied 1 [97, newline]) ∧
    ¬ StaysConsistent .empty (supplied 1 [97, newline]) ∧
    ∃ s', Call .empty (supplied 1 [97, newline]) (-1) s' ∧ ¬ Consistent s' ∧
      Fails (myGetline .empty .all) s' .bounds := by
  have hs : Usable (supplied 1 [97, newline]) :=
    .inr ⟨_, supplied_holds (by decide) _, Nat.one_pos⟩
  have hresult : result (myGetline .empty .all) (supplied 1 [97, newline]) = some (-1) := by
    decide +kernel
  have hoverrun : overruns (myGetline .empty .all)
      (after (myGetline .empty .all) (supplied 1 [97, newline])) = true := by
    decide +kernel
  have hcall : Call .empty (supplied 1 [97, newline]) (-1) _ := .of_result hresult
  have hfail := Fails.of_overruns hoverrun
  refine ⟨hs, fun h => (h [-1] _ (.single hcall)).2 hfail, _, hcall, ?_, hfail⟩
  obtain ⟨r, s', hcall', hcases⟩ := hs.call .empty
  obtain ⟨rfl, rfl⟩ := hcall'.unique hcall
  rcases hcases with ⟨-, hs'⟩ | ⟨-, hbad⟩
  · -- a call on a buffer of the right size does not fail
    obtain ⟨r, s'', hagain, -⟩ := hs'.call .empty
    exact absurd hfail (Returns.not_fails hagain)
  · exact hbad

end CToys.Stdio
