import CToys.Lib.Doubling
import CToys.Stdio.GetlineSplit

/-!
# The size of the buffer

`my_getline` doubles the buffer when the number of bytes read has reached its size.  So the
size is at any time the least doubling of the size it began with that is larger than the
number of bytes read (`Sized`), and over several calls the one that is larger than the
longest line.

A store at or beyond the true size stops the program, so the calls that return have made all
their stores inside the buffer.
-/

namespace CToys.Stdio

/-- The number of bytes that a call reads: up to the newline, or all there are. -/
def lineLength : List UInt8 → Nat
  | [] => 0
  | c :: stream => if c = newline then 1 else lineLength stream + 1

theorem lineLength_line {v rest : List UInt8} (hv : newline ∉ v) :
    lineLength (v ++ newline :: rest) = v.length + 1 := by
  induction v with
  | nil => simp [lineLength]
  | cons c v ih =>
    rw [List.mem_cons, not_or] at hv
    rw [List.cons_append, lineLength, if_neg (Ne.symm hv.1), ih hv.2, List.length_cons]

/-- A buffer of `n` bytes was doubled `j` times for `count` bytes.  The first doubling was
call `a` of the allocator. -/
structure Sized (al : Allocator) (n a count j : Nat) (s : State) : Prop where
  size : s.n = n * 2 ^ j
  allocs : s.allocs = a + j
  least : LeastDoubling n count j
  granted : ∀ i < j, al.grants (a + i) (n * 2 ^ (i + 1)) = true

/-- What a call that reads `len` bytes leaves behind.  It begins with the errno `e`. -/
inductive Ending (al : Allocator) (n a len : Nat) (e : Option Errno) : Int → State → Prop
  /-- All bytes were read. -/
  | full {r : Int} {s' : State} {b : Buffer} {j : Nat} :
      Holds s' b → Sized al n a len j s' → s'.errno = e → Ending al n a len e r s'
  /-- A doubling was refused. -/
  | refused {s' : State} {b : Buffer} {j : Nat} :
      n * 2 ^ j ≤ len → al.grants (a + j) (n * 2 ^ (j + 1)) = false → s'.lineptr = some b →
      b.size = n * 2 ^ j → s'.n = n * 2 ^ (j + 1) → Ending al n a len e (-1) s'

/-- A call that succeeds was refused nothing. -/
theorem Ending.full_of_nonneg {al : Allocator} {n a len : Nat} {e : Option Errno} {r : Int}
    {s' : State} (h : Ending al n a len e r s') (hr : 0 ≤ r) :
    ∃ b j, Holds s' b ∧ Sized al n a len j s' := by
  cases h with
  | full hb hsized => exact ⟨_, _, hb, hsized⟩
  | refused => exact absurd hr (by decide)

section

variable {al : Allocator} {n a count j : Nat} {s s₁ : State}

theorem two_mul_two_pow (n j : Nat) : 2 * (n * 2 ^ j) = n * 2 ^ (j + 1) := by
  rw [pow_succ, Nat.mul_left_comm, Nat.mul_comm 2]

/-- A round keeps the size right. -/
theorem Sized.grows (h : Sized al n a count j s) (hgrows : Grows al s s₁ (count + 1)) :
    ∃ j', Sized al n a (count + 1) j' s₁ := by
  have hsize := h.size
  cases hgrows with
  | stays hroom hn hallocs =>
    exact ⟨j, hn.trans hsize, hallocs.trans h.allocs, h.least.succ (hsize ▸ hroom), h.granted⟩
  | doubles hfull hn hallocs hgrant =>
    rw [hsize, two_mul_two_pow] at hn hgrant
    refine ⟨j + 1, hn, ?_, h.least.double (hsize ▸ hfull), fun i hi => ?_⟩
    · rw [hallocs, h.allocs, Nat.add_assoc]
    · rcases Nat.eq_or_lt_of_le (Nat.le_of_lt_succ hi) with rfl | hi
      · rwa [← h.allocs]
      · exact h.granted i hi

/-- The loop leaves the buffer with the right size, or is refused a doubling. -/
theorem readLoop_ending {left : Nat} : ∀ {s : State} {b : Buffer} {count j : Nat},
    s.stream.length < left → Holds s b → Sized al n a count j s →
    Ensures (readLoop al left count count) s
      (Ending al n a (count + lineLength s.stream) s.errno) := by
  induction left with
  | zero =>
    intro s b count j hleft
    omega
  | succ left ih =>
    intro s b count j hleft hb hsized
    have hcount : count < s.n := hsized.size ▸ hsized.least.exceeds
    cases hstream : s.stream with
    | nil => exact (readLoop_nil hstream).ensures (.full hb hsized rfl)
    | cons c stream =>
      rcases readLoop_cons al left hstream hb hcount with
        ⟨s₁, b₁, heq, hb₁, -, hs₁, he₁, hgrows⟩ | ⟨s₁, hret, hrefused⟩
      swap
      · have hfull := hrefused.full
        have hgrants := hrefused.grants
        have hsize := hrefused.size
        rw [hsized.size, two_mul_two_pow] at hgrants hsize
        rw [hsized.allocs] at hgrants
        refine hret.ensures (.refused (j := j) ?_ hgrants hrefused.lineptr ?_ hsize)
        · rw [← hsized.size, hfull, lineLength]
          split <;> omega
        · rw [hb.size, hsized.size]
      obtain ⟨j', hsized₁⟩ := hsized.grows hgrows
      refine .of_apply heq ?_
      by_cases hc : c = newline
      · rw [if_pos hc, lineLength, if_pos hc]
        refine (terminate_returns hb₁ (hgrows.lt (Nat.succ_pos _))).ensures ?_
        exact .full (hb₁.set (count + 1) 0) ⟨hsized₁.1, hsized₁.2, hsized₁.3, hsized₁.4⟩ he₁
      · rw [if_neg hc, lineLength, if_neg hc]
        have hlen : count + (lineLength stream + 1) = count + 1 + lineLength s₁.stream := by
          rw [hs₁]
          omega
        rw [hlen, ← he₁]
        refine ih ?_ hb₁ hsized₁
        rw [hstream, List.length_cons] at hleft
        rw [hs₁]
        omega

end

/-! ## A call -/

/-- The size of the buffer that a call begins with. -/
def startSize (s : State) : Nat := if s.lineptr.isNone then mallocSize else s.n

/-- The number of calls of the allocator before the first doubling. -/
def startAllocs (s : State) : Nat := if s.lineptr.isNone then s.allocs + 1 else s.allocs

theorem Sized.zero {al : Allocator} {s : State} (hpos : 0 < s.n) :
    Sized al s.n s.allocs 0 0 s :=
  ⟨by rw [pow_zero, Nat.mul_one], rfl, .zero hpos, fun i hi => absurd hi (Nat.not_lt_zero i)⟩

/-- A call is refused the first buffer, or a doubling that it needs. -/
def Denied (al : Allocator) (s : State) : Prop :=
  s.lineptr = none ∧ al.grants s.allocs mallocSize = false ∨
    ∃ j, startSize s * 2 ^ j ≤ lineLength s.stream ∧
      al.grants (startAllocs s + j) (startSize s * 2 ^ (j + 1)) = false

/-- A call is refused its first buffer, or ends like the loop. -/
theorem myGetline_ending (al : Allocator) {s : State} (hs : Usable s) :
    Ensures (myGetline al .all) s fun r s' =>
      (s.lineptr = none ∧ al.grants s.allocs mallocSize = false ∧ r = -1 ∧ s'.lineptr = none) ∨
      ((s.lineptr = none → al.grants s.allocs mallocSize = true) ∧
        Ending al (startSize s) (startAllocs s) (lineLength s.stream) s.errno r s') := by
  have hget : Returns (get : Process State State) s s s := rfl
  unfold myGetline
  rw [if_neg (by decide)]
  refine hget.step ?_
  rcases hs with hnone | ⟨b, hb, hpos⟩
  · have hisNone : s.lineptr.isNone = true := by simp [hnone]
    rw [if_pos hisNone]
    let asked : State := { s with n := mallocSize }
    have hset : Returns (setN mallocSize) s () asked := rfl
    refine hset.step ?_
    rcases mallocLine_cases al asked with
      ⟨b, s', hmalloc, hb, hn, hallocs, hstream, he, hgrant⟩ | ⟨s', hmalloc, hgrant, hptr⟩
    · have hget' : Returns (get : Process State State) s' s' s' := rfl
      have he : s'.errno = s.errno := he
      have hn : s'.n = startSize s := by rw [hn, startSize, if_pos hisNone]
      have hallocs : s'.allocs = startAllocs s := by rw [hallocs, startAllocs, if_pos hisNone]
      have hpos : 0 < s'.n := by
        rw [hn, startSize, if_pos hisNone]
        decide
      refine hmalloc.step ?_
      rw [if_pos rfl]
      refine hget'.step ((readLoop_ending (Nat.lt_succ_self _) hb (.zero hpos)).mono ?_)
      intro r s'' h
      rw [hn, hallocs, hstream, he, Nat.zero_add] at h
      exact .inr ⟨fun _ => hgrant, h⟩
    · have hfailed : Returns (setErrno .enomem) s' () { s' with errno := some .enomem } := rfl
      refine hmalloc.step ?_
      rw [if_neg (by decide)]
      exact hfailed.step (.pure (.inl ⟨hnone, hgrant, rfl, hptr⟩))
  · have hisNone : ¬ s.lineptr.isNone = true := by simp [hb.lineptr]
    rw [if_neg hisNone]
    refine hget.step ((readLoop_ending (Nat.lt_succ_self _) hb (.zero hpos)).mono ?_)
    intro r s' h
    rw [Nat.zero_add] at h
    refine .inr ⟨fun hnone => absurd hnone (by simp [hb.lineptr]), ?_⟩
    rw [startSize, startAllocs, if_neg hisNone, if_neg hisNone]
    exact h

/-! ## Several calls -/

/-- The length of the longest line. -/
def longest (ls : List (List UInt8)) : Nat := ls.foldl (fun m l => max m l.length) 0

theorem longest_concat (ls : List (List UInt8)) (l : List UInt8) :
    longest (ls ++ [l]) = max (longest ls) l.length := by
  simp [longest, List.foldl_append]

/-- After the lines `ls` were delivered there is no buffer yet, or its size is right for the
longest of them and was asked for by one call of the allocator after the other. -/
def SizedFor (ls : List (List UInt8)) (s : State) : Prop :=
  s.errno = none ∧ (s.lineptr = none ∧ ls = [] ∧ s.allocs = 0 ∨
    ∃ b k, Holds s b ∧ s.n = mallocSize * 2 ^ k ∧ s.allocs = k + 1 ∧
      LeastDoubling mallocSize (longest ls) k)

theorem SizedFor.usable {ls : List (List UInt8)} {s : State} (h : SizedFor ls s) : Usable s := by
  rcases h with ⟨-, ⟨hnone, -⟩ | ⟨b, k, hb, hn, -, hleast⟩⟩
  · exact .inl hnone
  · have hpos := hleast.exceeds
    exact .inr ⟨b, hb, by omega⟩

/-- The first doubling of a call follows on those before. -/
theorem SizedFor.start {ls : List (List UInt8)} {s : State} (h : SizedFor ls s) :
    ∃ k, startSize s = mallocSize * 2 ^ k ∧ startAllocs s = k + 1 ∧
      (LeastDoubling mallocSize (longest ls) k ∨ k = 0 ∧ ls = []) := by
  rcases h with ⟨-, ⟨hnone, hls, hallocs⟩ | ⟨b, k, hb, hn, hallocs, hleast⟩⟩
  · refine ⟨0, ?_, ?_, .inr ⟨rfl, hls⟩⟩
    · simp [startSize, hnone]
    · simp [startAllocs, hnone, hallocs]
  · refine ⟨k, ?_, ?_, .inl hleast⟩
    · simp [startSize, hb.lineptr, hn]
    · simp [startAllocs, hb.lineptr, hallocs]

/-- The size after a call is right for its line too. -/
theorem SizedFor.next {ls : List (List UInt8)} {s s' : State} {al : Allocator} {len j : Nat}
    (h : SizedFor ls s) (hsized : Sized al (startSize s) (startAllocs s) len j s') :
    ∃ k, s'.n = mallocSize * 2 ^ k ∧ s'.allocs = k + 1 ∧
      LeastDoubling mallocSize (max (longest ls) len) k := by
  obtain ⟨k, hsize, hallocs, hleast⟩ := h.start
  have hn := hsized.size
  have ha := hsized.allocs
  have hj := hsized.least
  rw [hsize] at hn hj
  rw [hallocs] at ha
  refine ⟨k + j, by rw [hn, Nat.mul_assoc, pow_add], by omega, ?_⟩
  rcases hleast with hleast | ⟨rfl, rfl⟩
  · exact hleast.trans hj
  · rw [show longest [] = 0 from rfl, Nat.zero_max, Nat.zero_add]
    rwa [pow_zero, Nat.mul_one] at hj

/-- What a call that succeeds does to stream, buffer and size. -/
structure Disciplined (ls : List (List UInt8)) (s : State) (r : Int) (s' : State)
    (line : List UInt8) (b : Buffer) : Prop where
  ended : Ended line
  stream : s.stream = line ++ s'.stream
  result : r = line.length
  lineptr : s'.lineptr = some b
  bytes : b.take line.length = line
  zero : b.bytes line.length = 0
  trueSize : b.size = s'.n
  size : ∃ k, s'.n = mallocSize * 2 ^ k ∧ LeastDoubling mallocSize (longest (ls ++ [line])) k

variable {al : Allocator} {s s' : State} {ls : List (List UInt8)}

/-- A call on a buffer with the right size succeeds, or is refused memory, or meets the end of
the stream. -/
theorem SizedFor.call (al : Allocator) (h : SizedFor ls s) :
    Ensures (myGetline al .all) s fun r s' =>
      (∃ line b, Holds s' b ∧ s'.errno = none ∧ (∃ k, s'.n = mallocSize * 2 ^ k ∧
          s'.allocs = k + 1 ∧ LeastDoubling mallocSize (longest (ls ++ [line])) k) ∧
          Disciplined ls s r s' line b) ∨
        r = -1 ∧ (newline ∉ s.stream ∨ Denied al s ∧ s'.errno = some .enomem) := by
  refine ((myGetline_ensures al h.usable).and (myGetline_ending al h.usable)).mono ?_
  rintro r s' ⟨⟨b₀, hout⟩, hend⟩
  cases hout with
  | eof hline => exact .inr ⟨rfl, .inl hline⟩
  | refused _ _ he =>
    refine .inr ⟨rfl, .inr ⟨?_, he⟩⟩
    rcases hend with ⟨hnone, hgrant, -, -⟩ | ⟨-, hend⟩
    · exact .inl ⟨hnone, hgrant⟩
    · cases hend with
      | full _ _ hsame =>
        rw [he, h.1] at hsame
        cases hsame
      | refused hle hgrant => exact .inr ⟨_, hle, hgrant⟩
  | @line v rest b _ hsplit hv hrest hb hsize hbytes hzero he =>
    rw [Nat.zero_add] at hsize hbytes hzero hend
    have hlen : (v ++ [newline]).length = v.length + 1 := by simp
    rcases hend with ⟨-, -, hr, -⟩ | ⟨-, hend⟩
    · omega
    rw [hsplit, lineLength_line hv] at hend
    obtain ⟨b', j, hb', hsized⟩ := hend.full_of_nonneg (Int.natCast_nonneg _)
    obtain ⟨k, hn, hallocs, hleast⟩ := h.next hsized
    rw [← hlen, ← longest_concat] at hleast
    left
    refine ⟨v ++ [newline], b, hb, he.trans h.1, ⟨k, hn, hallocs, hleast⟩, ⟨v, hv, rfl⟩, ?_,
      by rw [hlen, Nat.zero_add], hb.lineptr, ?_, ?_, hb.size, k, hn, hleast⟩
    · rw [hsplit, hrest, List.append_assoc]
      rfl
    · rw [hlen, hbytes]
      rfl
    · rw [hlen, hzero]

/-- A line that is delivered keeps the size right. -/
theorem SizedFor.delivers {line : List UInt8} (h : SizedFor ls s)
    (hround : Delivers al s line s') : SizedFor (ls ++ [line]) s' := by
  obtain ⟨count, b, s₁, hcall, hpos, hptr, hline, hreport⟩ := hround
  obtain ⟨out, hout⟩ := report_returns count s₁
  obtain ⟨-, rfl⟩ := hreport.unique hout
  obtain ⟨r, s₂, hret, hcases⟩ := h.call al
  obtain ⟨rfl, rfl⟩ := hcall.unique hret
  rcases hcases with ⟨line', b', hb', he, ⟨k, hn, hallocs, hleast⟩, hdone⟩ | ⟨rfl, -⟩
  · obtain rfl : b = b' := Option.some.inj (hptr.symm.trans hdone.lineptr)
    have hsame : line' = line := by
      rw [← hline, hdone.result, Int.toNat_natCast, hdone.bytes]
    exact ⟨he, .inr ⟨b, k, ⟨hb'.lineptr, hb'.size, hb'.limit⟩, hn, hallocs, hsame ▸ hleast⟩⟩
  · exact absurd hpos (by decide)

theorem sizedFor_run {ls' : List (List UInt8)} (hrun : Run (Delivers al) s ls' s')
    (h : SizedFor ls s) : SizedFor (ls ++ ls') s' := by
  induction hrun generalizing ls with
  | nil => rwa [List.append_nil]
  | @cons s s₁ s₂ l ls' hround _ ih =>
    have hrest := ih (h.delivers hround)
    rwa [List.append_assoc, List.singleton_append] at hrest

theorem opened_sizedFor (stream : List UInt8) : SizedFor [] (opened stream) :=
  ⟨rfl, .inl ⟨rfl, rfl, rfl⟩⟩

/-- After any number of successful calls the next call returns, so it stores nothing outside the
buffer.  Either it delivers the next line with its newline and a zero byte behind it, in a
buffer whose size `*n` tells and is the least doubling of `MALLOCSIZE` that is larger than
the longest line so far, or it returns -1, for want of a newline or because the allocator
refuses what it asks for. -/
theorem getline_disciplined (al : Allocator) (stream : List UInt8)
    (hrun : Run (Delivers al) (opened stream) ls s) :
    ∃ r s', Returns (myGetline al .all) s r s' ∧
      ((∃ line b, Disciplined ls s r s' line b) ∨
        r = -1 ∧ (newline ∉ s.stream ∨ Denied al s ∧ s'.errno = some .enomem)) := by
  obtain ⟨r, s', hret, hcases⟩ := (sizedFor_run hrun (opened_sizedFor stream)).call al
  refine ⟨r, s', hret, hcases.imp_left ?_⟩
  rintro ⟨line, b, -, -, -, hdone⟩
  exact ⟨line, b, hdone⟩

/-- The allocator that grants all it may. -/
def Allocator.generous : Allocator where
  grants _ size := decide (size < 2 ^ 63)
  fill _ _ := 0
  limit _ _ h := of_decide_eq_true h

/-- The lines "a" and 120 times "b". -/
def longStream : List UInt8 := 97 :: newline :: (List.replicate 120 98 ++ [newline])

/-- The second call has to double the buffer. -/
theorem getline_disciplined_long : ∃ s s' line b,
    Run (Delivers .generous) (opened longStream) [[97, newline]] s ∧
      Returns (myGetline .generous .all) s 121 s' ∧
      Disciplined [[97, newline]] s 121 s' line b ∧ s'.n = 240 := by
  let s₁ := after (myGetline .generous .all) (opened longStream)
  let s₂ := after (report 2) s₁
  have hfirst : result (myGetline .generous .all) (opened longStream) = some 2 := by
    decide +kernel
  obtain ⟨b, hb, htake⟩ : ∃ b, s₁.lineptr = some b ∧ b.take 2 = [97, newline] := by
    have hmap : s₁.lineptr.map (·.take 2) = some [97, newline] := by decide +kernel
    exact Option.map_eq_some_iff.mp hmap
  have hreport : Returns (report 2) s₁ () s₂ := .of_result rfl
  have hround : Delivers .generous (opened longStream) [97, newline] s₂ :=
    ⟨2, b, s₁, .of_result hfirst, by decide, hb, htake, hreport⟩
  have hsecond : result (myGetline .generous .all) s₂ = some 121 := by decide +kernel
  obtain ⟨r, s', hret, hcases⟩ := getline_disciplined .generous longStream (.single hround)
  obtain ⟨rfl, rfl⟩ := hret.unique (.of_result hsecond)
  rcases hcases with ⟨line, b, hdone⟩ | ⟨hr, -⟩
  · exact ⟨s₂, _, line, b, .single hround, hret, hdone, by decide +kernel⟩
  · exact absurd hr (by decide)

/-! ## The lines of the stream -/

/-- From the beginning of some line on, the stream has `len` bytes up to a newline or its end. -/
def HasLine (stream : List UInt8) (len : Nat) : Prop :=
  ∃ (ls : List (List UInt8)) (rest : List UInt8),
    (∀ l ∈ ls, Ended l) ∧ stream = ls.flatten ++ rest ∧ len ≤ lineLength rest

/-- The allocator grants the first buffer, and each doubling that a line of the stream needs. -/
def Supplied (al : Allocator) (stream : List UInt8) : Prop :=
  al.grants 0 mallocSize = true ∧ ∀ i, HasLine stream (mallocSize * 2 ^ i) →
    al.grants (i + 1) (mallocSize * 2 ^ (i + 1)) = true

theorem lineLength_le (stream : List UInt8) : lineLength stream ≤ stream.length := by
  induction stream with
  | nil => exact Nat.le_refl 0
  | cons c stream ih =>
    rw [lineLength, List.length_cons]
    split <;> omega

variable {stream : List UInt8}

/-- It suffices that twice the size of the stream is granted. -/
theorem supplied_of_grants
    (h : ∀ k size, size ≤ max mallocSize (2 * stream.length) → al.grants k size = true) :
    Supplied al stream := by
  refine ⟨h 0 mallocSize (Nat.le_max_left _ _), fun i hline => ?_⟩
  obtain ⟨ls, rest, -, hstream, hlen⟩ := hline
  have hrest := lineLength_le rest
  have hlength := congrArg List.length hstream
  rw [List.length_append] at hlength
  refine h _ _ (Nat.le_trans ?_ (Nat.le_max_right _ _))
  rw [← two_mul_two_pow]
  omega

theorem supplied_generous (h : 2 * stream.length < 2 ^ 63) : Supplied .generous stream := by
  refine supplied_of_grants fun k size hsize => decide_eq_true ?_
  have hsmall : mallocSize < 2 ^ 63 := by decide
  omega

/-- Then no call is refused anything. -/
theorem Supplied.not_denied (hal : Supplied al stream) (h : SizedFor ls s)
    (hls : ∀ l ∈ ls, Ended l) (hstream : stream = ls.flatten ++ s.stream) : ¬ Denied al s := by
  rintro (⟨hnone, hgrant⟩ | ⟨j, hle, hgrant⟩)
  · rcases h.2 with ⟨-, -, hallocs⟩ | ⟨b, k, hb, -⟩
    · rw [hallocs, hal.1] at hgrant
      cases hgrant
    · rw [hb.lineptr] at hnone
      cases hnone
  · obtain ⟨k, hsize, hallocs, -⟩ := h.start
    rw [hsize, Nat.mul_assoc, ← pow_add] at hle hgrant
    have hcall : startAllocs s + j = k + j + 1 := by omega
    rw [hcall, ← Nat.add_assoc, hal.2 (k + j) ⟨ls, s.stream, hls, hstream, hle⟩] at hgrant
    cases hgrant

/-- `my_getline` splits the stream into its lines if and only if the stream is empty or ends
with a newline. -/
theorem splits_iff (al : Allocator) (stream : List UInt8) (hal : Supplied al stream) :
    Splits al stream ↔ stream = [] ∨ stream.getLast? = some newline := by
  refine ⟨Splits.newline_end, fun hend => ?_⟩
  obtain ⟨ls, s₁, s₂, hrun, hlast⟩ := exists_run al (opened_usable stream) (Nat.lt_succ_self _)
  obtain ⟨hls, hstream, -⟩ := delivers_run hrun (opened_usable stream)
  replace hstream : stream = ls.flatten ++ s₁.stream := hstream
  have hsized : SizedFor ls s₁ := sizedFor_run hrun (opened_sizedFor stream)
  have hline : newline ∉ s₁.stream := by
    obtain ⟨r, s', hret, hcases⟩ := hsized.call al
    obtain ⟨rfl, -⟩ := hret.unique hlast
    rcases hcases with ⟨line, b, -, -, -, hdone⟩ | ⟨-, hline | ⟨hdenied, -⟩⟩
    · exact absurd hdone.result (by omega)
    · exact hline
    · exact absurd hdenied (hal.not_denied hsized hls hstream)
  have hnil : s₁.stream = [] := by
    by_contra hne
    have hne' : stream ≠ [] := by
      rw [hstream]
      simp [hne]
    have hlast? := hend.resolve_left hne'
    rw [hstream, List.getLast?_append_of_ne_nil _ hne] at hlast?
    exact hline (List.mem_of_getLast? hlast?)
  refine ⟨ls, s₁, s₂, hrun, hlast, ?_, hnil⟩
  rw [hstream, hnil, List.append_nil]
  exact isLines_flatten hls

/-- Two lines, the second one empty. -/
theorem splits_two_lines : Splits .generous [97, newline, newline] :=
  (splits_iff .generous [97, newline, newline] (supplied_generous (by decide))).mpr
    (.inr rfl)

/-- The line "abc" without newline is not delivered. -/
theorem not_splits_abc :
    Supplied .generous [97, 98, 99] ∧ ¬ Splits .generous [97, 98, 99] :=
  ⟨supplied_generous (by decide), fun h => absurd h.newline_end (by decide)⟩

end CToys.Stdio
