import CToys.Lib.Runs
import CToys.Stdio.GetlineCall

/-!
# The lines that `my_getline` delivers

The loop of `main` calls `my_getline` until it returns -1.  Each call that does not delivers
a line with its newline, and nothing of the stream is lost or repeated between two calls.
At the end of the stream the call returns -1 whether or not it has read bytes, so a last
line without newline is read and not delivered.  The lines that are delivered are therefore
those of the stream if and only if the stream is empty or ends with a newline.
-/

namespace CToys.Stdio

variable {al : Allocator} {s s₁ s' : State} {stream line : List UInt8} {ls : List (List UInt8)}

/-! ## One round -/

/-- A round of the loop of `main` in which `my_getline` delivers `line`, the first `count`
bytes of the buffer. -/
def Delivers (al : Allocator) (s : State) (line : List UInt8) (s' : State) : Prop :=
  ∃ count b s₁, Returns (myGetline al .all) s count s₁ ∧ 0 ≤ count ∧ s₁.lineptr = some b ∧
    b.take count.toNat = line ∧ Returns (report count) s₁ () s'

/-- Printing changes what was printed. -/
theorem report_returns (size : Int) (s : State) :
    ∃ out, Returns (report size) s () { s with stdout := out } :=
  ⟨_, rfl⟩

/-- A line that is delivered ends with its newline and is taken from the stream. -/
theorem Delivers.spec (h : Delivers al s line s') (hs : Usable s) :
    Ended line ∧ s.stream = line ++ s'.stream ∧ Usable s' ∧ s'.errno = s.errno := by
  obtain ⟨count, b, s₁, hcall, hpos, hptr, hline, hreport⟩ := h
  obtain ⟨out, hout⟩ := report_returns count s₁
  obtain ⟨-, rfl⟩ := hreport.unique hout
  obtain ⟨r, s₂, hret, b₀, h⟩ := myGetline_ensures al hs
  obtain ⟨rfl, rfl⟩ := hcall.unique hret
  cases h with
  | @line v rest b' _ hsplit hv hrest hb' hsize hbytes hzero he =>
    obtain rfl : b = b' := Option.some.inj (hptr.symm.trans hb'.lineptr)
    have hl : line = v ++ [newline] := by
      rw [← hline, Int.toNat_natCast, hbytes]
      rfl
    refine ⟨⟨v, hv, hl⟩, ?_, .inr ⟨b, ⟨hb'.lineptr, hb'.size, hb'.limit⟩, ?_⟩, he⟩
    · rw [hsplit, hl, ← hrest, List.append_assoc]
      rfl
    · have := hb'.size
      show 0 < s₁.n
      omega
  | eof => exact absurd hpos (by decide)
  | refused => exact absurd hpos (by decide)

/-! ## Runs -/

/-- The lines that were delivered and what is left make up the stream. -/
theorem delivers_run (h : Run (Delivers al) s ls s') (hs : Usable s) :
    (∀ l ∈ ls, Ended l) ∧ s.stream = ls.flatten ++ s'.stream ∧ Usable s' ∧
      s'.errno = s.errno := by
  induction h with
  | nil => exact ⟨by simp, rfl, hs, rfl⟩
  | @cons s s₁ s₂ l ls hround _ ih =>
    obtain ⟨hl, hstream, hs₁, he₁⟩ := hround.spec hs
    obtain ⟨hls, hrest, hs₂, he₂⟩ := ih hs₁
    refine ⟨List.forall_mem_cons.mpr ⟨hl, hls⟩, ?_, hs₂, he₂.trans he₁⟩
    rw [hstream, hrest, List.flatten_cons, List.append_assoc]

theorem opened_usable (stream : List UInt8) : Usable (opened stream) := .inl rfl

/-- `my_getline` is called until it returns -1. -/
theorem exists_run (al : Allocator) {left : Nat} : ∀ {s : State}, Usable s →
    s.stream.length < left →
    ∃ ls s₁ s₂, Run (Delivers al) s ls s₁ ∧ Returns (myGetline al .all) s₁ (-1) s₂ := by
  induction left with
  | zero =>
    intro s _ hleft
    omega
  | succ left ih =>
    intro s hs hleft
    obtain ⟨r, s₁, hret, b, h⟩ := myGetline_ensures al hs
    cases h with
    | @line v rest b' _ hsplit hv hrest hb' hsize hbytes hzero he =>
      obtain ⟨out, hout⟩ := report_returns (0 + v.length + 1 : Nat) s₁
      have hround : Delivers al s (b'.take (0 + v.length + 1)) { s₁ with stdout := out } :=
        ⟨_, b', s₁, hret, Int.natCast_nonneg _, hb'.lineptr, by rw [Int.toNat_natCast], hout⟩
      obtain ⟨hended, hstream, hs₁, -⟩ := hround.spec hs
      have hlen := congrArg List.length hstream
      rw [List.length_append] at hlen
      have hpos := hended.length_pos
      obtain ⟨ls, s₂, s₃, hrun, hlast⟩ := ih hs₁ (by omega)
      exact ⟨_ :: ls, s₂, s₃, .cons hround hrun, hlast⟩
    | eof => exact ⟨[], s, s₁, .nil, hret⟩
    | refused => exact ⟨[], s, s₁, .nil, hret⟩

/-- The loop of `main` goes through the rounds of such a run. -/
theorem mainLoop_returns {left : Nat} (h : Run (Delivers al) s ls s₁)
    (hlast : Returns (myGetline al .all) s₁ (-1) s') (hleft : ls.length < left) :
    Returns (mainLoop al left) s () s' := by
  induction h generalizing left with
  | nil =>
    obtain ⟨left, rfl⟩ := Nat.exists_eq_add_one.mpr hleft
    refine hlast.bind ?_
    rw [if_neg (by decide)]
    exact .pure _ _
  | @cons s s₁ s₂ l ls hround _ ih =>
    obtain ⟨count, b, s₀, hcall, hpos, -, -, hreport⟩ := hround
    rw [List.length_cons] at hleft
    obtain ⟨left, rfl⟩ : ∃ k, left = k + 1 := ⟨left - 1, by omega⟩
    refine hcall.bind ?_
    rw [if_pos hpos]
    exact hreport.bind (ih hlast (by omega))

/-- The loop of `main` ends on every file, after the rounds of a run. -/
theorem mainLoop_ends (al : Allocator) (stream : List UInt8) :
    ∃ ls s₁ s₂, Run (Delivers al) (opened stream) ls s₁ ∧
      Returns (myGetline al .all) s₁ (-1) s₂ ∧
      Returns (mainLoop al (stream.length + 1)) (opened stream) () s₂ := by
  obtain ⟨ls, s₁, s₂, hrun, hlast⟩ :=
    exists_run al (opened_usable stream) (Nat.lt_succ_self _)
  refine ⟨ls, s₁, s₂, hrun, hlast, mainLoop_returns hrun hlast ?_⟩
  obtain ⟨hls, hstream, -⟩ := delivers_run hrun (opened_usable stream)
  have hlen := congrArg List.length hstream
  rw [List.length_append] at hlen
  have hle := length_le_flatten hls
  have hopened : (opened stream).stream.length = stream.length := rfl
  omega

/-! ## The lines of the stream -/

/-- Calling `my_getline` until it returns -1 delivers the lines of the stream, and it
returns -1 when there is nothing left. -/
def Splits (al : Allocator) (stream : List UInt8) : Prop :=
  ∃ ls s₁ s₂, Run (Delivers al) (opened stream) ls s₁ ∧
    Returns (myGetline al .all) s₁ (-1) s₂ ∧ IsLines stream ls ∧ s₁.stream = []

/-- A last line without newline is not delivered. -/
theorem Splits.newline_end (h : Splits al stream) :
    stream = [] ∨ stream.getLast? = some newline := by
  obtain ⟨ls, s₁, s₂, hrun, -, hlines, -⟩ := h
  obtain ⟨hls, -⟩ := delivers_run hrun (opened_usable stream)
  rw [← hlines.flatten]
  exact getLast?_flatten hls

end CToys.Stdio
