import CToys.Sysio.Search
import CToys.Sysio.Shift

/-!
# Which lines `mylined` deletes

The program removes the bytes behind `prevbrk` up to `curbrk` and leaves the rest alone.
This is the line if `prevbrk` is the newline before it.  It is not for the first line, which
has no newline before it, and not for the second line if the first one is empty and the
second one is not: the newline before it is at offset 0, which the search takes for "not
found yet", and `prevbrk` moves on to offset 1.
-/

namespace CToys.Sysio

open Posix

/-- The kernel with the first descriptor. -/
def reading (cs : List UInt8) : Kernel :=
  { start cs with opens := 4 }.bind 3 ⟨theFile, .rdonly, 0⟩

/-- The kernel with both. -/
def opened (cs : List UInt8) : Kernel :=
  { reading cs with opens := 5 }.bind 4 ⟨theFile, .rdwr, 0⟩

/-- What the program does after the search. -/
def finish (sched : Schedule) (lineno : Nat) (fd1 fd2 : Int) (s : Scan) : Process Kernel Unit :=
  if s.linebrks < lineno then do
    print ("No Line " ++ toString lineno ++ "\n")
    let _ ← close fd1
    let _ ← close fd2
    exit 0
  else do
    setCursors fd1 fd2 s.prevbrk s.curbrk
    shift sched fd1 fd2 s.prevbrk s.curbrk
    let _ ← close fd1
    let _ ← close fd2
    exit 0

section

variable {sched : Schedule} {cs u v w : List UInt8} {m : Nat}

/-- The program opens the file twice and searches. -/
theorem mylined_apply (hs : sched.Smooth) (lineno : Nat) (cs : List UInt8) :
    mylined sched lineno (start cs) =
      (scanLoop sched 3 lineno (cs.length + 1) 0 ⟨0, 0, 0⟩ >>= finish sched lineno 3 4)
        (opened cs) := by
  have hopen1 : Returns (openFile sched theFile .rdonly false) (start cs) 3 (reading cs) :=
    openFile_returns (hs.opens _)
  have hopen2 : Returns (openFile sched theFile .rdwr false) (reading cs) 4 (opened cs) :=
    openFile_returns (hs.opens _)
  have hfd : (opened cs).fds 3 = some ⟨theFile, .rdonly, 0⟩ := rfl
  unfold mylined
  rw [hopen1.bind_apply, hopen2.bind_apply, (rounds_returns hfd).bind_apply]
  rfl

/-- The program keeps the bytes up to `prevbrk` and those behind the line.  It prints nothing, and
overwrites only what it has read. -/
theorem mylined_ends (hs : sched.Smooth) (h : LineAt cs m u v w) (hc : cs.length < 2 ^ 31) :
    Ends (mylined sched (m + 1)) (start cs) fun status k =>
      status = 0 ∧ k.files theFile =
          cs.take (prevAt u.length (u.length + v.length) + 1) ++ w ∧
        k.stdout = [] ∧ ReadFirst theFile 0 [] k.trace := by
  obtain ⟨a, hsplit, ha⟩ : ∃ a, cs = a ++ w ∧ a.length = u.length + v.length + 1 := by
    refine ⟨u ++ v ++ [newline], ?_, by simp; omega⟩
    rw [h.split]
    simp
  have hp := prevAt_le u.length (u.length + v.length)
  have hclen : (a ++ w).length < 2 ^ 31 := hsplit ▸ hc
  have hne : (3 : Int) ≠ 4 := by decide
  have hfd1 : (opened cs).fds 3 = some ⟨theFile, .rdonly, 0⟩ := rfl
  have hfd2 : (opened cs).fds 4 = some ⟨theFile, .rdwr, 0⟩ := rfl
  have hscan := scanLoop_ensures hs h hc rfl (Nat.zero_le _)
    (show cs.length < 0 + (cs.length + 1) by omega)
    (show (opened cs).files theFile = cs from rfl) hfd1
  refine Ends.of_apply (hscan.ends ?_) (mylined_apply hs (m + 1) cs)
  rintro _ k₁ ⟨rfl, hread, hordered₁⟩
  obtain ⟨off, hoff⟩ := hread.offset
  obtain ⟨hi, hhi, hord₁⟩ := hordered₁ [] 0 (.start (.refl _ _ _))
  have hfd2₁ : k₁.fds 4 = some ⟨theFile, .rdwr, 0⟩ := (hread.others 4 hne.symm).trans hfd2
  have hfile₁ : k₁.files theFile = a ++ w := by
    rw [hread.files, ← hsplit]
    rfl
  have henough : ¬ (found m u.length (u.length + v.length)).linebrks < m + 1 := Nat.lt_irrefl _
  unfold finish
  rw [if_neg henough]
  refine ((setCursors_ensures hne hoff hfd2₁ hfile₁ hclen ha hp).keeps
    (setCursors_quiet 3 4 _ _)).ends ?_
  rintro _ k₂ ⟨⟨hfiles, htrace, hshift⟩, hquiet₂⟩
  have hlen₂ : (k₂.files theFile).length < 2 ^ 31 := by rwa [hfiles, hfile₁]
  have hgap : ((u.length + v.length : Nat) : Int) - prevAt u.length (u.length + v.length)
      = (a.drop (prevAt u.length (u.length + v.length) + 1)).length := by
    rw [List.length_drop, ha]
    omega
  refine ((shift_ensures hs hne hshift hlen₂ hgap).keeps (shift_quiet sched 3 4 _ _)).ends ?_
  rintro _ k₃ ⟨⟨hfile₃, hordered₃⟩, hquiet₃⟩
  refine (close_apply _ _).ends ((close_apply _ _).ends ((exit_exits 0 _).ends ⟨rfl, ?_, ?_, ?_⟩))
  · rw [Kernel.unbind_files, Kernel.unbind_files, hfile₃, hsplit,
      List.take_append_of_le_length (by omega)]
  · exact (hquiet₃.trans hquiet₂).trans hread.stdout
  · have hstart : (a.take (prevAt u.length (u.length + v.length) + 1) ++
        a.drop (prevAt u.length (u.length + v.length) + 1)).length ≤ hi := by
      rw [List.take_append_drop, ha]
      exact hhi
    obtain ⟨-, new, hnew, hfirst⟩ := hordered₃ [] 0 ((hord₁.congr htrace).mono hstart)
    rw [List.append_nil] at hnew
    exact hnew ▸ hfirst

/-- The bytes up to `prevbrk` are the lines before, if their number is right. -/
private theorem take_prevAt (h : LineAt cs m u v w) :
    cs.take (prevAt u.length (u.length + v.length) + 1) = u ↔
      prevAt u.length (u.length + v.length) + 1 = u.length := by
  have hp := prevAt_le u.length (u.length + v.length)
  constructor
  · intro htake
    have hlen := congrArg List.length htake
    rw [h.split] at hlen
    simp only [List.length_take, List.length_append, List.length_cons] at hlen
    omega
  · intro hlen
    rw [hlen, h.split, List.append_assoc, List.take_left]

/-- When it is right. -/
theorem take_prevAt_iff (h : LineAt cs m u v w) :
    cs.take (prevAt u.length (u.length + v.length) + 1) = u ↔
      0 < m ∧ ¬ (m = 1 ∧ cs.head? = some newline ∧ cs[1]? ≠ some newline) := by
  rw [take_prevAt h]
  obtain ⟨rfl, rfl, hstart, hline⟩ := h
  unfold prevAt mark
  match u with
  | [] => simp
  | [x] =>
    obtain rfl : x = newline := by simpa using hstart
    cases v with
    | nil => simp
    | cons y v =>
      simp only [List.mem_cons, not_or] at hline
      simp [Ne.symm hline.1]
  | x :: y :: u =>
    have hlast : (y :: u).getLast? = some newline := by simpa using hstart
    have hpos : 0 < (y :: u).count newline := List.count_pos_iff.mpr (List.mem_of_getLast? hlast)
    refine iff_of_true ?_ ⟨?_, ?_⟩
    · simp only [List.length_cons]
      split <;> omega
    · exact List.count_pos_iff.mpr (List.mem_cons_of_mem _ (List.mem_of_getLast? hlast))
    · -- two newlines are before the line
      rintro ⟨hone, hhead, -⟩
      obtain rfl : x = newline := by simpa using hhead
      rw [List.count_cons_self] at hone
      omega

end

/-- Line `lineno`, counted from 1, is deleted and nothing else. -/
def DeletesLine (sched : Schedule) (lineno : Nat) (content : List UInt8) : Prop :=
  Ends (mylined sched lineno) (start content) fun status k =>
    status = 0 ∧ k.files theFile = deleteLine (lineno - 1) content

/-- A line is deleted exactly if it is not the first one, and not a non-empty second one
behind an empty first one. -/
theorem deletesLine_iff {sched : Schedule} (hs : sched.Smooth) {lineno : Nat}
    {content : List UInt8} (hlen : content.length < 2 ^ 31) (hpos : 1 ≤ lineno)
    (hline : lineno ≤ content.count newline) :
    DeletesLine sched lineno content ↔ 2 ≤ lineno ∧
      ¬ (lineno = 2 ∧ content.head? = some newline ∧ content[1]? ≠ some newline) := by
  obtain ⟨m, rfl⟩ : ∃ m, lineno = m + 1 := ⟨lineno - 1, by omega⟩
  obtain ⟨u, v, w, h⟩ := exists_lineAt hline
  obtain ⟨status, k, hexit, rfl, hfile, -⟩ := mylined_ends hs h hlen
  have hcond : (2 ≤ m + 1 ∧
      ¬ (m + 1 = 2 ∧ content.head? = some newline ∧ content[1]? ≠ some newline)) ↔
        0 < m ∧ ¬ (m = 1 ∧ content.head? = some newline ∧ content[1]? ≠ some newline) := by
    rw [show m + 1 = 2 ↔ m = 1 by omega, show 2 ≤ m + 1 ↔ 0 < m by omega]
  rw [hcond, ← take_prevAt_iff h]
  have hdelete : deleteLine (m + 1 - 1) content = u ++ w := h.deleteLine_eq
  constructor
  · rintro ⟨status', k', hexit', -, hfile'⟩
    obtain ⟨-, rfl⟩ := hexit.unique hexit'
    rw [hdelete, hfile] at hfile'
    exact List.append_cancel_right hfile'
  · intro htake
    exact ⟨0, k, hexit, rfl, by rw [hfile, htake, hdelete]⟩

theorem deletesLine_second : DeletesLine .eager 2 [97, 10, 98, 10] :=
  (deletesLine_iff Schedule.eager_smooth (by decide) (by decide) (by decide)).mpr (by decide)

/-- The first line of a file is not deleted: one byte of it stays. -/
theorem not_deletesLine_first : Schedule.eager.Smooth ∧ [(97 : UInt8), 10].length < 2 ^ 31 ∧
    1 ≤ [(97 : UInt8), 10].count newline ∧ ¬ DeletesLine .eager 1 [97, 10] := by
  refine ⟨Schedule.eager_smooth, by decide, by decide, ?_⟩
  rintro ⟨status, k, hexit, -, hfile⟩
  have hrun : atExit (·.files theFile) (mylined .eager 1) (start [97, 10]) = some (0, [97]) := by
    decide
  obtain ⟨k', hexit', hfile'⟩ := Exits.of_atExit hrun
  obtain ⟨-, rfl⟩ := hexit'.unique hexit
  rw [hfile] at hfile'
  cases hfile'

end CToys.Sysio
