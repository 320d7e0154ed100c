import CToys.Sysio.DeleteLine

/-!
# Which lines `mylined` reports missing

The program counts newlines and reports a line missing if there are fewer than its number.
This is right unless the line is the last one and lacks its newline.
-/

namespace CToys.Sysio

open Posix

section

variable {lineno : Nat} {cs : List UInt8}

/-! ## The search -/

/-- A round that does not come to the newline of the line. -/
theorem scanByte_missing {s : Scan} {x : UInt8} (hmissing : s.linebrks + [x].count newline < lineno)
    (hlimit : s.linebrks + [x].count newline < 2 ^ 64) (off : Int) :
    ∃ s', scanByte lineno s x off = (s', false) ∧
      s'.linebrks = s.linebrks + [x].count newline := by
  have hbrks : (if x = newline then add64 s.linebrks 1 else s.linebrks) =
      s.linebrks + [x].count newline := by
    split
    · next hnl =>
      rw [hnl, List.count_singleton_self] at hlimit ⊢
      exact add64_of_lt hlimit
    · next hnl => rw [List.count_cons_of_ne hnl, List.count_nil, Nat.add_zero]
  unfold scanByte
  simp only [hbrks]
  rw [if_neg (by omega)]
  exact ⟨_, rfl, rfl⟩

/-- A chunk adds its newlines. -/
theorem scanChunk_missing {pos : Int} : ∀ {buf : List UInt8} {i : Int} {s : Scan},
    s.linebrks + buf.count newline < lineno → s.linebrks + buf.count newline < 2 ^ 64 →
    (scanChunk lineno pos buf i s).linebrks = s.linebrks + buf.count newline
  | [], _, _, _, _ => rfl
  | x :: buf, i, s, hmissing, hlimit => by
      have hcount : (x :: buf).count newline = [x].count newline + buf.count newline := by
        rw [← List.count_append]
        rfl
      rw [hcount] at hmissing hlimit ⊢
      have hone : s.linebrks + [x].count newline < lineno := by omega
      obtain ⟨s', hbyte, hs'⟩ := scanByte_missing hone (by omega) (int32 (pos + i))
      simp only [scanChunk, hbyte, Bool.false_eq_true, if_false]
      rw [scanChunk_missing (by omega) (by omega)]
      omega

/-- The search for a line that is missing counts all newlines. -/
theorem scanLoop_missing {sched : Schedule} (hs : sched.Smooth) (hc : cs.length < 2 ^ 31)
    (hmissing : cs.count newline < lineno) {fd1 : Int} {left : Nat} :
    ∀ {d : Nat} {pos : Int} {s : Scan} {k : Kernel}, d ≤ cs.length → cs.length < d + left →
      k.files theFile = cs → k.fds fd1 = some ⟨theFile, .rdonly, d⟩ →
      s.linebrks + (cs.drop d).count newline = cs.count newline →
      Ensures (scanLoop sched fd1 lineno left pos s) k fun s' k' =>
        s'.linebrks = cs.count newline ∧ k'.files = k.files ∧ k'.stdout = k.stdout := by
  have hcs : cs.count newline ≤ cs.length := List.count_le_length
  induction left with
  | zero =>
    intro d pos s k hd hleft
    omega
  | succ left ih =>
    intro d pos s k hd hleft hfile hfd hcount
    have hdrop : (k.files theFile).drop d = cs.drop d := by rw [hfile]
    rw [scanLoop]
    rcases read_cases hs.read (n := bufSize) (by decide) hfd (by simp) hdrop with
      ⟨hrest, hread⟩ | ⟨bytes, rest, hbytes, -, hrest, hread⟩
    · refine hread.step (.pure ⟨?_, rfl, rfl⟩)
      rwa [hrest, List.count_nil, Nat.add_zero] at hcount
    obtain ⟨x, l, rfl⟩ := List.exists_cons_of_ne_nil hbytes
    rw [hrest, List.count_append] at hcount
    have hchunk : (scanChunk lineno pos (x :: l) 0 s).linebrks =
        s.linebrks + (x :: l).count newline := scanChunk_missing (by omega) (by omega)
    refine hread.step ?_
    dsimp only
    rw [if_neg (by omega)]
    have hdrop' : cs.drop (d + (x :: l).length) = rest := by
      rw [← List.drop_drop, hrest, List.drop_left]
    have hlen := congrArg List.length hrest
    rw [List.length_drop, List.length_append, List.length_cons] at hlen
    refine (ih (d := d + (x :: l).length) (k := k.didRead fd1 ⟨theFile, .rdonly, d⟩ (x :: l)) ?_ ?_
      hfile (Kernel.didRead_fds_self ..) ?_).mono ?_
    · rw [List.length_cons]
      omega
    · rw [List.length_cons]
      omega
    · rw [hchunk, hdrop']
      omega
    · exact fun s' k' h => h

end

/-! ## The report -/

/-- The program reports the line missing, and leaves the file alone. -/
def ReportsMissing (sched : Schedule) (lineno : Nat) (content : List UInt8) : Prop :=
  Ends (mylined sched lineno) (start content) fun _ k =>
    k.stdout = ["No Line " ++ toString lineno ++ "\n"] ∧ k.files theFile = content

section

variable {sched : Schedule} {lineno : Nat} {content : List UInt8}

/-- A line is reported missing if there are not enough newlines. -/
theorem reportsMissing_of_lt (hs : sched.Smooth) (hlen : content.length < 2 ^ 31)
    (hmissing : content.count newline < lineno) : ReportsMissing sched lineno content := by
  have hscan : Ensures (scanLoop sched 3 lineno (content.length + 1) 0 ⟨0, 0, 0⟩) (opened content)
      fun s' k' => s'.linebrks = content.count newline ∧ k'.files = (opened content).files ∧
        k'.stdout = (opened content).stdout :=
    scanLoop_missing hs hlen hmissing (Nat.zero_le _) (by omega) rfl rfl (Nat.zero_add _)
  refine Ends.of_apply (hscan.ends ?_) (mylined_apply hs lineno content)
  rintro s k ⟨hbrks, hfiles, hstdout⟩
  let text := "No Line " ++ toString lineno ++ "\n"
  have hprint : Returns (print text) k () { k with stdout := text :: k.stdout } := rfl
  unfold finish
  rw [if_pos (hbrks ▸ hmissing)]
  refine hprint.ends ((close_apply _ _).ends ((close_apply _ _).ends
    ((exit_exits 0 _).ends ⟨?_, ?_⟩)))
  · exact congrArg (text :: ·) hstdout
  · exact congrFun hfiles theFile

/-- A line is reported missing exactly if there are not enough newlines. -/
theorem reportsMissing_iff (hs : sched.Smooth) (hlen : content.length < 2 ^ 31)
    (hpos : 1 ≤ lineno) : ReportsMissing sched lineno content ↔ content.count newline < lineno := by
  refine ⟨?_, reportsMissing_of_lt hs hlen⟩
  rintro ⟨status, k, hexit, hstdout, -⟩
  by_contra henough
  obtain ⟨m, rfl⟩ : ∃ m, lineno = m + 1 := ⟨lineno - 1, by omega⟩
  obtain ⟨u, v, w, h⟩ := exists_lineAt (c := content) (m := m) (by omega)
  obtain ⟨status', k', hexit', -, -, hquiet, -⟩ := mylined_ends hs h hlen
  obtain ⟨-, rfl⟩ := hexit.unique hexit'
  rw [hquiet] at hstdout
  cases hstdout

/-- A line is reported missing exactly if the file has fewer lines. -/
def ReportsRight (sched : Schedule) (lineno : Nat) (content : List UInt8) : Prop :=
  ∀ ls, IsLines content ls → (ReportsMissing sched lineno content ↔ ls.length < lineno)

/-- The report is right exactly if the line is not a last line without a newline. -/
theorem reportsRight_iff (hs : sched.Smooth) (hlen : content.length < 2 ^ 31)
    (hpos : 1 ≤ lineno) : ReportsRight sched lineno content ↔
      ¬ (lineno = content.count newline + 1 ∧ Unterminated content) := by
  have hcount : (content.count newline < lineno ↔ lineCount content < lineno) ↔
      ¬ (lineno = content.count newline + 1 ∧ Unterminated content) := by
    unfold lineCount
    by_cases htail : Unterminated content
    · simp only [htail, if_true, and_true]
      omega
    · simp only [htail, if_false, and_false, not_false_eq_true, Nat.add_zero]
  rw [← hcount, ← reportsMissing_iff hs hlen hpos]
  constructor
  · intro hright
    obtain ⟨ls, hls⟩ := exists_isLines content
    exact hls.length_eq ▸ hright ls hls
  · intro hright ls hls
    exact hls.length_eq ▸ hright

end

/-- The one line of a file has its newline, and only the second one is reported missing. -/
theorem reportsRight_second : ReportsRight .eager 2 [97, 10] := by
  refine (reportsRight_iff Schedule.eager_smooth (by decide) (by decide)).mpr fun hbad => ?_
  exact hbad.2.2 rfl

/-- A file of one byte has one line, but it is reported missing. -/
theorem not_reportsRight_first : Schedule.eager.Smooth ∧ [(97 : UInt8)].length < 2 ^ 31 ∧
    IsLines [97] [[97]] ∧ ReportsMissing .eager 1 [97] ∧ ¬ ReportsRight .eager 1 [97] := by
  have hreports : ReportsMissing .eager 1 [97] :=
    reportsMissing_of_lt Schedule.eager_smooth (by decide) (by decide)
  have hline : IsLines [97] [[97]] := ⟨rfl, by simp, by simp⟩
  refine ⟨Schedule.eager_smooth, by decide, hline, hreports, fun hright => ?_⟩
  exact absurd ((hright _ hline).mp hreports) (by decide)

end CToys.Sysio
