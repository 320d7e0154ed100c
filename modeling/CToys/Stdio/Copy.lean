import CToys.Lib.Lines
import CToys.Lib.Process
import Mathlib.Data.List.TakeWhile

/-!
# Copying with standard I/O

`mycp_fgetc` copies byte by byte.  `mycp_fgets` copies pieces of at most 1023 bytes that
end at a newline, and takes each piece for a string.

`fputs` writes a string up to its first zero byte, so the two agree exactly on files without
zero bytes.  Otherwise `mycp_fgets` leaves out the zero byte and what is behind it in the
same piece, and the copy is shorter than the source.
-/

namespace CToys.Stdio

/-- `BUFSIZE`. -/
def bufSize : Nat := 1024

/-- The open streams and the buffer. -/
structure Streams where
  /-- What is left to read of the source. -/
  fps : List UInt8
  /-- What was written to the destination. -/
  fpd : List UInt8
  /-- The bytes of `buf`. -/
  buf : Nat → UInt8

/-- The bytes that `fgets` reads: at most `left`, and none after a newline. -/
def piece : (left : Nat) → List UInt8 → List UInt8
  | 0, _ => []
  | _, [] => []
  | left + 1, c :: cs => c :: if c = newline then [] else piece left cs

/-- The buffer with a string and its terminating zero byte. -/
def withString (buf : Nat → UInt8) (str : List UInt8) : Nat → UInt8 := fun i =>
  if i < str.length then str.getD i 0 else if i = str.length then 0 else buf i

/-- `fgets` into the buffer, and whether the result is not `NULL`. -/
def fgets (size : Nat) : Process Streams Bool := fun s =>
  if s.fps.isEmpty then .ok (false, s)
  else
    let str := piece (size - 1) s.fps
    .ok (true, { s with fps := s.fps.drop str.length, buf := withString s.buf str })

/-- The string in the buffer from index `i` on, if it ends within `left` bytes. -/
def stringAt (buf : Nat → UInt8) : (left i : Nat) → Option (List UInt8)
  | 0, _ => none
  | left + 1, i =>
      if buf i = 0 then some [] else (stringAt buf left (i + 1)).map (buf i :: ·)

/-- `fputs` of the buffer. -/
def fputs : Process Streams Unit := fun s =>
  match stringAt s.buf bufSize 0 with
  | none => .error .bounds
  | some str => .ok ((), { s with fpd := s.fpd ++ str })

/-- `fgetc`, with `none` for `EOF`. -/
def fgetc : Process Streams (Option UInt8) := fun s =>
  match s.fps with
  | [] => .ok (none, s)
  | c :: cs => .ok (some c, { s with fps := cs })

/-- `fputc`. -/
def fputc (c : UInt8) : Process Streams Unit := fun s => .ok ((), { s with fpd := s.fpd ++ [c] })

/-- The loop of `mycp_fgets`. -/
def fgetsLoop : (left : Nat) → Process Streams Unit
  | 0 => throw .diverges
  | left + 1 => do
      if ← fgets bufSize then
        fputs
        fgetsLoop left
      else return ()

/-- The loop of `mycp_fgetc`. -/
def fgetcLoop : (left : Nat) → Process Streams Unit
  | 0 => throw .diverges
  | left + 1 => do
      match ← fgetc with
      | none => return ()
      | some c =>
          fputc c
          fgetcLoop left

/-- `mycp_fgets` on open streams.  A round reads at least one byte. -/
def mycpFgets : Process Streams Unit := do
  let s ← get
  fgetsLoop (s.fps.length + 1)
  exit 0

/-- `mycp_fgetc` on open streams. -/
def mycpFgetc : Process Streams Unit := do
  let s ← get
  fgetcLoop (s.fps.length + 1)
  exit 0

/-- A source to be read, an empty destination, and any buffer. -/
def start (source : List UInt8) (buf : Nat → UInt8) : Streams := ⟨source, [], buf⟩

/-! ## Byte by byte -/

theorem fgetcLoop_ensures {left : Nat} : ∀ {s : Streams}, s.fps.length < left →
    Ensures (fgetcLoop left) s fun _ s' => s'.fpd = s.fpd ++ s.fps := by
  induction left with
  | zero =>
    intro s hleft
    omega
  | succ left ih =>
    intro s hleft
    obtain ⟨fps, fpd, buf⟩ := s
    rw [fgetcLoop]
    cases fps with
    | nil =>
      have hread : Returns fgetc ⟨[], fpd, buf⟩ none ⟨[], fpd, buf⟩ := rfl
      exact hread.step (.pure (List.append_nil _).symm)
    | cons c cs =>
      have hread : Returns fgetc ⟨c :: cs, fpd, buf⟩ (some c) ⟨cs, fpd, buf⟩ := rfl
      have hwrite : Returns (fputc c) ⟨cs, fpd, buf⟩ () ⟨cs, fpd ++ [c], buf⟩ := rfl
      refine hread.step (hwrite.step ((ih (Nat.lt_of_succ_lt_succ hleft)).mono ?_))
      intro _ s' hs'
      rw [hs', List.append_assoc, List.singleton_append]

/-- The copy is the source. -/
theorem mycpFgetc_ends (source : List UInt8) (buf : Nat → UInt8) :
    Ends mycpFgetc (start source buf) fun status s => status = 0 ∧ s.fpd = source := by
  have hget : Returns (get : Process Streams Streams) (start source buf) _ _ := rfl
  refine hget.ends ((fgetcLoop_ensures (Nat.lt_succ_self _)).ends ?_)
  intro _ s hs
  exact (exit_exits 0 s).ends ⟨rfl, hs⟩

/-! ## Piece by piece -/

theorem piece_prefix : ∀ (left : Nat) (l : List UInt8), ∃ rest, l = piece left l ++ rest
  | 0, l => ⟨l, rfl⟩
  | _ + 1, [] => ⟨[], rfl⟩
  | left + 1, c :: cs => by
      rw [piece]
      split
      · exact ⟨cs, rfl⟩
      · obtain ⟨rest, hrest⟩ := piece_prefix left cs
        exact ⟨rest, congrArg (c :: ·) hrest⟩

theorem piece_length_le : ∀ (left : Nat) (l : List UInt8), (piece left l).length ≤ left
  | 0, _ => Nat.le_refl _
  | _ + 1, [] => Nat.zero_le _
  | left + 1, c :: cs => by
      rw [piece, List.length_cons]
      split
      · exact Nat.succ_le_succ (Nat.zero_le _)
      · exact Nat.succ_le_succ (piece_length_le left cs)

/-- What `fputs` finds in the buffer after `fgets`. -/
theorem stringAt_withString {buf : Nat → UInt8} : ∀ {str done : List UInt8} {left : Nat},
    str.length < left →
      stringAt (withString buf (done ++ str)) left done.length = some (str.takeWhile (· ≠ 0))
  | _, _, 0, hleft => absurd hleft (Nat.not_lt_zero _)
  | [], done, left + 1, _ => by
      have hend : withString buf (done ++ []) done.length = 0 := by simp [withString]
      rw [stringAt, if_pos hend]
      rfl
  | c :: cs, done, left + 1, hleft => by
      have hc : withString buf (done ++ c :: cs) done.length = c := by simp [withString]
      rw [stringAt, hc]
      by_cases hzero : c = 0
      · rw [if_pos hzero, List.takeWhile_cons_of_neg (by simpa using hzero)]
      · have ih : stringAt (withString buf (done ++ [c] ++ cs)) left (done ++ [c]).length
            = some (cs.takeWhile (· ≠ 0)) := stringAt_withString (Nat.lt_of_succ_lt_succ hleft)
        rw [List.append_assoc, List.singleton_append, List.length_append,
          List.length_singleton] at ih
        rw [if_neg hzero, ih, List.takeWhile_cons_of_pos (by simpa using hzero), Option.map_some]

/-- A string with a zero byte among its bytes is cut there. -/
theorem takeWhile_length_lt {str : List UInt8} (h : 0 ∈ str) :
    (str.takeWhile (· ≠ 0)).length < str.length := by
  induction str with
  | nil => cases h
  | cons c cs ih =>
    by_cases hzero : c = 0
    · rw [List.takeWhile_cons_of_neg (by simpa using hzero)]
      exact Nat.succ_pos _
    · rw [List.takeWhile_cons_of_pos (by simpa using hzero)]
      exact Nat.succ_lt_succ (ih ((List.mem_cons.mp h).resolve_left (Ne.symm hzero)))

theorem takeWhile_eq_self {str : List UInt8} (h : 0 ∉ str) : str.takeWhile (· ≠ 0) = str :=
  List.takeWhile_eq_self_iff.mpr fun c hc => by
    simpa using fun hzero : c = 0 => h (hzero ▸ hc)

/-- A round moves the next piece, up to its first zero byte. -/
theorem fgets_fputs_returns {s : Streams} (hs : s.fps ≠ []) :
    ∃ str rest s₁ s₂, str ≠ [] ∧ s.fps = str ++ rest ∧ Returns (fgets bufSize) s true s₁ ∧
      Returns fputs s₁ () s₂ ∧ s₂.fps = rest ∧ s₂.fpd = s.fpd ++ str.takeWhile (· ≠ 0) := by
  obtain ⟨fps, fpd, buf⟩ := s
  obtain ⟨c, cs, rfl⟩ := List.exists_cons_of_ne_nil hs
  obtain ⟨rest, hrest⟩ := piece_prefix 1023 (c :: cs)
  have hlen := piece_length_le 1023 (c :: cs)
  have hne : piece 1023 (c :: cs) ≠ [] := nofun
  have hread : Returns (fgets bufSize) ⟨c :: cs, fpd, buf⟩ true
      ⟨(c :: cs).drop (piece 1023 (c :: cs)).length, fpd,
        withString buf (piece 1023 (c :: cs))⟩ := rfl
  generalize piece 1023 (c :: cs) = str at hrest hlen hne hread
  rw [hrest, List.drop_left] at hread
  rw [hrest]
  have hstr : stringAt (withString buf ([] ++ str)) bufSize ([] : List UInt8).length
      = some (str.takeWhile (· ≠ 0)) := stringAt_withString (Nat.lt_succ_of_le hlen)
  rw [List.nil_append, List.length_nil] at hstr
  have hwrite : Returns fputs ⟨rest, fpd, withString buf str⟩ ()
      ⟨rest, fpd ++ str.takeWhile (· ≠ 0), withString buf str⟩ := by
    unfold Returns fputs
    simp only [hstr]
  exact ⟨str, rest, _, _, hne, rfl, hread, hwrite, rfl, rfl⟩

/-- The copy is the source if there is no zero byte left, and shorter if there is one. -/
theorem fgetsLoop_ensures {left : Nat} : ∀ {s : Streams}, s.fps.length < left →
    Ensures (fgetsLoop left) s fun _ s' =>
      (0 ∉ s.fps → s'.fpd = s.fpd ++ s.fps) ∧
        s'.fpd.length ≤ s.fpd.length + s.fps.length ∧
        (0 ∈ s.fps → s'.fpd.length < s.fpd.length + s.fps.length) := by
  induction left with
  | zero =>
    intro s hleft
    omega
  | succ left ih =>
    intro s hleft
    rw [fgetsLoop]
    by_cases hs : s.fps = []
    · have hread : Returns (fgets bufSize) s false s := if_pos (by simp [hs])
      refine hread.step (.pure ?_)
      simp [hs]
    obtain ⟨str, rest, s₁, s₂, hne, hsplit, hread, hwrite, hfps, hfpd⟩ := fgets_fputs_returns hs
    have hpos := List.length_pos_of_ne_nil hne
    have hshort : (str.takeWhile (· ≠ 0)).length ≤ str.length :=
      (List.takeWhile_prefix _).length_le
    rw [hsplit, List.length_append] at hleft
    refine hread.step (hwrite.step ((ih (s := s₂) (by rw [hfps]; omega)).mono ?_))
    rintro _ s' ⟨hall, hle, hlt⟩
    rw [hfps, hfpd, List.length_append] at hle hlt
    rw [hfps, hfpd] at hall
    rw [hsplit, List.length_append]
    refine ⟨fun hzero => ?_, by omega, fun hzero => ?_⟩
    · rw [List.mem_append, not_or] at hzero
      rw [hall hzero.2, takeWhile_eq_self hzero.1, List.append_assoc]
    · rcases List.mem_append.mp hzero with hstr | hrest
      · have := takeWhile_length_lt hstr
        omega
      · have := hlt hrest
        omega

/-! ## Agreement -/

/-- Both programs make the same copy, and it is the source. -/
def Agree (source : List UInt8) (buf : Nat → UInt8) : Prop :=
  ∃ s s', Exits mycpFgets (start source buf) 0 s ∧ Exits mycpFgetc (start source buf) 0 s' ∧
    s.fpd = s'.fpd ∧ s'.fpd = source

/-- They agree exactly on sources without zero bytes. -/
theorem agree_iff (source : List UInt8) (buf : Nat → UInt8) : Agree source buf ↔ 0 ∉ source := by
  obtain ⟨status', s', hexit', rfl, hcopy'⟩ := mycpFgetc_ends source buf
  have hget : Returns (get : Process Streams Streams) (start source buf) _ _ := rfl
  obtain ⟨_, s, hloop, hall, -, hlt⟩ := fgetsLoop_ensures (s := start source buf)
    (Nat.lt_succ_self source.length)
  have hexit : Exits mycpFgets (start source buf) 0 s :=
    hget.bind_fails (hloop.bind_fails (exit_exits 0 s))
  constructor
  · rintro ⟨t, t', ht, ht', hsame, hsource⟩ hzero
    obtain ⟨-, rfl⟩ := hexit.unique ht
    have hshort := hlt hzero
    rw [hsame, hsource] at hshort
    exact absurd hshort (by simp [start])
  · intro hzero
    exact ⟨s, s', hexit, hexit', by rw [hcopy']; exact hall hzero, hcopy'⟩

/-- A zero byte and what follows it are missing. -/
theorem not_agree_zero : ¬ Agree [0, 97, 10] (fun _ => 0) := by
  have hrun : atExit Streams.fpd mycpFgets (start [0, 97, 10] fun _ => 0) = some (0, []) := by
    decide
  rintro ⟨t, t', ht, -, hsame, hsource⟩
  obtain ⟨s, hexit, hempty⟩ := Exits.of_atExit hrun
  obtain ⟨-, rfl⟩ := hexit.unique ht
  rw [hempty, hsource] at hsame
  cases hsame

end CToys.Stdio
