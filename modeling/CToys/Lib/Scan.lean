import CToys.Lib.Numeral
import CToys.Lib.Process

/-!
# Formatted input

The conversions `%d`, `%u` and `%s` of `fscanf`, and a literal character behind one.  The
state is what is left of the file.  Each conversion skips spaces first, a number is the longest
row of digits with or without a sign, and a word ends at the next space.  The result is `none`
where C reports that nothing was converted, and the variable keeps its value then.

A number that does not fit is cut off at the bounds, as by `strtol` and `strtoul`.  C leaves
this open, and no result rests on it.
-/

namespace CToys

/-- An optional sign, and whether it is a minus. -/
def splitSign : List UInt8 → Bool × List UInt8
  | [] => (false, [])
  | c :: s => if c = 45 then (true, s) else if c = 43 then (false, s) else (false, c :: s)

namespace Scan

/-- Programs that read a file. -/
abbrev Reader : Type → Type := Process (List UInt8)

/-- A sign and digits, behind spaces. -/
def number : Reader (Option (Bool × Nat)) := fun s =>
  let (neg, s) := splitSign (s.dropWhile isSpace)
  let ds := s.takeWhile (isDigit 10)
  .ok (if ds.isEmpty then none else some (neg, numberOf 10 ds), s.drop ds.length)

/-- The `int` for a sign and digits. -/
def toInt : Bool × Nat → Int
  | (false, n) => min n (2 ^ 31 - 1)
  | (true, n) => max (-n) (-2 ^ 31)

/-- The `unsigned` for a sign and digits. -/
def toUnsigned : Bool × Nat → Nat
  | (false, n) => min n (2 ^ 32 - 1)
  | (true, n) => if n < 2 ^ 32 then (2 ^ 32 - n) % 2 ^ 32 else 2 ^ 32 - 1

/-- `%d`. -/
def scanD : Reader (Option Int) := do return (← number).map toInt

/-- `%u`. -/
def scanU : Reader (Option Nat) := do return (← number).map toUnsigned

/-- `%s`. -/
def scanS : Reader (Option (List UInt8)) := fun s =>
  let s := s.dropWhile isSpace
  let word := s.takeWhile fun c => !isSpace c
  .ok (if s.isEmpty then none else some word, s.drop word.length)

/-- A character that the format names.  It is taken if it is next. -/
def literal (c : UInt8) : Reader Unit := fun s =>
  .ok ((), if s.head? = some c then s.drop 1 else s)

/-- `%u %u`.  The second number is not looked for if there is no first one. -/
def scanUU : Reader (Option Nat × Option Nat) := do
  match ← scanU with
  | none => return (none, none)
  | some m => return (some m, ← scanU)

/-- `%u` and a character behind it. -/
def scanULit (c : UInt8) : Reader (Option Nat) := do
  match ← scanU with
  | none => return none
  | some n =>
      literal c
      return some n

/-! ## What is read -/

section

variable {n : Nat} {c : UInt8} {ds sp rest word : List UInt8}

theorem dropWhile_isSpace (hsp : ∀ c ∈ sp, isSpace c)
    (hrest : ∀ c ∈ rest.head?, isSpace c = false) : (sp ++ rest).dropWhile isSpace = rest := by
  rw [List.dropWhile_append_of_pos hsp]
  cases rest with
  | nil => rfl
  | cons c rest => exact List.dropWhile_cons_of_neg (by simpa using hrest c rfl)

/-- A numeral without a sign. -/
theorem splitSign_digits (hds : ∀ c ∈ ds, isDigit 10 c) (hne : ds ≠ []) :
    splitSign (ds ++ rest) = (false, ds ++ rest) := by
  obtain ⟨c, l, rfl⟩ := List.exists_cons_of_ne_nil hne
  have hc := hds c List.mem_cons_self
  have h45 : c ≠ 45 := by
    rintro rfl
    revert hc
    decide
  have h43 : c ≠ 43 := by
    rintro rfl
    revert hc
    decide
  rw [List.cons_append, splitSign, if_neg h45, if_neg h43]

/-- The first byte of a numeral is no space. -/
theorem head_numeral (n : Nat) : ∀ c ∈ (numeral 10 n ++ rest).head?, isSpace c = false := by
  obtain ⟨c, l, heq⟩ := List.exists_cons_of_ne_nil (numeral_ne_nil : numeral 10 n ≠ [])
  have hc : isDigit 10 c :=
    numeral_isDigit (n := n) (by decide) (by decide) (heq ▸ List.mem_cons_self)
  rw [heq]
  rintro _ ⟨⟩
  exact isSpace_of_isDigit hc

/-- What is read when the sign is split off. -/
theorem number_returns {neg : Bool} {s : List UInt8} (n : Nat)
    (hsign : splitSign (s.dropWhile isSpace) = (neg, numeral 10 n ++ rest))
    (hrest : ∀ c ∈ rest.head?, isDigit 10 c = false) :
    Returns number s (some (neg, n)) rest := by
  have hempty : (numeral 10 n).isEmpty = false := by simpa using numeral_ne_nil
  unfold Returns number
  simp only [hsign, takeWhile_numeral (by decide) (by decide) hrest, hempty, Bool.false_eq_true,
    if_false, numberOf_numeral (by decide : 1 < 10) (by decide), List.drop_left]

/-- A numeral behind spaces, with something else behind it. -/
theorem number_numeral (n : Nat) (hsp : ∀ c ∈ sp, isSpace c)
    (hrest : ∀ c ∈ rest.head?, isDigit 10 c = false) :
    Returns number (sp ++ (numeral 10 n ++ rest)) (some (false, n)) rest := by
  refine number_returns n ?_ hrest
  rw [dropWhile_isSpace hsp (head_numeral n)]
  exact splitSign_digits (fun c hc => numeral_isDigit (by decide) (by decide) hc) numeral_ne_nil

/-- A numeral behind a minus. -/
theorem number_minus (n : Nat) (hsp : ∀ c ∈ sp, isSpace c)
    (hrest : ∀ c ∈ rest.head?, isDigit 10 c = false) :
    Returns number (sp ++ (45 :: numeral 10 n ++ rest)) (some (true, n)) rest := by
  refine number_returns n ?_ hrest
  rw [dropWhile_isSpace hsp (by rintro _ ⟨⟩; decide)]
  rfl

/-- The numeral for an integer. -/
def intNumeral (z : Int) : List UInt8 :=
  if z < 0 then 45 :: numeral 10 z.natAbs else numeral 10 z.natAbs

theorem scanD_intNumeral {z : Int} (hlo : -2 ^ 31 ≤ z) (hhi : z < 2 ^ 31)
    (hsp : ∀ c ∈ sp, isSpace c) (hrest : ∀ c ∈ rest.head?, isDigit 10 c = false) :
    Returns scanD (sp ++ (intNumeral z ++ rest)) (some z) rest := by
  unfold intNumeral scanD
  by_cases hz : z < 0
  · rw [if_pos hz]
    have hval : toInt (true, z.natAbs) = z := by
      simp only [toInt]
      omega
    exact (number_minus z.natAbs hsp hrest).map_pure (congrArg some hval)
  · rw [if_neg hz]
    have hval : toInt (false, z.natAbs) = z := by
      simp only [toInt]
      omega
    exact (number_numeral z.natAbs hsp hrest).map_pure (congrArg some hval)

theorem scanU_numeral {n : Nat} (hn : n < 2 ^ 32) (hsp : ∀ c ∈ sp, isSpace c)
    (hrest : ∀ c ∈ rest.head?, isDigit 10 c = false) :
    Returns scanU (sp ++ (numeral 10 n ++ rest)) (some n) rest := by
  have hval : toUnsigned (false, n) = n := by
    simp only [toUnsigned]
    omega
  exact (number_numeral n hsp hrest).map_pure (congrArg some hval)

theorem literal_returns {s : List UInt8} (h : s.head? ≠ some c) : Returns (literal c) s () s := by
  unfold Returns literal
  rw [if_neg h]

/-- Two numerals behind spaces. -/
theorem scanUU_numerals {m n : Nat} {sp' : List UInt8} (hm : m < 2 ^ 32) (hn : n < 2 ^ 32)
    (hsp : ∀ c ∈ sp, isSpace c) (hsp' : ∀ c ∈ sp', isSpace c) (hne : sp' ≠ [])
    (hrest : ∀ c ∈ rest.head?, isDigit 10 c = false) :
    Returns scanUU (sp ++ (numeral 10 m ++ (sp' ++ (numeral 10 n ++ rest)))) (some m, some n)
      rest := by
  have hhead : ∀ c ∈ (sp' ++ (numeral 10 n ++ rest)).head?, isDigit 10 c = false := by
    obtain ⟨c, l, rfl⟩ := List.exists_cons_of_ne_nil hne
    rintro _ ⟨⟩
    exact isDigit_of_isSpace (hsp' c List.mem_cons_self)
  exact (scanU_numeral hm hsp hhead).bind ((scanU_numeral hn hsp' hrest).map_pure rfl)

/-- A numeral that the character is not behind. -/
theorem scanULit_numeral {n : Nat} (hn : n < 2 ^ 32) (hsp : ∀ c ∈ sp, isSpace c)
    (hrest : ∀ c ∈ rest.head?, isDigit 10 c = false) (hc : rest.head? ≠ some c) :
    Returns (scanULit c) (sp ++ (numeral 10 n ++ rest)) (some n) rest :=
  (scanU_numeral hn hsp hrest).bind ((literal_returns hc).bind (.pure _ _))

/-- A word behind spaces, with a space or nothing behind it. -/
theorem scanS_word (hsp : ∀ c ∈ sp, isSpace c) (hne : word ≠ [])
    (hword : ∀ c ∈ word, isSpace c = false) (hrest : ∀ c ∈ rest.head?, isSpace c) :
    Returns scanS (sp ++ (word ++ rest)) (some word) rest := by
  obtain ⟨c, l, rfl⟩ := List.exists_cons_of_ne_nil hne
  have hhead : ∀ x ∈ (c :: l ++ rest).head?, isSpace x = false := by
    rintro _ ⟨⟩
    exact hword c List.mem_cons_self
  have htake : (c :: l ++ rest).takeWhile (fun c => !isSpace c) = c :: l := by
    rw [List.takeWhile_append_of_pos (by simpa using hword)]
    cases rest with
    | nil => rw [List.takeWhile_nil, List.append_nil]
    | cons x rest =>
      rw [List.takeWhile_cons_of_neg (by simpa using hrest x rfl), List.append_nil]
  unfold Returns scanS
  simp only [dropWhile_isSpace hsp hhead, htake, List.drop_left]
  rfl

/-- The end of the file. -/
theorem scanS_end (hsp : ∀ c ∈ sp, isSpace c) : Returns scanS sp none [] := by
  have hdrop : sp.dropWhile isSpace = [] := List.dropWhile_eq_nil_iff.mpr hsp
  unfold Returns scanS
  simp only [hdrop]
  rfl

/-! ## How much is read -/

variable (s : List UInt8)

theorem splitSign_length_le : (splitSign s).2.length ≤ s.length := by
  cases s with
  | nil => rfl
  | cons c s =>
    rw [splitSign]
    split
    · exact Nat.le_succ _
    · split
      · exact Nat.le_succ _
      · rfl

theorem number_ensures : Ensures number s fun _ s' => s'.length ≤ s.length := by
  refine ⟨_, _, rfl, ?_⟩
  have hsign := splitSign_length_le (s.dropWhile isSpace)
  have hspace := (List.dropWhile_suffix isSpace (l := s)).length_le
  exact (List.drop_sublist ..).length_le.trans (hsign.trans hspace)

theorem scanD_ensures : Ensures scanD s fun _ s' => s'.length ≤ s.length :=
  (number_ensures s).bind fun _ _ h => .pure h

theorem scanU_ensures : Ensures scanU s fun _ s' => s'.length ≤ s.length :=
  (number_ensures s).bind fun _ _ h => .pure h

/-- A word has at least one byte. -/
theorem scanS_ensures : Ensures scanS s fun word s' => word ≠ none → s'.length < s.length := by
  refine ⟨_, _, rfl, ?_⟩
  have hspace := (List.dropWhile_suffix isSpace (l := s)).length_le
  cases hs : s.dropWhile isSpace with
  | nil => nofun
  | cons c l =>
    have hc : isSpace c = false := by
      have hhead := List.head?_dropWhile_not isSpace s
      rw [hs] at hhead
      simpa using hhead
    intro _
    rw [hs] at hspace
    simp only [List.takeWhile_cons, hc, Bool.not_false, if_true, List.length_cons,
      List.drop_succ_cons, List.length_drop] at hspace ⊢
    omega

theorem literal_ensures (c : UInt8) : Ensures (literal c) s fun _ s' => s'.length ≤ s.length := by
  refine ⟨_, _, rfl, ?_⟩
  split
  · rw [List.length_drop]
    exact Nat.sub_le ..
  · rfl

theorem scanUU_ensures : Ensures scanUU s fun _ s' => s'.length ≤ s.length := by
  refine (scanU_ensures s).bind fun m s₁ h₁ => ?_
  cases m with
  | none => exact .pure h₁
  | some m => exact (scanU_ensures s₁).bind fun n s₂ h₂ => .pure (h₂.trans h₁)

theorem scanULit_ensures (c : UInt8) :
    Ensures (scanULit c) s fun _ s' => s'.length ≤ s.length := by
  refine (scanU_ensures s).bind fun n s₁ h₁ => ?_
  cases n with
  | none => exact .pure h₁
  | some n => exact (literal_ensures s₁ c).bind fun _ s₂ h₂ => .pure (h₂.trans h₁)

end

end Scan

end CToys
