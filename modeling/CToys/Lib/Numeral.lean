import Mathlib.Data.Nat.Digits.Lemmas
import Mathlib.Data.List.TakeWhile

/-!
# Numerals

A numeral is a row of digits, written as bytes, in a base of at most 36.  `numeral base n` is
the shortest one for `n`, and `numberOf base` is the number that any row of digits stands for,
so one undoes the other (`numberOf_numeral`).

A reader takes all the digits there are, so what it finds depends on what is behind the
numeral.  It finds the numeral itself if no further digit is (`takeWhile_numeral`).
-/

namespace CToys

/-- `isspace`. -/
def isSpace (c : UInt8) : Bool := c = 32 || (9 ≤ c && c ≤ 13)

/-- The value of a digit or a letter. -/
def digitVal? (c : UInt8) : Option Nat :=
  if 48 ≤ c ∧ c ≤ 57 then some (c.toNat - 48)
  else if 97 ≤ c ∧ c ≤ 122 then some (c.toNat - 87)
  else if 65 ≤ c ∧ c ≤ 90 then some (c.toNat - 55)
  else none

/-- The byte is a digit in this base. -/
def isDigit (base : Nat) (c : UInt8) : Bool := (digitVal? c).any (· < base)

/-- The number that some digits stand for. -/
def numberOf (base : Nat) (ds : List UInt8) : Nat :=
  ds.foldl (fun n c => n * base + (digitVal? c).getD 0) 0

/-- The digit for a value below 36. -/
def digitByte (d : Nat) : UInt8 := UInt8.ofNat (if d < 10 then 48 + d else 87 + d)

/-- The numeral for a number. -/
def numeral (base n : Nat) : List UInt8 :=
  if n = 0 then [48] else (Nat.digits base n).reverse.map digitByte

section

variable {base n d : Nat} {c : UInt8} {ds rest : List UInt8}

@[simp] theorem numberOf_nil : numberOf base [] = 0 := rfl

theorem numberOf_concat :
    numberOf base (ds ++ [c]) = numberOf base ds * base + (digitVal? c).getD 0 := by
  rw [numberOf, List.foldl_append]
  rfl

theorem digitVal?_digitByte (h : d < 36) : digitVal? (digitByte d) = some d := by
  revert d
  decide

theorem isDigit_digitByte (hbase : base ≤ 36) (h : d < base) : isDigit base (digitByte d) := by
  rw [isDigit, digitVal?_digitByte (by omega)]
  simpa using h

theorem numeral_ne_nil : numeral base n ≠ [] := by
  unfold numeral
  split
  · nofun
  · next hn => simpa [Nat.digits_eq_nil_iff_eq_zero] using hn

theorem numeral_isDigit (hbase : 1 < base) (hle : base ≤ 36) (hc : c ∈ numeral base n) :
    isDigit base c := by
  unfold numeral at hc
  split at hc
  · obtain rfl := List.mem_singleton.mp hc
    exact isDigit_digitByte (d := 0) hle (by omega)
  · obtain ⟨d, hd, rfl⟩ := List.mem_map.mp hc
    exact isDigit_digitByte hle (Nat.digits_lt_base hbase (List.mem_reverse.mp hd))

/-- Digits from the last one on. -/
theorem numberOf_reverse (l : List Nat) (hl : ∀ d ∈ l, d < 36) :
    numberOf base (l.reverse.map digitByte) = Nat.ofDigits base l := by
  induction l with
  | nil => rfl
  | cons d l ih =>
    obtain ⟨hd, hl⟩ := List.forall_mem_cons.mp hl
    rw [List.reverse_cons, List.map_append, List.map_singleton, numberOf_concat, ih hl,
      digitVal?_digitByte hd, Option.getD_some, Nat.ofDigits_cons, Nat.mul_comm, Nat.add_comm]

theorem numberOf_numeral (hbase : 1 < base) (hle : base ≤ 36) :
    numberOf base (numeral base n) = n := by
  unfold numeral
  split
  · next hn =>
    simp [hn, numberOf, digitVal?]
  · rw [numberOf_reverse _ fun d hd => (Nat.digits_lt_base hbase hd).trans_le hle,
      Nat.ofDigits_digits]

theorem takeWhile_numeral (hbase : 1 < base) (hle : base ≤ 36)
    (hrest : ∀ c ∈ rest.head?, isDigit base c = false) :
    (numeral base n ++ rest).takeWhile (isDigit base) = numeral base n := by
  rw [List.takeWhile_append_of_pos fun c hc => numeral_isDigit hbase hle hc]
  cases rest with
  | nil => rw [List.takeWhile_nil, List.append_nil]
  | cons c rest =>
    rw [List.takeWhile_cons_of_neg (by simpa using hrest c rfl), List.append_nil]

/-- A digit is no space. -/
theorem isSpace_of_isDigit (h : isDigit base c) : isSpace c = false := by
  have hval : digitVal? c ≠ none := by
    intro hnone
    simp [isDigit, hnone] at h
  unfold digitVal? at hval
  unfold isSpace
  simp only [UInt8.le_iff_toNat_le, ← UInt8.toNat_inj, UInt8.toNat_ofNat, Bool.or_eq_false_iff,
    Bool.and_eq_false_iff, decide_eq_false_iff_not] at hval ⊢
  split at hval
  · omega
  · split at hval
    · omega
    · split at hval
      · omega
      · exact absurd rfl hval

theorem isDigit_of_isSpace (h : isSpace c) : isDigit base c = false := by
  by_contra hc
  rw [Bool.not_eq_false] at hc
  exact Bool.false_ne_true ((isSpace_of_isDigit hc).symm.trans h)

end

end CToys
