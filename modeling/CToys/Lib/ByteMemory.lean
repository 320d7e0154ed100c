import Mathlib.Algebra.Ring.Nat

/-!
# Byte memories

A memory is a total map from addresses to bytes.  A 32-bit word is four consecutive
bytes, the least significant one first, and a copy moves a range of bytes.  Reading and
writing obey the usual equations: a word that was just written reads back, and a read
that misses the written bytes is unchanged.

Agreement on a set of addresses, `AgreeOn`, is the frame condition of everything built
on top.  A word depends only on its own four bytes (`word_congr`).
-/

namespace CToys

/-- A byte memory. -/
abbrev Memory : Type := Nat → UInt8

namespace Memory

/-- The little-endian word at `a`. -/
def word (m : Memory) (a : Nat) : Nat :=
  (m a).toNat + 2 ^ 8 * (m (a + 1)).toNat + 2 ^ 16 * (m (a + 2)).toNat
    + 2 ^ 24 * (m (a + 3)).toNat

/-- Store the low 32 bits of `v` at `a`. -/
def setWord (m : Memory) (a v : Nat) : Memory := fun b =>
  if b = a then UInt8.ofNat v
  else if b = a + 1 then UInt8.ofNat (v / 2 ^ 8)
  else if b = a + 2 then UInt8.ofNat (v / 2 ^ 16)
  else if b = a + 3 then UInt8.ofNat (v / 2 ^ 24)
  else m b

/-- Copy `n` bytes from `src` to `dst`. -/
def copy (m : Memory) (dst src n : Nat) : Memory := fun b =>
  if dst ≤ b ∧ b < dst + n then m (src + (b - dst)) else m b

/-- Store one byte. -/
def setByte (m : Memory) (a : Nat) (v : UInt8) : Memory := fun b =>
  if b = a then v else m b

/-- Two memories agree on the addresses of `S`. -/
def AgreeOn (m m' : Memory) (S : Nat → Prop) : Prop := ∀ a, S a → m' a = m a

/-! ## Words -/

theorem word_lt (m : Memory) (a : Nat) : m.word a < 2 ^ 32 := by
  have h0 := (m a).toNat_lt
  have h1 := (m (a + 1)).toNat_lt
  have h2 := (m (a + 2)).toNat_lt
  have h3 := (m (a + 3)).toNat_lt
  simp only [word]
  omega

theorem word_setWord (m : Memory) (a v : Nat) : (m.setWord a v).word a = v % 2 ^ 32 := by
  simp [word, setWord]
  omega

theorem setWord_apply_of_ne {m : Memory} {a v b : Nat} (h : b < a ∨ a + 4 ≤ b) :
    m.setWord a v b = m b := by
  have h0 : b ≠ a := by omega
  have h1 : b ≠ a + 1 := by omega
  have h2 : b ≠ a + 2 := by omega
  have h3 : b ≠ a + 3 := by omega
  simp [setWord, h0, h1, h2, h3]

/-- A word depends only on its own four bytes. -/
theorem word_congr {m m' : Memory} {a : Nat} (h : ∀ b, a ≤ b → b < a + 4 → m' b = m b) :
    m'.word a = m.word a := by
  simp only [word]
  rw [h a (by omega) (by omega), h (a + 1) (by omega) (by omega),
    h (a + 2) (by omega) (by omega), h (a + 3) (by omega) (by omega)]

theorem word_setWord_of_disjoint {m : Memory} {a b v : Nat} (h : b + 4 ≤ a ∨ a + 4 ≤ b) :
    (m.setWord a v).word b = m.word b := by
  refine word_congr fun c hc hc' => setWord_apply_of_ne ?_
  omega

/-- A word determines its bytes. -/
theorem eq_of_word_eq {m m' : Memory} {a b : Nat} (h : m'.word a = m.word a) (hle : a ≤ b)
    (hlt : b < a + 4) : m' b = m b := by
  have hbyte (p : Memory) (c : Nat) := (p c).toNat_lt
  have := hbyte m a
  have := hbyte m (a + 1)
  have := hbyte m (a + 2)
  have := hbyte m' a
  have := hbyte m' (a + 1)
  have := hbyte m' (a + 2)
  simp only [word] at h
  obtain rfl | rfl | rfl | rfl : b = a ∨ b = a + 1 ∨ b = a + 2 ∨ b = a + 3 := by omega
  all_goals exact UInt8.toNat.inj (by omega)

theorem setByte_apply_of_ne {m : Memory} {a b : Nat} {v : UInt8} (h : b ≠ a) :
    m.setByte a v b = m b := by
  simp [setByte, h]

/-! ## Copies -/

theorem copy_apply {m : Memory} {dst src n i : Nat} (h : i < n) :
    m.copy dst src n (dst + i) = m (src + i) := by
  have hi : dst ≤ dst + i ∧ dst + i < dst + n := ⟨by omega, by omega⟩
  simp [copy, hi]

theorem copy_apply_of_ne {m : Memory} {dst src n b : Nat} (h : b < dst ∨ dst + n ≤ b) :
    m.copy dst src n b = m b := by
  have hb : ¬ (dst ≤ b ∧ b < dst + n) := by omega
  simp [copy, hb]

/-! ## Agreement -/

namespace AgreeOn

theorem refl (m : Memory) (S : Nat → Prop) : AgreeOn m m S := fun _ _ => rfl

theorem trans {m n p : Memory} {S : Nat → Prop} (h₁ : AgreeOn m n S)
    (h₂ : AgreeOn n p S) : AgreeOn m p S :=
  fun a ha => (h₂ a ha).trans (h₁ a ha)

theorem mono {m m' : Memory} {S T : Nat → Prop} (h : AgreeOn m m' S)
    (hTS : ∀ a, T a → S a) : AgreeOn m m' T :=
  fun a ha => h a (hTS a ha)

theorem word {m m' : Memory} {S : Nat → Prop} {a : Nat} (h : AgreeOn m m' S)
    (ha : ∀ b, a ≤ b → b < a + 4 → S b) : m'.word a = m.word a :=
  word_congr fun b hb hb' => h b (ha b hb hb')

theorem setWord {m : Memory} {S : Nat → Prop} {a v : Nat}
    (ha : ∀ b, S b → b < a ∨ a + 4 ≤ b) : AgreeOn m (m.setWord a v) S :=
  fun b hb => setWord_apply_of_ne (ha b hb)

end AgreeOn

end Memory

end CToys
