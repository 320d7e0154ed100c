import Mathlib.Algebra.Ring.Nat
import Mathlib.Data.List.Infix

/-!
# Copies made of pieces

A copy is put together from pieces of its source.  A piece says which items it takes and
where it is put, so a list of pieces can be read off the sizes of the transfers alone, with
no knowledge of the items.

*InPlace.*  A piece is in place if the source has the same items where the piece is put.
It need not be taken from there.
*Consecutive.*  Each piece is put where the one before it ends.

The copy is right as far as it goes if and only if every piece is in place
(`gather_prefix_iff`).
-/

namespace CToys

variable {α : Type}

/-- `count` items of a source, taken from `start` and put at `off`. -/
structure Piece where
  /-- Where the items are in the source. -/
  start : Nat
  /-- Where they are put. -/
  off : Nat
  /-- How many there are. -/
  count : Nat
deriving DecidableEq, Repr

/-- The items of a piece. -/
def Piece.items (src : List α) (p : Piece) : List α := (src.drop p.start).take p.count

/-- The source has the same items where the piece is put. -/
def Piece.InPlace (src : List α) (p : Piece) : Prop :=
  p.items src = (src.drop p.off).take p.count

instance [DecidableEq α] (src : List α) (p : Piece) : Decidable (p.InPlace src) :=
  inferInstanceAs (Decidable (_ = _))

/-- The pieces one after another. -/
def gather (src : List α) (ps : List Piece) : List α := ps.flatMap (·.items src)

/-- The number of items in all pieces. -/
def total (ps : List Piece) : Nat := (ps.map (·.count)).sum

/-- The pieces lie in a source of `n` items, and each is put where the one before ends. -/
def Consecutive (n : Nat) : (off : Nat) → List Piece → Prop
  | _, [] => True
  | off, p :: ps => p.off = off ∧ p.start + p.count ≤ n ∧ Consecutive n (off + p.count) ps

section

variable {src : List α} {n off : Nat} {p : Piece} {ps qs : List Piece}

@[simp] theorem gather_nil : gather src [] = [] := rfl

@[simp] theorem gather_cons : gather src (p :: ps) = p.items src ++ gather src ps := rfl

@[simp] theorem gather_append : gather src (ps ++ qs) = gather src ps ++ gather src qs :=
  List.flatMap_append

@[simp] theorem total_nil : total [] = 0 := rfl

@[simp] theorem total_cons : total (p :: ps) = p.count + total ps := rfl

@[simp] theorem total_append : total (ps ++ qs) = total ps + total qs := by
  simp [total]

theorem consecutive_append :
    Consecutive n off (ps ++ qs) ↔ Consecutive n off ps ∧ Consecutive n (off + total ps) qs := by
  induction ps generalizing off with
  | nil => simp [Consecutive]
  | cons p ps ih =>
    simp only [List.cons_append, Consecutive, ih, total_cons, and_assoc, Nat.add_assoc]

theorem Piece.items_length (h : p.start + p.count ≤ src.length) :
    (p.items src).length = p.count := by
  rw [items, List.length_take, List.length_drop]
  omega

theorem gather_length (h : Consecutive src.length off ps) :
    (gather src ps).length = total ps := by
  induction ps generalizing off with
  | nil => rfl
  | cons p ps ih =>
    obtain ⟨-, hp, hps⟩ := h
    rw [gather_cons, List.length_append, p.items_length hp, ih hps, total_cons]

/-- A list starts with two others if the first is its start and the second starts what is left. -/
theorem append_prefix_iff {l m k : List α} :
    l ++ m <+: k ↔ l = k.take l.length ∧ m <+: k.drop l.length := by
  constructor
  · rintro ⟨t, rfl⟩
    simp [List.append_assoc]
  · rintro ⟨hl, t, ht⟩
    refine ⟨t, ?_⟩
    rw [List.append_assoc, ht]
    nth_rewrite 1 [hl]
    rw [List.take_append_drop]

/-- The copy is right as far as it goes exactly if every piece is in place. -/
theorem gather_prefix_iff (h : Consecutive src.length off ps) :
    gather src ps <+: src.drop off ↔ ∀ p ∈ ps, p.InPlace src := by
  induction ps generalizing off with
  | nil => simp
  | cons p ps ih =>
    obtain ⟨rfl, hp, hps⟩ := h
    rw [gather_cons, append_prefix_iff, p.items_length hp, List.drop_drop, ih hps,
      List.forall_mem_cons]
    exact Iff.rfl

/-- It is right and complete if moreover the numbers of items agree. -/
theorem gather_eq_iff (h : Consecutive src.length 0 ps) :
    gather src ps = src ↔ total ps = src.length ∧ ∀ p ∈ ps, p.InPlace src := by
  rw [← gather_prefix_iff h, List.drop_zero, ← gather_length h]
  constructor
  · exact fun heq => ⟨congrArg List.length heq, List.prefix_iff_eq_take.mpr (by simp [heq])⟩
  · exact fun ⟨hlen, hpre⟩ => hpre.eq_of_length hlen

/-- A piece that is put where it was taken from is in place. -/
theorem Piece.inPlace_of_eq (h : p.start = p.off) : p.InPlace src := by
  rw [InPlace, items, h]

end

end CToys
