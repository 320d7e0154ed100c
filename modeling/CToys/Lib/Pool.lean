import CToys.Lib.ByteMemory
import Mathlib.Logic.Function.Basic

/-!
# Pools of blocks

What a program may expect of dynamic memory.  A `Pool` has blocks of bytes, and the program
refers to a block by a handle of its own choice.  There are no addresses, so blocks can neither
overlap nor move.

A byte of a new block is unknown until it is written.  Reading an unknown byte may give any
value, and reading a known one gives what was written last.  An operation may be refused, and
then it changes nothing.

`Pool.apply` is `none` for an operation that is not allowed, or that did not give what it should.
A block lies in a memory at an address (`Cell.In`) if its known bytes are there.
-/

namespace CToys

/-- A block of bytes. -/
structure Cell where
  size : Nat
  /-- The known bytes. -/
  bytes : Nat → Option UInt8

namespace Cell

/-- A block with nothing in it. -/
def blank (n : Nat) : Cell := ⟨n, fun _ => none⟩

/-- Cut a block off, or make it longer. -/
def resize (c : Cell) (n : Nat) : Cell :=
  ⟨n, fun j => if j < min c.size n then c.bytes j else none⟩

/-- Write a byte. -/
def write (c : Cell) (j : Nat) (v : UInt8) : Cell := ⟨c.size, Function.update c.bytes j (some v)⟩

/-- The byte may be read as `v`. -/
def Reads (c : Cell) (j : Nat) (v : UInt8) : Prop := c.bytes j = none ∨ c.bytes j = some v

instance (c : Cell) (j : Nat) (v : UInt8) : Decidable (c.Reads j v) :=
  inferInstanceAs (Decidable (_ ∨ _))

/-- The known bytes are in the memory from `a` on. -/
def In (c : Cell) (m : Memory) (a : Nat) : Prop :=
  ∀ j < c.size, ∀ v, c.bytes j = some v → m (a + j) = v

namespace In

variable {c : Cell} {m m' : Memory} {a b j n : Nat} {v : UInt8}

theorem blank : (Cell.blank n).In m a := by
  intro j _ v hv
  cases hv

/-- Only the bytes of the block matter. -/
theorem congr (h : c.In m a) (hm : ∀ j < c.size, m' (a + j) = m (a + j)) : c.In m' a :=
  fun j hj v hv => (hm j hj).trans (h j hj v hv)

/-- The block is copied to another place, as far as it fits. -/
theorem resize (h : c.In m a) (hm : ∀ j < min c.size n, m' (b + j) = m (a + j)) :
    (c.resize n).In m' b := by
  intro j _ v hv
  by_cases hlt : j < min c.size n
  · have hold : c.bytes j = some v := by simpa only [Cell.resize, if_pos hlt] using hv
    exact (hm j hlt).trans (h j (lt_of_lt_of_le hlt (Nat.min_le_left _ _)) v hold)
  · simp only [Cell.resize, if_neg hlt, reduceCtorEq] at hv

theorem write (h : c.In m a) : (c.write j v).In (m.setByte (a + j) v) a := by
  intro k hk w hw
  by_cases hkj : k = j
  · subst hkj
    have hvw : v = w := by simpa [Cell.write] using hw
    simp [Memory.setByte, hvw]
  · have hold : c.bytes k = some w := by simpa [Cell.write, hkj] using hw
    rw [Memory.setByte_apply_of_ne (by omega)]
    exact h k hk w hold

/-- What is read from the memory may be read from the block. -/
theorem reads (h : c.In m a) (hj : j < c.size) : c.Reads j (m (a + j)) := by
  cases hv : c.bytes j with
  | none => exact .inl hv
  | some v => exact .inr (by rw [hv, h j hj v hv])

end In

end Cell

/-- The blocks that a program has. -/
def Pool : Type := Nat → Option Cell

namespace Pool

/-- What a program does. -/
inductive Action where
  | alloc (i size : Nat) (served : Bool)
  | free (i : Nat)
  | realloc (i size : Nat) (served : Bool)
  | write (i j : Nat) (v : UInt8)
  | read (i j : Nat) (v : UInt8)

/-- No blocks. -/
def empty : Pool := fun _ => none

/-- Give the handle a block, or take it away. -/
def set (m : Pool) (i : Nat) (c : Option Cell) : Pool := Function.update m i c

/-- One operation. -/
def apply (m : Pool) : Action → Option Pool
  | .alloc i size served =>
      match m i with
      | none => some (if served then m.set i (some (.blank size)) else m)
      | some _ => none
  | .free i => (m i).map fun _ => m.set i none
  | .realloc i size served =>
      (m i).map fun c => if served then m.set i (some (c.resize size)) else m
  | .write i j v =>
      (m i).bind fun c => if j < c.size then some (m.set i (some (c.write j v))) else none
  | .read i j v => (m i).bind fun c => if j < c.size ∧ c.Reads j v then some m else none

/-- Several operations. -/
def run : Pool → List Action → Option Pool
  | m, [] => some m
  | m, a :: as => (m.apply a).bind fun m' => m'.run as

variable {m m' : Pool} {i j : Nat} {c : Option Cell} {as : List Action} {a : Action}

@[simp] theorem set_self : m.set i c i = c := Function.update_self _ _ _

@[simp] theorem set_set {c' : Option Cell} : (m.set i c).set i c' = m.set i c' :=
  Function.update_idem _ _ _

theorem set_of_ne (h : j ≠ i) : m.set i c j = m j := Function.update_of_ne h _ _

@[simp] theorem empty_apply : empty i = none := rfl

end Pool

end CToys
