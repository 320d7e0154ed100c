import CToys.Malloc.Client
import CToys.Malloc.Driver.Program
import Mathlib.Data.List.AList

/-!
# Legal traces

`Live` says which indices of a trace have a block, and of how many bytes, the newest first.  A
trace is *legal* when it allocates only indices that have no block, frees and reallocates only
those that have one, asks for a positive number of bytes each time, and stays within the
arrays that `read_trace` makes.

`Live.total` is the number of payload bytes, and `Trace.peak` is its maximum over all the
prefixes of the trace.
-/

namespace CToys.Malloc.Driver

/-- The payload sizes of the indices that have a block. -/
abbrev Live : Type := AList fun _ : Nat => Nat

/-- The live blocks after a request. -/
def Live.next (live : Live) (op : TraceOp) : Live :=
  match op.kind with
  | .free => live.erase op.index
  | _ => live.insert op.index op.size.toNat

/-- The live blocks after some requests. -/
def Live.after (live : Live) (ops : List TraceOp) : Live := ops.foldl Live.next live

/-- The request is for at least one byte, and `size` is an `int`. -/
def TraceOp.Sized (op : TraceOp) : Prop := 0 < op.size ∧ op.size ≤ intMax

instance (op : TraceOp) : Decidable op.Sized := inferInstanceAs (Decidable (_ ∧ _))

/-- The request makes sense when `live` are the live blocks. -/
def TraceOp.Legal (numIds : Int) (live : Live) (op : TraceOp) : Prop :=
  match op.kind with
  | .alloc => op.index ∉ live ∧ op.index < capacity numIds 4 ∧ op.Sized
  | .free => op.index ∈ live
  | .realloc => op.index ∈ live ∧ op.Sized

instance (numIds : Int) (live : Live) (op : TraceOp) : Decidable (op.Legal numIds live) := by
  unfold TraceOp.Legal
  split <;> infer_instance

/-- All the requests make sense. -/
def Legal (numIds : Int) : Live → List TraceOp → Prop
  | _, [] => True
  | live, op :: ops => op.Legal numIds live ∧ Legal numIds (live.next op) ops

instance Legal.decide (numIds : Int) :
    (live : Live) → (ops : List TraceOp) → Decidable (Legal numIds live ops)
  | _, [] => inferInstanceAs (Decidable True)
  | live, op :: ops =>
      have := Legal.decide numIds (live.next op) ops
      inferInstanceAs (Decidable (_ ∧ _))

/-- A legal trace. -/
def Trace.Legal (tr : Trace) : Prop := Driver.Legal tr.numIds ∅ tr.ops

instance (tr : Trace) : Decidable tr.Legal := Legal.decide tr.numIds ∅ tr.ops

/-- The live blocks at the end. -/
def Trace.live (tr : Trace) : Live := Live.after ∅ tr.ops

/-- The payload bytes of the live blocks. -/
def Live.total (live : Live) : Nat := (live.entries.map fun e => e.2).sum

/-- The most payload bytes that are live at one time. -/
def peak : Live → List TraceOp → Nat
  | live, [] => live.total
  | live, op :: ops => max live.total (peak (live.next op) ops)

/-- The most payload bytes of a trace. -/
def Trace.peak (tr : Trace) : Nat := Driver.peak ∅ tr.ops

/-! ## Live blocks -/

variable {numIds : Int} {live : Live} {op : TraceOp} {ops ops' : List TraceOp} {i n : Nat}

theorem Live.mem_entries {e : (_ : Nat) × Nat} : e ∈ live.entries ↔ live.lookup e.1 = some e.2 := by
  rw [← Option.mem_def, AList.mem_lookup_iff]

theorem Live.exists_of_mem (h : i ∈ live) : ∃ n, live.lookup i = some n :=
  Option.isSome_iff_exists.mp (AList.lookup_isSome.mpr h)

theorem Live.mem_of_lookup (h : live.lookup i = some n) : i ∈ live :=
  AList.lookup_isSome.mp (by rw [h]; rfl)

@[simp] theorem Live.after_nil : live.after [] = live := rfl

@[simp] theorem Live.after_cons : live.after (op :: ops) = (live.next op).after ops := rfl

/-- The bytes of one block, and those of the others. -/
theorem Live.total_of_lookup (h : live.lookup i = some n) :
    live.total = n + Live.total (live.erase i) := by
  have hmem : i ∈ live.entries.keys := Live.mem_of_lookup h
  obtain ⟨b, l₁, l₂, -, hl, he⟩ := List.exists_of_kerase hmem
  have hb : live.lookup i = some b := Live.mem_entries (e := ⟨i, b⟩).mp (by rw [hl]; simp)
  obtain rfl := Option.some.inj (hb.symm.trans h)
  have hrest : (live.erase i).entries = l₁ ++ l₂ := he
  simp only [Live.total, hrest, hl, List.map_append, List.map_cons, List.sum_append,
    List.sum_cons]
  omega

theorem Live.total_insert_of_notMem (hi : i ∉ live) :
    Live.total (live.insert i n) = n + live.total := by
  rw [Live.total, AList.entries_insert_of_notMem hi, List.map_cons, List.sum_cons, Live.total]

/-- A reallocated index is the newest. -/
theorem Live.insert_erase : (live.erase i).insert i n = live.insert i n :=
  AList.ext (by rw [AList.entries_insert_of_notMem (by simp), AList.entries_insert]; rfl)

theorem Live.total_insert : Live.total (live.insert i n) = n + Live.total (live.erase i) := by
  rw [← Live.insert_erase, Live.total_insert_of_notMem (by simp)]

/-! ## Legal requests -/

/-- The conversion to a `size_t` keeps the size of a request. -/
theorem sizeT_of_sized {size : Int} (h : 0 < size ∧ size ≤ intMax) :
    sizeT size = size.toNat ∧ 0 < size.toNat := by
  have hint : (intMax : Int) = 2147483647 := rfl
  unfold sizeT
  omega

theorem Legal.append : Legal numIds live (ops ++ ops') ↔
    Legal numIds live ops ∧ Legal numIds (live.after ops) ops' := by
  induction ops generalizing live with
  | nil => simp [Legal]
  | cons op ops ih => rw [List.cons_append, Legal, Legal, ih, and_assoc, Live.after_cons]

/-- Live indices stay within the arrays. -/
theorem TraceOp.Legal.bounded (h : op.Legal numIds live)
    (hlive : ∀ i ∈ live, i < capacity numIds 4) :
    op.index < capacity numIds 4 ∧ ∀ i ∈ live.next op, i < capacity numIds 4 := by
  unfold TraceOp.Legal at h
  unfold Live.next
  cases hk : op.kind with
  | alloc =>
    simp only [hk] at h ⊢
    refine ⟨h.2.1, fun i hi => ?_⟩
    rcases (AList.mem_insert _).mp hi with rfl | hi
    · exact h.2.1
    · exact hlive i hi
  | free =>
    simp only [hk] at h ⊢
    exact ⟨hlive _ h, fun i hi => hlive i (AList.mem_erase.mp hi).2⟩
  | realloc =>
    simp only [hk] at h ⊢
    refine ⟨hlive _ h.1, fun i hi => ?_⟩
    rcases (AList.mem_insert _).mp hi with rfl | hi
    · exact hlive _ h.1
    · exact hlive i hi

end CToys.Malloc.Driver
