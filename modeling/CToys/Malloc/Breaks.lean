import CToys.Lib.Moves
import CToys.Malloc.Implicit.Program
import CToys.Malloc.Segregated.Program

/-!
# The break only rises

Only `mem_sbrk` changes the break, and it never lowers it or moves it out of the storage.  So
no function of either allocator does, in whatever state the memory is, when it returns at all.
The loops are by induction on the fuel, the rest follows the text of the functions.
-/

namespace CToys.Malloc

variable {A : Arena} {ρ α : Type}

/-- The break was not lowered and is in the storage. -/
def Rises (σ σ' : Machine A ρ) : Prop :=
  σ.memBrk ≤ A.start + maxHeap → σ.memBrk ≤ σ'.memBrk ∧ σ'.memBrk ≤ A.start + maxHeap

instance : IsPreorder (Machine A ρ) Rises where
  refl _ h := ⟨Nat.le_refl _, h⟩
  trans _ _ _ h₁ h₂ h :=
    ⟨(h₁ h).1.trans (h₂ (h₁ h).2).1, (h₂ (h₁ h).2).2⟩

/-- The program only raises the break, and not out of the storage. -/
abbrev Grows (x : Prog A ρ α) : Prop := Moves Rises x

/-! ## The memory system -/

/-- A program that does not touch the break. -/
theorem Grows.of_keeps {x : Prog A ρ α} (h : Keeps Machine.memBrk x) : Grows x :=
  Moves.of_keeps h fun _ _ hbrk hle => by rw [hbrk]; exact ⟨Nat.le_refl _, hle⟩

instance loadWord_grows (p : Nat) : Grows (loadWord p : Prog A ρ Nat) := by
  refine .of_keeps fun σ v σ' hret => ?_
  unfold Returns loadWord at hret
  split at hret <;> cases hret
  rfl

instance storeWord_grows (p v : Nat) : Grows (storeWord p v : Prog A ρ Unit) := by
  refine .of_keeps fun σ v σ' hret => ?_
  unfold Returns storeWord at hret
  split at hret <;> cases hret
  rfl

instance memcpy_grows (dst src n : Nat) : Grows (memcpy dst src n : Prog A ρ Unit) := by
  refine .of_keeps fun σ v σ' hret => ?_
  unfold Returns memcpy at hret
  repeat' split at hret
  all_goals cases hret
  all_goals rfl

/-- `mem_sbrk` refuses what is negative or does not fit. -/
instance memSbrk_grows (incr : Int) : Grows (memSbrk incr : Prog A ρ Nat) := by
  refine ⟨fun {σ p σ'} hret hle => ?_⟩
  unfold Returns memSbrk at hret
  simp only at hret
  split at hret <;> cases hret
  · exact ⟨Nat.le_refl _, hle⟩
  · simp only
    omega

/-! ## The macros -/

instance mmPut_grows (p v : Nat) : Grows (mmPut p v : Prog A ρ Unit) := storeWord_grows p v

instance getSize_grows (p : Nat) : Grows (getSize p : Prog A ρ Nat) :=
  have := loadWord_grows (A := A) (ρ := ρ) p
  inferInstanceAs (Grows (loadWord p >>= fun _ => _))

instance getAlloc_grows (p : Nat) : Grows (getAlloc p : Prog A ρ Nat) := by
  unfold getAlloc mmGet
  infer_instance

instance ftrp_grows (bp : Nat) : Grows (ftrp bp : Prog A ρ Nat) := by
  unfold ftrp
  infer_instance

instance nextBlkp_grows (bp : Nat) : Grows (nextBlkp bp : Prog A ρ Nat) := by
  unfold nextBlkp
  infer_instance

instance prevBlkp_grows (bp : Nat) : Grows (prevBlkp bp : Prog A ρ Nat) := by
  unfold prevBlkp
  infer_instance

-- the instance of a function is as long as its text
set_option synthInstance.maxSize 20000

namespace Implicit

/-! ## The implicit allocator -/

instance getPrevBp_grows : Grows (getPrevBp : Prog A Statics Nat) :=
  .of_keeps fun _ _ _ hret => by cases hret; rfl

instance setPrevBp_grows (p : Nat) : Grows (setPrevBp p : Prog A Statics Unit) :=
  .of_keeps fun _ _ _ hret => by cases hret; rfl

instance getHeapListp_grows : Grows (getHeapListp : Prog A Statics Nat) :=
  .of_keeps fun _ _ _ hret => by cases hret; rfl

instance setHeapListp_grows (p : Nat) : Grows (setHeapListp p : Prog A Statics Unit) :=
  .of_keeps fun _ _ _ hret => by cases hret; rfl

instance moveRover_grows (bp : Nat) : Grows (moveRover bp : Prog A Statics Nat) := by
  unfold moveRover
  infer_instance

instance coalesce_grows (bp : Nat) : Grows (coalesce bp : Prog A Statics Nat) := by
  dsimp only [coalesce]
  infer_instance

instance extendHeap_grows (words : Nat) : Grows (extendHeap words : Prog A Statics Nat) := by
  dsimp only [extendHeap]
  infer_instance

instance fits_grows (newSize bp : Nat) : Grows (fits newSize bp : Prog A Statics Bool) := by
  unfold fits
  infer_instance

instance walkToEnd_grows (newSize fuel bp : Nat) :
    Grows (walkToEnd newSize fuel bp : Prog A Statics (Option Nat)) := by
  induction fuel generalizing bp with
  | zero => exact Moves.throw _
  | succ fuel ih =>
    unfold walkToEnd
    infer_instance

instance walkToRover_grows (newSize fuel bp : Nat) :
    Grows (walkToRover newSize fuel bp : Prog A Statics (Option Nat)) := by
  induction fuel generalizing bp with
  | zero => exact Moves.throw _
  | succ fuel ih =>
    unfold walkToRover
    infer_instance

instance findFit_grows (newSize : Nat) : Grows (findFit newSize : Prog A Statics Nat) := by
  have hmatch (o : Option Nat) : Grows (match o with
      | some bp => (return bp : Prog A Statics Nat)
      | none => do return (← walkToRover newSize walkFuel (← getHeapListp)).getD 0) := by
    cases o <;> dsimp only <;> infer_instance
  unfold findFit nextFit
  infer_instance

instance place_grows (bp newSize : Nat) : Grows (place bp newSize : Prog A Statics Unit) := by
  dsimp only [place]
  infer_instance

instance mmInit_grows : Grows (mmInit : Prog A Statics Int) := by
  dsimp only [mmInit]
  infer_instance

instance mmMalloc_grows (size : Nat) : Grows (mmMalloc size : Prog A Statics Nat) := by
  dsimp only [mmMalloc]
  infer_instance

instance mmFree_grows (ptr : Nat) : Grows (mmFree ptr : Prog A Statics Unit) := by
  unfold mmFree
  infer_instance

instance mmRealloc_grows (ptr size : Nat) :
    Grows (mmRealloc ptr size : Prog A Statics Nat) := by
  dsimp only [mmRealloc]
  infer_instance

end Implicit

namespace Segregated

/-! ## The segregated allocator -/

instance freeList_grows (pos : Nat) : Grows (freeList pos : Prog A Statics Nat) := by
  refine .of_keeps fun σ v σ' hret => ?_
  unfold Returns freeList at hret
  split at hret <;> cases hret
  rfl

instance setFreeList_grows (pos bp : Nat) : Grows (setFreeList pos bp : Prog A Statics Unit) := by
  refine .of_keeps fun σ v σ' hret => ?_
  unfold Returns setFreeList at hret
  split at hret <;> cases hret
  rfl

instance setHeapListp_grows (p : Nat) : Grows (setHeapListp p : Prog A Statics Unit) :=
  .of_keeps fun _ _ _ hret => by cases hret; rfl

instance predNode_grows (p : Nat) : Grows (predNode p : Prog A Statics Nat) := loadWord_grows p

instance succNode_grows (p : Nat) : Grows (succNode p : Prog A Statics Nat) := loadWord_grows _

instance setPtr_grows (p v : Nat) : Grows (setPtr p v : Prog A Statics Unit) :=
  storeWord_grows p v

instance insertWalk_grows (size fuel predBp succBp : Nat) :
    Grows (insertWalk size fuel predBp succBp : Prog A Statics (Nat × Nat)) := by
  induction fuel generalizing predBp succBp with
  | zero => exact Moves.throw _
  | succ fuel ih =>
    unfold insertWalk
    infer_instance

instance insertNode_grows (bp size : Nat) : Grows (insertNode bp size : Prog A Statics Unit) := by
  dsimp only [insertNode]
  infer_instance

instance deleteNode_grows (bp : Nat) : Grows (deleteNode bp : Prog A Statics Unit) := by
  dsimp only [deleteNode]
  infer_instance

instance coalesce_grows (bp : Nat) : Grows (coalesce bp : Prog A Statics Nat) := by
  dsimp only [coalesce]
  infer_instance

instance extendHeap_grows (words : Nat) : Grows (extendHeap words : Prog A Statics Nat) := by
  dsimp only [extendHeap]
  infer_instance

instance fitWalk_grows (newSize fuel targetBp : Nat) :
    Grows (fitWalk newSize fuel targetBp : Prog A Statics Nat) := by
  induction fuel generalizing targetBp with
  | zero => exact Moves.throw _
  | succ fuel ih =>
    unfold fitWalk
    infer_instance

instance fitSearch_grows (newSize left pos searchSize : Nat) :
    Grows (fitSearch newSize left pos searchSize : Prog A Statics Nat) := by
  induction left generalizing pos searchSize with
  | zero => exact Moves.pure 0
  | succ left ih =>
    unfold fitSearch
    infer_instance

instance place_grows (bp newSize : Nat) : Grows (place bp newSize : Prog A Statics Nat) := by
  dsimp only [place]
  infer_instance

instance clearLists_grows (n : Nat) : Grows (clearLists n : Prog A Statics Unit) := by
  induction n with
  | zero => exact Moves.pure ()
  | succ n ih =>
    unfold clearLists
    infer_instance

instance mmInit_grows : Grows (mmInit : Prog A Statics Int) := by
  dsimp only [mmInit]
  infer_instance

instance mmMalloc_grows (size : Nat) : Grows (mmMalloc size : Prog A Statics Nat) := by
  dsimp only [mmMalloc, findFit]
  infer_instance

instance mmFree_grows (ptr : Nat) : Grows (mmFree ptr : Prog A Statics Unit) := by
  unfold mmFree
  infer_instance

instance absorbNext_grows (ptr availableSize : Nat) :
    Grows (absorbNext ptr availableSize : Prog A Statics Nat) := by
  unfold absorbNext
  infer_instance

instance mmRealloc_grows (ptr size : Nat) :
    Grows (mmRealloc ptr size : Prog A Statics Nat) := by
  dsimp only [mmRealloc]
  infer_instance

end Segregated

end CToys.Malloc
