import Mathlib.Algebra.Order.BigOperators.Group.List
import Mathlib.Algebra.Order.Group.Nat
import Mathlib.Algebra.Ring.Nat
import Mathlib.Data.List.Chain
import Mathlib.Data.List.Nodup

/-!
# Tilings of an interval

Items that each occupy an interval `[start x, stop x)` tile `[a, e)` when the first one
starts at `a`, each next one starts where the one before stops, and the last one stops
at `e`.  No interval is empty.

A tiling splits at any position (`tiles_append`), so replacing a run of items by another
that tiles the same interval keeps the tiling (`Tiles.replace`).  Distinct items are apart
(`Tiles.apart`) and an item is determined by where it starts (`Tiles.eq_of_start`).

Where some items are solid and the others are gaps, and no two gaps are in a row, the solid
items determine the tiling (`Tiles.eq_of_solid`).
-/

namespace CToys

variable {α : Type} {start stop : α → Nat}

/-- The items of `l` tile `[a, e)`. -/
def Tiles (start stop : α → Nat) : Nat → List α → Nat → Prop
  | a, [], e => a = e
  | a, x :: l, e => start x = a ∧ start x < stop x ∧ Tiles start stop (stop x) l e

@[simp] theorem tiles_nil {a e : Nat} : Tiles start stop a [] e ↔ a = e := Iff.rfl

@[simp] theorem tiles_cons {a e : Nat} {x : α} {l : List α} :
    Tiles start stop a (x :: l) e ↔
      start x = a ∧ start x < stop x ∧ Tiles start stop (stop x) l e := Iff.rfl

/-- A tiling splits at any position. -/
theorem tiles_append {a e : Nat} {l₁ l₂ : List α} :
    Tiles start stop a (l₁ ++ l₂) e ↔
      ∃ c, Tiles start stop a l₁ c ∧ Tiles start stop c l₂ e := by
  induction l₁ generalizing a with
  | nil => simp
  | cons x l ih => simp [ih, and_assoc]

namespace Tiles

variable {a c d e : Nat} {x y : α} {l l' l₁ l₂ mid mid' : List α}

theorem le (h : Tiles start stop a l e) : a ≤ e := by
  induction l generalizing a with
  | nil => exact Nat.le_of_eq h
  | cons x l ih =>
    obtain ⟨h1, h2, h3⟩ := h
    have := ih h3
    omega

/-- An interval has room for so many items only. -/
theorem length_le (h : Tiles start stop a l e) : a + l.length ≤ e := by
  induction l generalizing a with
  | nil => exact Nat.le_of_eq h
  | cons x l ih =>
    obtain ⟨h1, h2, h3⟩ := h
    have := ih h3
    rw [List.length_cons]
    omega

/-- The part before an item, the item, and the part behind it. -/
theorem split (h : Tiles start stop a (l₁ ++ x :: l₂) e) :
    Tiles start stop a l₁ (start x) ∧ start x < stop x ∧
      Tiles start stop (stop x) l₂ e := by
  obtain ⟨c, h1, rfl, h2, h3⟩ := tiles_append.mp h
  exact ⟨h1, h2, h3⟩

theorem bounds (h : Tiles start stop a l e) (hx : x ∈ l) :
    a ≤ start x ∧ start x < stop x ∧ stop x ≤ e := by
  obtain ⟨l₁, l₂, rfl⟩ := List.append_of_mem hx
  obtain ⟨h1, h2, h3⟩ := h.split
  exact ⟨h1.le, h2, h3.le⟩

/-- Items in order are apart in order. -/
theorem pairwise (h : Tiles start stop a l e) :
    l.Pairwise fun x y => stop x ≤ start y := by
  induction l generalizing a with
  | nil => exact .nil
  | cons x l ih =>
    obtain ⟨-, -, h3⟩ := h
    exact .cons (fun y hy => (h3.bounds hy).1) (ih h3)

/-- Two items are the same item or apart. -/
theorem apart (h : Tiles start stop a l e) (hx : x ∈ l) (hy : y ∈ l) :
    x = y ∨ stop x ≤ start y ∨ stop y ≤ start x := by
  obtain ⟨l₁, l₂, rfl⟩ := List.append_of_mem hx
  obtain ⟨h1, -, h3⟩ := h.split
  simp only [List.mem_append, List.mem_cons] at hy
  rcases hy with hy | rfl | hy
  · exact .inr (.inr (h1.bounds hy).2.2)
  · exact .inl rfl
  · exact .inr (.inl (h3.bounds hy).1)

/-- An item is determined by where it starts. -/
theorem eq_of_start (h : Tiles start stop a l e) (hx : x ∈ l) (hy : y ∈ l)
    (hxy : start x = start y) : x = y := by
  have hx' := h.bounds hx
  have hy' := h.bounds hy
  rcases h.apart hx hy with h | h | h
  · exact h
  · omega
  · omega

theorem nodup (h : Tiles start stop a l e) : (l.map start).Nodup := by
  refine List.pairwise_map.mpr (h.pairwise.imp_of_mem fun {x y} hx _ hxy => ?_)
  have := h.bounds hx
  omega

/-- Nothing tiles an empty interval. -/
theorem eq_nil (h : Tiles start stop a l a) : l = [] := by
  cases l with
  | nil => rfl
  | cons x l =>
    obtain ⟨h1, h2, h3⟩ := h
    have := h3.le
    omega

/-- The first item does not come again. -/
theorem head_notMem (h : Tiles start stop a (x :: l) e) : x ∉ l := by
  intro hx
  obtain ⟨-, h2, h3⟩ := h
  have := (h3.bounds hx).1
  omega

/-- Replace a run of items by another that covers the same interval. -/
theorem replace (h : Tiles start stop a (l₁ ++ mid ++ l₂) e)
    (hmid : ∀ c d, Tiles start stop c mid d → Tiles start stop c mid' d) :
    Tiles start stop a (l₁ ++ mid' ++ l₂) e := by
  obtain ⟨d, h, h3⟩ := tiles_append.mp h
  obtain ⟨c, h1, h2⟩ := tiles_append.mp h
  exact tiles_append.mpr ⟨d, tiles_append.mpr ⟨c, h1, hmid c d h2⟩, h3⟩

/-! ## Gaps -/

section

variable {solid : α → Prop}

/-- Behind a gap comes a solid item or the end. -/
private theorem stop_le_of_gap (h : Tiles start stop a (x :: l) e) (hx : ¬ solid x)
    (hc : (x :: l).IsChain fun x y => solid x ∨ solid y) {m : Nat} (hm : m ≤ e)
    (hsolid : ∀ y ∈ l, solid y → m ≤ start y) : m ≤ stop x := by
  obtain ⟨-, -, hrest⟩ := h
  cases l with
  | nil =>
    rw [tiles_nil] at hrest
    omega
  | cons y l =>
    have hy := (List.isChain_cons_cons.mp hc).1.resolve_left hx
    have hle := hsolid y List.mem_cons_self hy
    have hstart := hrest.1
    omega

/-- Of two gaps that come first, the one stops no later than the other if the solid items
behind the other are all behind the one. -/
private theorem gap_le (h : Tiles start stop a (x :: l) e) (h' : Tiles start stop d (y :: l') e)
    (hx : ¬ solid x) (hy : ¬ solid y) (hc' : (y :: l').IsChain fun x y => solid x ∨ solid y)
    (hsub : ∀ z, solid z → z ∈ l' → z ∈ x :: l) : stop x ≤ stop y := by
  obtain ⟨-, -, h3⟩ := h
  refine h'.stop_le_of_gap hy hc' h3.le fun z hz hsz => ?_
  have hne : z ≠ x := by
    rintro rfl
    exact hx hsz
  exact (h3.bounds ((List.mem_cons.mp (hsub z hsz hz)).resolve_left hne)).1

/-- A tiling without two gaps in a row is determined by its solid items. -/
theorem eq_of_solid (h : Tiles start stop a l e) (h' : Tiles start stop a l' e)
    (hc : l.IsChain fun x y => solid x ∨ solid y)
    (hc' : l'.IsChain fun x y => solid x ∨ solid y)
    (hsolid : ∀ x, solid x → (x ∈ l ↔ x ∈ l'))
    (hgap : ∀ x ∈ l, ∀ y ∈ l', ¬ solid x → ¬ solid y → start x = start y → stop x = stop y →
      x = y) : l = l' := by
  induction l generalizing a l' with
  | nil =>
    rw [tiles_nil] at h
    subst h
    exact h'.eq_nil.symm
  | cons x l ih =>
    cases l' with
    | nil =>
      rw [tiles_nil] at h'
      subst h'
      exact h.eq_nil
    | cons y l' =>
      have hstart : start x = start y := h.1.trans h'.1.symm
      have hxy : x = y := by
        by_cases hx : solid x
        · exact h'.eq_of_start ((hsolid x hx).mp List.mem_cons_self) List.mem_cons_self hstart
        by_cases hy : solid y
        · exact h.eq_of_start List.mem_cons_self ((hsolid y hy).mpr List.mem_cons_self) hstart
        -- two gaps that start together stop at the same solid item
        have hle : stop x ≤ stop y := gap_le h h' hx hy hc' fun z hsz hz =>
          (hsolid z hsz).mpr (List.mem_cons_of_mem _ hz)
        have hge : stop y ≤ stop x := gap_le h' h hy hx hc fun z hsz hz =>
          (hsolid z hsz).mp (List.mem_cons_of_mem _ hz)
        exact hgap x List.mem_cons_self y List.mem_cons_self hx hy hstart (by omega)
      subst hxy
      rw [ih h.2.2 h'.2.2 hc.tail hc'.tail (fun z hz => ?_)
        fun z hz w hw => hgap z (List.mem_cons_of_mem _ hz) w (List.mem_cons_of_mem _ hw)]
      have hiff := hsolid z hz
      rw [List.mem_cons, List.mem_cons] at hiff
      constructor
      · intro hm
        refine (hiff.mp (.inr hm)).resolve_left ?_
        rintro rfl
        exact h.head_notMem hm
      · intro hm
        refine (hiff.mpr (.inr hm)).resolve_left ?_
        rintro rfl
        exact h'.head_notMem hm

end

/-- The lengths add up to the length of the interval. -/
theorem sum_length (h : Tiles start stop a l e) :
    a + (l.map fun x => stop x - start x).sum = e := by
  induction l generalizing a with
  | nil => simpa using h
  | cons x l ih =>
    obtain ⟨h1, h2, h3⟩ := h
    have := ih h3
    rw [List.map_cons, List.sum_cons]
    omega

/-- Distinct items have room in the interval. -/
theorem sum_le (h : Tiles start stop a l e) (hnd : l'.Nodup) (hsub : l' ⊆ l) :
    a + (l'.map fun x => stop x - start x).sum ≤ e := by
  obtain ⟨l₁, hperm, hl₁⟩ := List.subperm_of_subset hnd hsub
  rw [← h.sum_length, ← (hperm.map _).sum_eq]
  exact Nat.add_le_add_left ((hl₁.map _).sum_le_sum fun _ _ => Nat.zero_le _) a

end Tiles

end CToys
