import Mathlib.Data.List.Sort

/-!
# The smallest members of a list

`smallest k l` are the `k` smallest members of `l` in order, or all of them if there are fewer.

A split of `l` into two parts, of which the first is in order and not above the second, shows
what they are (`smallest_of_split`).  This is how a row of smallest members that is kept while
members are added is proved right.
-/

namespace CToys

variable {α : Type} [LinearOrder α] {l pre post : List α}

/-- The members in order. -/
def inOrder (l : List α) : List α := l.insertionSort (· ≤ ·)

/-- The `k` smallest members. -/
def smallest (k : Nat) (l : List α) : List α := (inOrder l).take k

theorem inOrder_perm (l : List α) : (inOrder l).Perm l := List.perm_insertionSort (· ≤ ·) l

theorem inOrder_pairwise (l : List α) : (inOrder l).Pairwise (· ≤ ·) :=
  List.pairwise_insertionSort (· ≤ ·) l

theorem inOrder_length (l : List α) : (inOrder l).length = l.length :=
  List.length_insertionSort (· ≤ ·) l

/-- Only one order is right. -/
theorem eq_inOrder (h : pre.Pairwise (· ≤ ·)) (hperm : pre.Perm l) : pre = inOrder l :=
  (hperm.trans (inOrder_perm l).symm).eq_of_pairwise (fun _ _ _ _ => le_antisymm) h
    (inOrder_pairwise l)

theorem smallest_length (k : Nat) (l : List α) : (smallest k l).length = min k l.length := by
  rw [smallest, List.length_take, inOrder_length]

/-- The first part of a split has the smallest members if none of the second part is below. -/
theorem smallest_of_split (hperm : (pre ++ post).Perm l) (hpre : pre.Pairwise (· ≤ ·))
    (hle : ∀ a ∈ pre, ∀ b ∈ post, a ≤ b) : smallest pre.length l = pre := by
  have hsorted : (pre ++ inOrder post).Pairwise (· ≤ ·) :=
    List.pairwise_append.mpr ⟨hpre, inOrder_pairwise post,
      fun a ha b hb => hle a ha b ((inOrder_perm post).mem_iff.mp hb)⟩
  have heq : pre ++ inOrder post = inOrder l :=
    eq_inOrder hsorted (((inOrder_perm post).append_left pre).trans hperm)
  rw [smallest, ← heq, List.take_left]

/-- The smallest members and the others. -/
theorem exists_split (k : Nat) (l : List α) : ∃ post, (smallest k l ++ post).Perm l ∧
    (smallest k l).Pairwise (· ≤ ·) ∧ ∀ a ∈ smallest k l, ∀ b ∈ post, a ≤ b := by
  have hsorted := inOrder_pairwise l
  rw [← List.take_append_drop k (inOrder l)] at hsorted
  obtain ⟨hpre, -, hle⟩ := List.pairwise_append.mp hsorted
  refine ⟨(inOrder l).drop k, ?_, hpre, hle⟩
  rw [smallest, List.take_append_drop]
  exact inOrder_perm l

/-- There is a last one. -/
theorem exists_concat {k : Nat} (hlen : (smallest k l).length = k) (hk : 0 < k) :
    ∃ init last, smallest k l = init ++ [last] := by
  rcases List.eq_nil_or_concat (smallest k l) with hnil | ⟨init, last, hcons⟩
  · rw [hnil] at hlen
    exact absurd hlen hk.ne
  · exact ⟨init, last, by rw [hcons, List.concat_eq_append]⟩

section

variable {k : Nat} {init : List α} {last v : α}

/-- No one of the smallest members is above the last of them. -/
theorem le_last (hs : smallest k l = init ++ [last]) : ∀ a ∈ smallest k l, a ≤ last := by
  obtain ⟨-, -, hpre, -⟩ := exists_split k l
  rw [hs] at hpre ⊢
  intro a ha
  rcases List.mem_append.mp ha with ha | ha
  · exact (List.pairwise_append.mp hpre).2.2 a ha last (List.mem_singleton_self last)
  · exact (List.mem_singleton.mp ha).le

/-- A new member that is smaller than the last of them takes its place. -/
theorem smallest_cons_of_lt (hs : smallest k l = init ++ [last]) (hlen : (smallest k l).length = k)
    (hv : v < last) (hpre : pre.Pairwise (· ≤ ·)) (hperm : pre.Perm (v :: init)) :
    smallest k (v :: l) = pre := by
  have hlast := le_last hs
  obtain ⟨post, hall, -, hpost⟩ := exists_split k l
  rw [hs] at hlast hall hpost hlen
  have hsplit : (pre ++ last :: post).Perm (v :: l) := by
    refine (hperm.append_right _).trans ?_
    rw [List.append_assoc] at hall
    exact hall.cons v
  have hk : pre.length = k := by
    rw [hperm.length_eq, ← hlen, List.length_append, List.length_singleton, List.length_cons]
  rw [← hk]
  refine smallest_of_split hsplit hpre fun a ha b hb => ?_
  have ha : a ≤ last ∧ ∀ c ∈ post, a ≤ c := by
    rcases List.mem_cons.mp (hperm.mem_iff.mp ha) with rfl | ha
    · exact ⟨hv.le, fun c hc => hv.le.trans (hpost last (by simp) c hc)⟩
    · exact ⟨hlast a (by simp [ha]), hpost a (by simp [ha])⟩
  rcases List.mem_cons.mp hb with rfl | hb
  · exact ha.1
  · exact ha.2 b hb

/-- One that is not smaller changes nothing. -/
theorem smallest_cons_of_le (hs : smallest k l = init ++ [last]) (hlen : (smallest k l).length = k)
    (hv : last ≤ v) : smallest k (v :: l) = smallest k l := by
  obtain ⟨post, hall, hpre, hpost⟩ := exists_split k l
  have hsplit : (smallest k l ++ v :: post).Perm (v :: l) := List.perm_middle.trans (hall.cons v)
  have h := smallest_of_split hsplit hpre fun a ha b hb => by
    rcases List.mem_cons.mp hb with rfl | hb
    · exact (le_last hs a ha).trans hv
    · exact hpost a ha b hb
  rwa [hlen] at h

end

/-- As long as there are at most `k`, they are all members. -/
theorem smallest_of_length_le {k : Nat} (h : l.length ≤ k) : smallest k l = inOrder l := by
  rw [smallest, List.take_of_length_le (by rwa [inOrder_length])]

end CToys
