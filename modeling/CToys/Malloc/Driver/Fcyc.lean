import CToys.Lib.Process
import CToys.Lib.Smallest
import Mathlib.Algebra.Ring.Nat
import Mathlib.Data.List.Induction
import Mathlib.Order.Bounds.Defs

/-!
# Timing

`fcyc` measures a function again and again and keeps the `kbest` smallest measurements in order.
It stops when these are close to each other, or after `maxsamples` measurements, and returns the
smallest one.

A measurement is an element of a linear order, which a `double` is as long as it is a number.
What is close is a parameter, since the test rounds.
-/

namespace CToys.Malloc.Driver.Fcyc

/-! ## The program -/

/-- `values` and `samplecount`. -/
structure Sampler (α : Type) where
  /-- An array of `kbest` elements. -/
  values : List α
  samplecount : Nat

variable {α : Type}

/-- `values[i]`. -/
def loadValue (i : Nat) : Process (Sampler α) α := fun s =>
  match s.values[i]? with
  | some v => .ok (v, s)
  | none => .error .bounds

/-- `values[i] = v`. -/
def storeValue (i : Nat) (v : α) : Process (Sampler α) Unit := fun s =>
  if i < s.values.length then .ok ((), { s with values := s.values.set i v })
  else .error .bounds

section

variable {s : Sampler α} {post : List α} {v : α} (pre : List α)

theorem loadValue_returns (h : s.values = pre ++ v :: post) :
    Returns (loadValue pre.length) s v s := by
  unfold Returns loadValue
  simp [h]

theorem storeValue_returns {w : α} (h : s.values = pre ++ v :: post) :
    Returns (storeValue pre.length w) s () { s with values := pre ++ w :: post } := by
  unfold Returns storeValue
  simp [h]

end

variable [LinearOrder α]

/-- The loop of `add_sample`. -/
def insertionSort : (pos : Nat) → Process (Sampler α) Unit
  | 0 => return ()
  | pos + 1 => do
      let above ← loadValue pos
      let val ← loadValue (pos + 1)
      if above > val then
        storeValue pos val
        storeValue (pos + 1) above
        insertionSort pos
      else return ()

/-- Where `add_sample` puts the value.  The index `kbest - 1` is outside if `kbest` is 0. -/
def putSample (kbest : Nat) (val : α) : Process (Sampler α) Nat := do
  let s ← get
  if s.samplecount < kbest then
    storeValue s.samplecount val
    return s.samplecount
  else
    let last ← loadValue (kbest - 1)
    if val < last then
      storeValue (kbest - 1) val
      return kbest - 1
    else return 0

/-- `add_sample`. -/
def addSample (kbest : Nat) (val : α) : Process (Sampler α) Unit := do
  let pos ← putSample kbest val
  modify fun s => { s with samplecount := s.samplecount + 1 }
  insertionSort pos

section

variable {v : α}

/-- The loop moves a value down to where it belongs. -/
theorem insertionSort_ensures {pre : List α} : ∀ {s : Sampler α} {post : List α},
    pre.Pairwise (· ≤ ·) → s.values = pre ++ v :: post →
    Ensures (insertionSort pre.length) s fun _ s' => ∃ pre', pre'.Pairwise (· ≤ ·) ∧
      pre'.Perm (v :: pre) ∧ s' = { s with values := pre' ++ post } := by
  induction pre using List.reverseRecOn with
  | nil =>
    intro s post _ hs
    refine .pure ⟨[v], List.pairwise_singleton _ _, .refl _, ?_⟩
    rw [List.singleton_append, ← List.nil_append (v :: post), ← hs]
  | append_singleton init u ih =>
    intro s post hsorted hs
    obtain ⟨hinit, -, hle⟩ := List.pairwise_append.mp hsorted
    have hu : ∀ a ∈ init, a ≤ u := fun a ha => hle a ha u (List.mem_singleton_self u)
    have hs' : s.values = init ++ u :: (v :: post) := by
      rw [hs, List.append_assoc, List.singleton_append]
    rw [List.length_append, List.length_singleton, insertionSort]
    have hload : Returns (loadValue (init.length + 1)) s v s := by
      have h := loadValue_returns _ hs
      rwa [List.length_append, List.length_singleton] at h
    refine (loadValue_returns init hs').step (hload.step ?_)
    split
    · next hgt =>
      have hstore := storeValue_returns init (w := v) hs'
      have hstore' : Returns (storeValue (init.length + 1) u)
          { s with values := init ++ v :: (v :: post) } ()
          { s with values := init ++ [v] ++ u :: post } := by
        have hs₁ : init ++ v :: (v :: post) = init ++ [v] ++ v :: post := by simp
        have h := storeValue_returns (s := ⟨_, s.samplecount⟩) (init ++ [v]) (w := u) hs₁
        rwa [List.length_append, List.length_singleton] at h
      have hs₂ : init ++ [v] ++ u :: post = init ++ v :: (u :: post) := by simp
      refine hstore.step (hstore'.step ((ih (s := ⟨_, s.samplecount⟩) hinit hs₂).mono ?_))
      rintro _ s' ⟨pre', hpre', hperm, rfl⟩
      refine ⟨pre' ++ [u], ?_, ?_, by simp⟩
      · refine List.pairwise_append.mpr ⟨hpre', List.pairwise_singleton _ _, ?_⟩
        intro a ha b hb
        rw [List.mem_singleton.mp hb]
        rcases List.mem_cons.mp (hperm.mem_iff.mp ha) with rfl | ha
        · exact hgt.le
        · exact hu a ha
      · exact (hperm.append_right [u]).trans (by simp)
    · next hgt =>
      refine .pure ⟨init ++ [u] ++ [v], ?_, List.perm_append_singleton v (init ++ [u]), ?_⟩
      · refine List.pairwise_append.mpr ⟨hsorted, List.pairwise_singleton _ _, ?_⟩
        intro a ha b hb
        rw [List.mem_singleton.mp hb]
        rcases List.mem_append.mp ha with ha | ha
        · exact (hu a ha).trans (not_lt.mp hgt)
        · rw [List.mem_singleton.mp ha]
          exact not_lt.mp hgt
      · rw [List.append_assoc, List.singleton_append, ← hs]

variable {k : Nat} {l : List α} {s : Sampler α}

/-- The array has the smallest of the samples `l`, and zeros behind them. -/
structure Sampled [Zero α] (k : Nat) (l : List α) (s : Sampler α) : Prop where
  count : s.samplecount = l.length
  values : s.values = smallest k l ++ List.replicate (k - l.length) 0

variable [Zero α]

/-- While there is room, a sample is put behind the others. -/
theorem Sampled.room (h : Sampled k l s) (hlt : l.length < k) (v : α) :
    Ensures (addSample k v) s fun _ s' => Sampled k (v :: l) s' := by
  obtain ⟨values, count⟩ := s
  obtain rfl : count = l.length := h.count
  have hlen : (smallest k l).length = l.length := by
    rw [smallest_length, Nat.min_eq_right hlt.le]
  obtain ⟨zeros, hzeros⟩ : ∃ z, k - l.length = z + 1 := ⟨k - l.length - 1, by omega⟩
  have hvalues : values = smallest k l ++ 0 :: List.replicate zeros 0 := by
    rw [← List.replicate_succ, ← hzeros]
    exact h.values
  have hput : Returns (putSample k v) ⟨values, l.length⟩ (smallest k l).length
      ⟨smallest k l ++ v :: List.replicate zeros 0, l.length⟩ := by
    have hstore := storeValue_returns (s := ⟨values, l.length⟩) _ (w := v) hvalues
    unfold putSample
    refine Returns.bind (a := (⟨values, l.length⟩ : Sampler α)) rfl ?_
    dsimp only
    rw [if_pos hlt]
    rw [hlen] at hstore ⊢
    exact hstore.bind (.pure _ _)
  unfold addSample
  rw [smallest_of_length_le hlt.le] at hput
  refine hput.step (Returns.step (a := ()) rfl
    ((insertionSort_ensures (inOrder_pairwise l) rfl).mono ?_))
  rintro _ s' ⟨pre, hpre, hperm, rfl⟩
  have hsmall : smallest k (v :: l) = pre := by
    rw [smallest_of_length_le hlt, eq_inOrder hpre (hperm.trans ((inOrder_perm l).cons v))]
  have hrest : k - (v :: l).length = zeros := by
    rw [List.length_cons]
    omega
  exact ⟨rfl, by rw [hsmall, hrest]⟩

/-- Later a sample replaces the last one if it is smaller. -/
theorem Sampled.full (h : Sampled k l s) (hk : 0 < k) (hle : k ≤ l.length) (v : α) :
    Ensures (addSample k v) s fun _ s' => Sampled k (v :: l) s' := by
  obtain ⟨values, count⟩ := s
  obtain rfl : count = l.length := h.count
  have hvalues : values = smallest k l := by
    have := h.values
    rwa [Nat.sub_eq_zero_of_le hle, List.replicate_zero, List.append_nil] at this
  subst hvalues
  have hlen : (smallest k l).length = k := by rw [smallest_length, Nat.min_eq_left hle]
  -- the last one of the smallest
  obtain ⟨init, last, hsplit⟩ := exists_concat hlen hk
  have hinit : k - 1 = init.length := by
    rw [hsplit, List.length_append, List.length_singleton] at hlen
    omega
  have hrest : k - (v :: l).length = 0 := Nat.sub_eq_zero_of_le (hle.trans (Nat.le_succ _))
  have hload : Returns (loadValue (k - 1)) (⟨smallest k l, l.length⟩ : Sampler α) last
      ⟨smallest k l, l.length⟩ := by
    rw [hinit]
    exact loadValue_returns (s := ⟨smallest k l, l.length⟩) init hsplit
  by_cases hv : v < last
  · have hput : Returns (putSample k v) ⟨smallest k l, l.length⟩ init.length
        ⟨init ++ v :: [], l.length⟩ := by
      have hstore := storeValue_returns (s := ⟨smallest k l, l.length⟩) init (w := v) hsplit
      unfold putSample
      refine Returns.bind (a := (⟨smallest k l, l.length⟩ : Sampler α)) rfl ?_
      dsimp only
      rw [if_neg (Nat.not_lt.mpr hle)]
      refine hload.bind ?_
      rw [if_pos hv, hinit]
      exact hstore.bind (.pure _ _)
    have hsorted : init.Pairwise (· ≤ ·) := by
      obtain ⟨-, -, hpre, -⟩ := exists_split k l
      rw [hsplit] at hpre
      exact (List.pairwise_append.mp hpre).1
    unfold addSample
    refine hput.step (Returns.step (a := ()) rfl ((insertionSort_ensures hsorted rfl).mono ?_))
    rintro _ s' ⟨pre, hpre, hperm, rfl⟩
    refine ⟨rfl, ?_⟩
    rw [smallest_cons_of_lt hsplit hlen hv hpre hperm, hrest]
    rfl
  · have hput : Returns (putSample k v) ⟨smallest k l, l.length⟩ 0
        ⟨smallest k l, l.length⟩ := by
      unfold putSample
      refine Returns.bind (a := (⟨smallest k l, l.length⟩ : Sampler α)) rfl ?_
      dsimp only
      rw [if_neg (Nat.not_lt.mpr hle)]
      refine hload.bind ?_
      rw [if_neg hv]
      exact .pure _ _
    unfold addSample
    refine hput.step (Returns.step (a := ()) rfl (.pure ⟨rfl, ?_⟩))
    rw [smallest_cons_of_le hsplit hlen (not_lt.mp hv), hrest, List.replicate_zero,
      List.append_nil]

/-- The first `n` measurements, the last one first. -/
def taken (cyc : Nat → α) : (n : Nat) → List α
  | 0 => []
  | n + 1 => cyc n :: taken cyc n

end

end CToys.Malloc.Driver.Fcyc
