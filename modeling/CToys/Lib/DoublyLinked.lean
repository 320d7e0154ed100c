import Mathlib.Data.List.Nodup

/-!
# Doubly linked lists

Two maps `pred` and `succ` on a type of nodes thread a list.  `Segment prev l next` says
that the nodes of `l` are linked both ways in order, that the first one points back to
`prev` and that the last one points on to `next`.  A null-terminated list is the segment
between `null` and `null`.

A segment splits at any position (`segment_append`) and depends only on the links of its
own nodes (`Segment.congr`).  From these two facts follow the edits a list
implementation makes: `Segment.link` puts a node between two halves and `Segment.unlink`
takes one out, each from the few links that it changes.
-/

namespace CToys

variable {α : Type} {pred succ pred' succ' : α → α}

/-- The nodes of `l` are linked in order between `prev` and `next`. -/
def Segment (pred succ : α → α) : α → List α → α → Prop
  | _, [], _ => True
  | prev, p :: l, next =>
      pred p = prev ∧ succ p = l.head?.getD next ∧ Segment pred succ p l next

namespace Segment

@[simp] theorem nil {prev next : α} : Segment pred succ prev [] next := trivial

@[simp] theorem cons {prev next p : α} {l : List α} :
    Segment pred succ prev (p :: l) next ↔
      pred p = prev ∧ succ p = l.head?.getD next ∧ Segment pred succ p l next := Iff.rfl

end Segment

/-- A segment splits at any position. -/
theorem segment_append {prev next : α} {l₁ l₂ : List α} :
    Segment pred succ prev (l₁ ++ l₂) next ↔
      Segment pred succ prev l₁ (l₂.head?.getD next) ∧
        Segment pred succ (l₁.getLast?.getD prev) l₂ next := by
  induction l₁ generalizing prev with
  | nil => simp
  | cons p l ih =>
    have hhead : (l ++ l₂).head?.getD next = l.head?.getD (l₂.head?.getD next) := by
      cases l <;> simp
    simp only [List.cons_append, Segment.cons, ih, hhead, List.getLast?_cons,
      Option.getD_some, and_assoc]

namespace Segment

/-- A segment reads only the links of its own nodes. -/
theorem congr {prev next : α} {l : List α} (h : Segment pred succ prev l next)
    (hp : ∀ q ∈ l, pred' q = pred q) (hs : ∀ q ∈ l, succ' q = succ q) :
    Segment pred' succ' prev l next := by
  induction l generalizing prev with
  | nil => trivial
  | cons p l ih =>
    obtain ⟨h1, h2, h3⟩ := h
    refine ⟨(hp p (by simp)).trans h1, (hs p (by simp)).trans h2, ih h3 ?_ ?_⟩
    · exact fun q hq => hp q (by simp [hq])
    · exact fun q hq => hs q (by simp [hq])

/-- The links of a node in the middle name its neighbours. -/
theorem at_node {prev next p : α} {l₁ l₂ : List α}
    (h : Segment pred succ prev (l₁ ++ p :: l₂) next) :
    pred p = l₁.getLast?.getD prev ∧ succ p = l₂.head?.getD next := by
  obtain ⟨-, h1, h2, -⟩ := segment_append.mp h
  exact ⟨h1, h2⟩

variable [DecidableEq α]

/-- Redirect the end of a segment: only the last node's forward link changes. -/
theorem redirect_next {prev next next' : α} {l : List α}
    (h : Segment pred succ prev l next) (hnd : l.Nodup)
    (hp : ∀ q ∈ l, pred' q = pred q)
    (hs : ∀ q ∈ l, succ' q = if l.getLast? = some q then next' else succ q) :
    Segment pred' succ' prev l next' := by
  rcases List.eq_nil_or_concat l with rfl | ⟨l, a, rfl⟩
  · trivial
  · rw [List.concat_eq_append] at *
    obtain ⟨h1, h2⟩ := segment_append.mp h
    obtain ⟨hndl, -, hdis⟩ := List.nodup_append.mp hnd
    refine segment_append.mpr ⟨h1.congr ?_ ?_, ?_, ?_, trivial⟩
    · exact fun q hq => hp q (by simp [hq])
    · intro q hq
      have hqa : a ≠ q := fun e => hdis q hq a (by simp) e.symm
      simpa [hqa] using hs q (by simp [hq])
    · exact (hp a (by simp)).trans h2.1
    · simpa using hs a (by simp)

/-- Redirect the start of a segment: only the first node's backward link changes. -/
theorem redirect_prev {prev prev' next : α} {l : List α}
    (h : Segment pred succ prev l next) (hnd : l.Nodup)
    (hp : ∀ q ∈ l, pred' q = if l.head? = some q then prev' else pred q)
    (hs : ∀ q ∈ l, succ' q = succ q) :
    Segment pred' succ' prev' l next := by
  cases l with
  | nil => trivial
  | cons c l =>
    obtain ⟨-, h2, h3⟩ := h
    have hc : c ∉ l := (List.nodup_cons.mp hnd).1
    refine ⟨by simpa using hp c (by simp), (hs c (by simp)).trans h2, h3.congr ?_ ?_⟩
    · intro q hq
      have hcq : c ≠ q := fun e => hc (e ▸ hq)
      simpa [hcq] using hp q (by simp [hq])
    · exact fun q hq => hs q (by simp [hq])

end Segment

/-! ## Null-terminated lists -/

/-- The nodes of `l` form a list that ends in `null` both ways. -/
def DoublyLinked (pred succ : α → α) (null : α) (l : List α) : Prop :=
  Segment pred succ null l null

namespace DoublyLinked

variable {null p : α} {l l₁ l₂ : List α}

theorem nil : DoublyLinked pred succ null [] := trivial

theorem congr (h : DoublyLinked pred succ null l) (hp : ∀ q ∈ l, pred' q = pred q)
    (hs : ∀ q ∈ l, succ' q = succ q) : DoublyLinked pred' succ' null l :=
  Segment.congr h hp hs

theorem at_node (h : DoublyLinked pred succ null (l₁ ++ p :: l₂)) :
    pred p = l₁.getLast?.getD null ∧ succ p = l₂.head?.getD null :=
  Segment.at_node h

variable [DecidableEq α]

/-- Link `p` in between `l₁` and `l₂`. -/
theorem link (h : DoublyLinked pred succ null (l₁ ++ l₂)) (hnd : (l₁ ++ l₂).Nodup)
    (hpp : pred' p = l₁.getLast?.getD null) (hsp : succ' p = l₂.head?.getD null)
    (hp : ∀ q ∈ l₁ ++ l₂, pred' q = if l₂.head? = some q then p else pred q)
    (hs : ∀ q ∈ l₁ ++ l₂, succ' q = if l₁.getLast? = some q then p else succ q) :
    DoublyLinked pred' succ' null (l₁ ++ p :: l₂) := by
  obtain ⟨h1, h2⟩ := segment_append.mp h
  obtain ⟨hnd1, hnd2, hdis⟩ := List.nodup_append.mp hnd
  refine segment_append.mpr ⟨?_, hpp, hsp, ?_⟩
  · refine h1.redirect_next hnd1 (fun q hq => ?_) (fun q hq => hs q (by simp [hq]))
    have hne : l₂.head? ≠ some q :=
      fun e => hdis q hq q (List.mem_of_mem_head? e) rfl
    simpa [hne] using hp q (by simp [hq])
  · refine h2.redirect_prev hnd2 (fun q hq => hp q (by simp [hq])) (fun q hq => ?_)
    have hne : l₁.getLast? ≠ some q :=
      fun e => hdis q (List.mem_of_getLast? e) q hq rfl
    simpa [hne] using hs q (by simp [hq])

/-- Unlink `p` from between `l₁` and `l₂`. -/
theorem unlink (h : DoublyLinked pred succ null (l₁ ++ p :: l₂))
    (hnd : (l₁ ++ p :: l₂).Nodup)
    (hp : ∀ q ∈ l₁ ++ l₂, pred' q =
      if l₂.head? = some q then l₁.getLast?.getD null else pred q)
    (hs : ∀ q ∈ l₁ ++ l₂, succ' q =
      if l₁.getLast? = some q then l₂.head?.getD null else succ q) :
    DoublyLinked pred' succ' null (l₁ ++ l₂) := by
  obtain ⟨h1, -, -, h2⟩ := segment_append.mp h
  obtain ⟨hnd1, hnd2, hdis⟩ := List.nodup_append.mp hnd
  have hndc := (List.nodup_cons.mp hnd2).2
  refine segment_append.mpr ⟨?_, ?_⟩
  · refine h1.redirect_next hnd1 (fun q hq => ?_) (fun q hq => hs q (by simp [hq]))
    have hne : l₂.head? ≠ some q :=
      fun e => hdis q hq q (List.mem_cons_of_mem _ (List.mem_of_mem_head? e)) rfl
    simpa [hne] using hp q (by simp [hq])
  · refine h2.redirect_prev hndc (fun q hq => hp q (by simp [hq])) (fun q hq => ?_)
    have hne : l₁.getLast? ≠ some q :=
      fun e => hdis q (List.mem_of_getLast? e) q (List.mem_cons_of_mem _ hq) rfl
    simpa [hne] using hs q (by simp [hq])

end DoublyLinked

end CToys
