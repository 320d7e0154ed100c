import Mathlib.Data.List.Basic

/-!
# Lines

A line of a byte sequence ends with its newline byte, and only the last line may lack one.
`LineAt c m u v w` cuts `c` at line `m`, counted from 0: the lines `u` before it, the line
`v` itself without its newline, and the rest `w`.  `deleteLine` takes the line out.
`IsLines c ls` says that `ls` are the lines of `c`, with their newlines, and `lineCount c` is
how many they are.
-/

namespace CToys

/-- `'\n'`. -/
def newline : UInt8 := 10

/-- The sequence without line `m`, counted from 0. -/
def deleteLine : (m : Nat) → List UInt8 → List UInt8
  | _, [] => []
  | 0, c :: cs => if c = newline then cs else deleteLine 0 cs
  | m + 1, c :: cs => c :: deleteLine (if c = newline then m else m + 1) cs

/-- Line `m` of `c` is `v`, with `u` before it and `w` behind its newline. -/
structure LineAt (c : List UInt8) (m : Nat) (u v w : List UInt8) : Prop where
  split : c = u ++ v ++ newline :: w
  count : u.count newline = m
  start : u = [] ∨ u.getLast? = some newline
  line : newline ∉ v

/-- A sequence with more than `m` newlines has a line `m`. -/
theorem exists_lineAt : ∀ {c : List UInt8} {m : Nat}, m < c.count newline →
    ∃ u v w, LineAt c m u v w
  | [], m, h => by simp at h
  | x :: c, 0, h => by
      by_cases hx : x = newline
      · exact ⟨[], [], c, by simp [hx], rfl, .inl rfl, by simp⟩
      · rw [List.count_cons_of_ne hx] at h
        obtain ⟨u, v, w, hsplit, hcount, hstart, hline⟩ := exists_lineAt h
        obtain rfl : u = [] := hstart.resolve_right fun hlast =>
          List.count_eq_zero.mp hcount (List.mem_of_getLast? hlast)
        exact ⟨[], x :: v, w, by simpa using hsplit, rfl, .inl rfl, by simp [Ne.symm hx, hline]⟩
  | x :: c, m + 1, h => by
      by_cases hx : x = newline
      · rw [hx, List.count_cons_self] at h
        obtain ⟨u, v, w, hsplit, hcount, hstart, hline⟩ := exists_lineAt (Nat.lt_of_succ_lt_succ h)
        refine ⟨x :: u, v, w, by simp [hsplit], by simp [hx, hcount], .inr ?_, hline⟩
        rcases hstart with rfl | hlast
        · simp [hx]
        · simp [List.getLast?_cons, hlast]
      · rw [List.count_cons_of_ne hx] at h
        obtain ⟨u, v, w, hsplit, hcount, hstart, hline⟩ := exists_lineAt h
        refine ⟨x :: u, v, w, by simp [hsplit], ?_, .inr ?_, hline⟩
        · rw [List.count_cons_of_ne hx, hcount]
        · rcases hstart with rfl | hlast
          · simp at hcount
          · simp [List.getLast?_cons, hlast]

namespace LineAt

variable {cs u v w : List UInt8} {m : Nat}

/-- The lines before and behind are left. -/
theorem deleteLine_eq (h : LineAt cs m u v w) : deleteLine m cs = u ++ w := by
  obtain ⟨rfl, hcount, hstart, hline⟩ := h
  induction u generalizing m with
  | nil =>
    obtain rfl : 0 = m := hcount
    induction v with
    | nil => simp [deleteLine]
    | cons x v ih =>
      simp only [List.mem_cons, not_or] at hline
      simpa [deleteLine, Ne.symm hline.1] using ih hline.2
  | cons x u ih =>
    have hlast : u = [] ∧ x = newline ∨ u.getLast? = some newline := by
      rcases hstart with h | h
      · cases h
      · cases u with
        | nil => exact .inl ⟨rfl, by simpa using h⟩
        | cons y u => exact .inr (by simpa [List.getLast?_cons] using h)
    have hstart' : u = [] ∨ u.getLast? = some newline := hlast.imp_left And.left
    obtain ⟨m, rfl⟩ : ∃ k, m = k + 1 := by
      refine Nat.exists_eq_add_one.mpr ?_
      rw [← hcount]
      refine List.count_pos_iff.mpr ?_
      rcases hlast with ⟨-, rfl⟩ | h
      · exact List.mem_cons_self
      · exact List.mem_cons_of_mem _ (List.mem_of_getLast? h)
    by_cases hx : x = newline
    · rw [hx, List.count_cons_self] at hcount
      have := ih (Nat.succ.inj hcount) hstart'
      simpa [deleteLine, hx] using this
    · rw [List.count_cons_of_ne hx] at hcount
      have := ih hcount hstart'
      simpa [deleteLine, hx] using this

/-- How many newlines there are in the first bytes, up to the end of the line. -/
theorem count_take (h : LineAt cs m u v w) {e : Nat} (he : e ≤ u.length + v.length) :
    (cs.take e).count newline ≤ m ∧ ((cs.take e).count newline = m ↔ u.length ≤ e) := by
  obtain ⟨rfl, hcount, hstart, hline⟩ := h
  rcases Nat.lt_or_ge e u.length with hlt | hge
  · rcases hstart with rfl | hlast
    · simp at hlt
    obtain ⟨u', rfl⟩ := List.getLast?_eq_some_iff.mp hlast
    rw [List.length_append, List.length_singleton] at hlt
    rw [List.append_assoc, List.append_assoc, List.take_append_of_le_length (by omega)]
    have hle := (List.take_sublist e u').count_le newline
    simp only [List.count_append, List.count_singleton_self] at hcount
    rw [List.length_append, List.length_singleton]
    omega
  · have hv : (v.take (e - u.length)).count newline = 0 :=
      List.count_eq_zero.mpr fun hm => hline (List.mem_of_mem_take hm)
    rw [List.append_assoc, List.take_append, List.take_of_length_le hge,
      List.take_append_of_le_length (by omega), List.count_append, hv, hcount]
    omega

/-- The newline of the line. -/
theorem getElem?_newline (h : LineAt cs m u v w) :
    cs[u.length + v.length]? = some newline := by
  rw [h.split, ← List.length_append, List.getElem?_append_right (Nat.le_refl _), Nat.sub_self]
  rfl

end LineAt

/-! ## All lines -/

/-- `ls` are the lines of `c`: each ends at its first newline, or at the end of `c`. -/
structure IsLines (c : List UInt8) (ls : List (List UInt8)) : Prop where
  flatten : ls.flatten = c
  line : ∀ l ∈ ls, l ≠ [] ∧ newline ∉ l.dropLast
  ended : ∀ l ∈ ls.dropLast, l.getLast? = some newline

/-- Every sequence has lines. -/
theorem exists_isLines : ∀ c : List UInt8, ∃ ls, IsLines c ls
  | [] => ⟨[], rfl, by simp, by simp⟩
  | x :: c => by
      obtain ⟨ls, hflatten, hline, hended⟩ := exists_isLines c
      by_cases hx : x = newline
      · -- a line of its own
        refine ⟨[x] :: ls, by simp [hflatten], fun l hl => ?_, fun l hl => ?_⟩
        · rcases List.mem_cons.mp hl with rfl | hl
          · simp
          · exact hline l hl
        · cases ls with
          | nil => simp at hl
          | cons l' ls =>
            rcases List.mem_cons.mp hl with rfl | hl
            · simp [hx]
            · exact hended l hl
      · cases ls with
        | nil => exact ⟨[[x]], by simpa using hflatten, by simp, by simp⟩
        | cons l' ls =>
          obtain ⟨hne, hl'⟩ := hline l' List.mem_cons_self
          refine ⟨(x :: l') :: ls, by simpa using hflatten, fun l hl => ?_, fun l hl => ?_⟩
          · rcases List.mem_cons.mp hl with rfl | hl
            · simp [List.dropLast_cons_of_ne_nil hne, Ne.symm hx, hl']
            · exact hline l (List.mem_cons_of_mem _ hl)
          · cases ls with
            | nil => simp at hl
            | cons l'' ls =>
              rcases List.mem_cons.mp hl with rfl | hl
              · rw [List.getLast?_cons_of_ne_nil hne]
                exact hended l' List.mem_cons_self
              · exact hended l (List.mem_cons_of_mem _ hl)

/-- The last line lacks its newline. -/
def Unterminated (c : List UInt8) : Prop := c ≠ [] ∧ c.getLast? ≠ some newline

instance (c : List UInt8) : Decidable (Unterminated c) := inferInstanceAs (Decidable (_ ∧ _))

/-- The number of lines.  The last one may lack its newline. -/
def lineCount (c : List UInt8) : Nat := c.count newline + if Unterminated c then 1 else 0

theorem unterminated_append {c d : List UInt8} (hd : d ≠ []) :
    Unterminated (c ++ d) ↔ Unterminated d := by
  unfold Unterminated
  rw [List.getLast?_append_of_ne_nil c hd]
  simp [hd]

/-- A line has at most one newline, at its end. -/
theorem lineCount_line {l : List UInt8} (hne : l ≠ []) (hline : newline ∉ l.dropLast) :
    lineCount l = 1 := by
  obtain ⟨v, x, rfl⟩ : ∃ v x, l = v ++ [x] := ⟨_, _, (List.dropLast_append_getLast hne).symm⟩
  rw [List.dropLast_concat] at hline
  have hiff : Unterminated (v ++ [x]) ↔ x ≠ newline := by simp [Unterminated]
  unfold lineCount
  simp only [hiff, List.count_append, List.count_eq_zero.mpr hline]
  by_cases hx : x = newline
  · simp [hx]
  · simp [hx, List.count_cons_of_ne hx]

/-- A line with its newline before other lines. -/
theorem lineCount_append {l c : List UInt8} (hline : newline ∉ l.dropLast)
    (hlast : l.getLast? = some newline) (hne : c ≠ []) : lineCount (l ++ c) = lineCount c + 1 := by
  obtain ⟨v, rfl⟩ := List.getLast?_eq_some_iff.mp hlast
  rw [List.dropLast_concat] at hline
  unfold lineCount
  simp only [unterminated_append hne, List.count_append, List.count_eq_zero.mpr hline,
    List.count_singleton_self]
  omega

/-- `lineCount` counts the lines. -/
theorem IsLines.length_eq {c : List UInt8} {ls : List (List UInt8)} (h : IsLines c ls) :
    ls.length = lineCount c := by
  obtain ⟨rfl, hline, hended⟩ := h
  induction ls with
  | nil => rfl
  | cons l ls ih =>
    obtain ⟨hne, hl⟩ := hline l List.mem_cons_self
    cases ls with
    | nil => simpa using (lineCount_line hne hl).symm
    | cons l' ls =>
      obtain ⟨hne', -⟩ := hline l' (by simp)
      have ih' := ih (fun x hx => hline x (List.mem_cons_of_mem _ hx))
        fun x hx => hended x (List.mem_cons_of_mem _ hx)
      rw [List.length_cons, ih']
      exact (lineCount_append hl (hended l (by simp)) (by simp [hne'])).symm

/-- A line with its newline. -/
def Ended (l : List UInt8) : Prop := ∃ v, newline ∉ v ∧ l = v ++ [newline]

theorem Ended.getLast? {l : List UInt8} (h : Ended l) : l.getLast? = some newline := by
  obtain ⟨v, -, rfl⟩ := h
  exact List.getLast?_concat

theorem Ended.length_pos {l : List UInt8} (h : Ended l) : 0 < l.length := by
  obtain ⟨v, -, rfl⟩ := h
  simp

/-- Lines with their newlines are the lines of their concatenation. -/
theorem isLines_flatten {ls : List (List UInt8)} (h : ∀ l ∈ ls, Ended l) :
    IsLines ls.flatten ls where
  flatten := rfl
  line := by
    intro l hl
    obtain ⟨v, hv, rfl⟩ := h l hl
    exact ⟨by simp, by simpa using hv⟩
  ended l hl := (h l (List.dropLast_subset ls hl)).getLast?

/-- Their concatenation ends with a newline. -/
theorem getLast?_flatten {ls : List (List UInt8)} (h : ∀ l ∈ ls, Ended l) :
    ls.flatten = [] ∨ ls.flatten.getLast? = some newline := by
  rcases List.eq_nil_or_concat ls with rfl | ⟨ls', l, rfl⟩
  · exact .inl rfl
  · have hl : Ended l := h l (by simp)
    right
    rw [List.concat_eq_append, List.flatten_append, List.getLast?_append]
    simp [hl.getLast?]

/-- There is at least one byte for every line. -/
theorem length_le_flatten {ls : List (List UInt8)} (h : ∀ l ∈ ls, Ended l) :
    ls.length ≤ ls.flatten.length := by
  induction ls with
  | nil => exact Nat.le_refl 0
  | cons l ls ih =>
    have hpos := (h l List.mem_cons_self).length_pos
    have hrest := ih fun l' hl' => h l' (List.mem_cons_of_mem _ hl')
    rw [List.length_cons, List.flatten_cons, List.length_append]
    omega

end CToys
