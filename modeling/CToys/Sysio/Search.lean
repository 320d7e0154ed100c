import CToys.Lib.Transfers
import CToys.Sysio.Mylined

/-!
# The search of `mylined`

The variables of the search after the first `e` bytes are a function of these bytes only,
whatever the chunks in which they were read.  `scanned` says what they are before the
newline of the line and `found` what they are when the search is over.

Let `n` be the number of bytes before the line.  The last of them is the newline before it,
so `prevbrk` should end up at `n - 1`.  The loop puts it at the first offset from there on
that is not 0 (`mark`), if this comes before the newline of the line.
-/

namespace CToys.Sysio

open Posix

/-- Where `prevbrk` is put for a line with `n` bytes before it. -/
def mark (n : Nat) : Nat := max 1 (n - 1)

/-- The value of `prevbrk` after `e` bytes. -/
def prevAt (n e : Nat) : Nat := if mark n < e then mark n else 0

theorem prevAt_le (n e : Nat) : prevAt n e ≤ e := by
  unfold prevAt
  split <;> omega

/-- The variables after `e` bytes, none of which is the newline of the line. -/
def scanned (cs : List UInt8) (n e : Nat) : Scan := ⟨(cs.take e).count newline, prevAt n e, 0⟩

/-- The variables when the newline of line `m` is found, at offset `q`. -/
def found (m n q : Nat) : Scan := ⟨m + 1, prevAt n q, q⟩

section

variable {cs u v w : List UInt8} {m : Nat}

/-- The number of newlines after another byte. -/
private theorem linebrks_eq (hc : cs.length < 2 ^ 31) {e : Nat} {x : UInt8} (hx : cs[e]? = some x) :
    (if x = newline then add64 ((cs.take e).count newline) 1 else (cs.take e).count newline)
      = (cs.take (e + 1)).count newline := by
  have hle : (cs.take e).count newline ≤ e :=
    List.count_le_length.trans (List.length_take_le _ _)
  have he : e < cs.length := (List.getElem?_eq_some_iff.mp hx).1
  rw [List.take_add_one, hx, Option.toList_some, List.count_append]
  split
  · next hnl => rw [add64_of_lt (by omega), hnl, List.count_singleton_self]
  · next hnl => rw [List.count_cons_of_ne hnl, List.count_nil, Nat.add_zero]

/-- The line number is a `size_t`. -/
private theorem lineno_lt (h : LineAt cs m u v w) (hc : cs.length < 2 ^ 31) : m + 1 < 2 ^ 64 := by
  have hle : u.count newline ≤ u.length := List.count_le_length
  rw [h.split, List.length_append, List.length_append] at hc
  rw [h.count] at hle
  omega

/-- The value of `prevbrk` after another byte. -/
private theorem prevAt_succ {n e : Nat} {p : Prop} [Decidable p] (hp : p ↔ n ≤ e + 1) :
    (if p ∧ (prevAt n e : Int) = 0 then (e : Int) else prevAt n e) = prevAt n (e + 1) := by
  unfold prevAt mark
  simp only [hp]
  split <;> split <;> split <;> omega

/-- A round before the newline of the line. -/
theorem scanByte_scanned (h : LineAt cs m u v w) (hc : cs.length < 2 ^ 31) {e : Nat}
    (he : e < u.length + v.length) {x : UInt8} (hx : cs[e]? = some x) :
    scanByte (m + 1) (scanned cs u.length e) x e = (scanned cs u.length (e + 1), false) := by
  have he' : e + 1 ≤ u.length + v.length := he
  obtain ⟨hle, hiff⟩ := h.count_take he'
  have hne : (cs.take (e + 1)).count newline ≠ m + 1 := by omega
  have hsub : sub64 (m + 1) 1 = m := sub64_of_le (Nat.le_add_left 1 m) (lineno_lt h hc)
  unfold scanByte scanned
  simp only [linebrks_eq hc hx, hsub, hne, false_and, if_false, prevAt_succ hiff]

/-- The round with the newline of the line. -/
theorem scanByte_found (h : LineAt cs m u v w) (hc : cs.length < 2 ^ 31) {q : Nat}
    (hq : q = u.length + v.length) :
    scanByte (m + 1) (scanned cs u.length q) newline q = (found m u.length q, true) := by
  have hm := lineno_lt h hc
  have hcount : (cs.take q).count newline = m :=
    (h.count_take (Nat.le_of_eq hq)).2.mpr (by omega)
  have hadd : add64 m 1 = m + 1 := add64_of_lt hm
  have hsub : sub64 (m + 1) 1 = m := sub64_of_le (Nat.le_add_left 1 m) hm
  have hne : ¬ (m + 1 = m) := by omega
  unfold scanByte scanned found
  simp only [hcount, if_true, hadd, hsub, hne, false_and, if_false, and_self]

/-- The `for` loop over the bytes at offset `pos + i`. -/
theorem scanChunk_eq (h : LineAt cs m u v w) (hc : cs.length < 2 ^ 31) {q : Nat}
    (hq : q = u.length + v.length) {pos : Nat} {rest : List UInt8} :
    ∀ {buf : List UInt8} {i : Nat}, pos + i ≤ q → cs.drop (pos + i) = buf ++ rest →
      scanChunk (m + 1) pos buf i (scanned cs u.length (pos + i)) =
        if pos + i + buf.length ≤ q then scanned cs u.length (pos + i + buf.length)
        else found m u.length q
  | [], i, hi, _ => by
      rw [scanChunk, List.length_nil, Nat.add_zero, if_pos hi]
  | x :: buf, i, hi, hbuf => by
      have hx : cs[pos + i]? = some x := by
        rw [← List.head?_drop, hbuf]
        rfl
      have hlt : pos + i < cs.length := (List.getElem?_eq_some_iff.mp hx).1
      have hoff : int32 ((pos : Int) + i) = ((pos + i : Nat) : Int) := by
        rw [← Nat.cast_add]
        exact int32_of_lt (by omega)
      have hdrop : cs.drop (pos + (i + 1)) = buf ++ rest := by
        rw [← Nat.add_assoc, ← List.drop_drop, hbuf]
        rfl
      rw [scanChunk, hoff]
      rcases Nat.lt_or_ge (pos + i) q with hbefore | hafter
      · simp only [scanByte_scanned h hc (hq ▸ hbefore) hx]
        have ih := scanChunk_eq h hc hq (i := i + 1) (by omega) hdrop
        rw [Nat.cast_add, Nat.cast_one] at ih
        simp only [Bool.false_eq_true, if_false, List.length_cons]
        have hlen : pos + i + (buf.length + 1) = pos + (i + 1) + buf.length := by omega
        rw [hlen]
        exact ih
      · obtain rfl : pos + i = q := Nat.le_antisymm hi hafter
        have hnl := h.getElem?_newline
        rw [← hq, hx, Option.some.injEq] at hnl
        subst hnl
        simp only [scanByte_found h hc hq, if_true, List.length_cons]
        rw [if_neg (by omega)]

/-! ## Reading -/

/-- From `k` to `k'` nothing happened but reads through `fd`. -/
structure OnlyRead (k k' : Kernel) (fd : Int) : Prop where
  files : k'.files = k.files
  stdout : k'.stdout = k.stdout
  offset : ∃ off, k'.fds fd = some ⟨theFile, .rdonly, off⟩
  others : ∀ fd', fd' ≠ fd → k'.fds fd' = k.fds fd'

theorem OnlyRead.read {k k' : Kernel} {fd : Int} {off : Nat} {bytes : List UInt8}
    (h : OnlyRead (k.didRead fd ⟨theFile, .rdonly, off⟩ bytes) k' fd) : OnlyRead k k' fd :=
  ⟨h.files, h.stdout, h.offset,
    fun fd' hfd => (h.others fd' hfd).trans (Kernel.didRead_fds_of_ne _ _ _ hfd)⟩

theorem OnlyRead.of_read (k : Kernel) (fd : Int) (off : Nat) (bytes : List UInt8) :
    OnlyRead k (k.didRead fd ⟨theFile, .rdonly, off⟩ bytes) fd :=
  ⟨rfl, rfl, ⟨_, Kernel.didRead_fds_self ..⟩, fun _ hfd => Kernel.didRead_fds_of_ne _ _ _ hfd⟩

/-- The search finds the line, whatever the chunks are, and reads up to its end. -/
theorem scanLoop_ensures {sched : Schedule} (hs : sched.Smooth) (h : LineAt cs m u v w)
    (hc : cs.length < 2 ^ 31) {q : Nat} (hq : q = u.length + v.length) {fd1 : Int} :
    ∀ {left d : Nat} {k : Kernel}, d ≤ q → cs.length < d + left → k.files theFile = cs →
      k.fds fd1 = some ⟨theFile, .rdonly, d⟩ →
      Ensures (scanLoop sched fd1 (m + 1) left d (scanned cs u.length d)) k fun s k' =>
        s = found m u.length q ∧ OnlyRead k k' fd1 ∧
          ∀ old lo, Ordered k theFile old lo d →
            ∃ hi, q < hi ∧ Ordered k' theFile old lo hi := by
  have hql : q < cs.length := by
    rw [h.split, hq]
    simp
  intro left
  induction left with
  | zero =>
    intro d k hd hleft
    omega
  | succ left ih =>
    intro d k hd hleft hfile hfd
    have hdrop : (k.files theFile).drop d = cs.drop d := by rw [hfile]
    rw [scanLoop]
    rcases read_cases hs.read (n := bufSize) (by decide) hfd (by simp) hdrop with
      ⟨hrest, -⟩ | ⟨bytes, rest, hbytes, -, hrest, hread⟩
    · have := List.drop_eq_nil_iff.mp hrest
      omega
    obtain ⟨x, l, rfl⟩ := List.exists_cons_of_ne_nil hbytes
    have hchunk := scanChunk_eq h hc hq (i := 0) hd hrest
    have hlen : (x :: l).length ≤ cs.length - d := by
      rw [← List.length_drop, hrest, List.length_append]
      omega
    have hpos : (x :: l).length ≠ 0 := by simp
    have hpos' : int32 (d + ((x :: l).length : Int)) = ((d + (x :: l).length : Nat) : Int) := by
      rw [← Nat.cast_add]
      exact int32_of_lt (by omega)
    simp only [Nat.cast_zero, Nat.add_zero] at hchunk
    refine hread.step ?_
    simp only [hpos']
    rw [hchunk]
    rcases Nat.lt_or_ge q (d + (x :: l).length) with hfound | hnot
    · simp only [if_neg (Nat.not_le.mpr hfound)]
      have hover : (found m u.length q).linebrks = m + 1 := rfl
      rw [if_pos hover]
      exact .pure ⟨rfl, .of_read .., fun old lo hord => ⟨_, hfound, hord.read fd1 .rdonly _⟩⟩
    · have hle := (h.count_take (hq ▸ hnot)).1
      simp only [if_pos hnot]
      rw [if_neg (by simp only [scanned]; omega)]
      have hleft' : cs.length < d + (x :: l).length + left := by omega
      refine (ih (k := k.didRead fd1 ⟨theFile, .rdonly, d⟩ (x :: l)) hnot hleft' hfile
        (Kernel.didRead_fds_self ..)).mono ?_
      rintro s k' ⟨hs', hread', hordered⟩
      exact ⟨hs', hread'.read, fun old lo hord => hordered old lo (hord.read fd1 .rdonly _)⟩

end

end CToys.Sysio
