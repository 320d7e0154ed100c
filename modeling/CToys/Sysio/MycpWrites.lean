import CToys.Sysio.MycpSysio

/-!
# Short and failed writes

The copy is right as far as it goes if and only if all its pieces are in place: the source
has the bytes that a call of `write` takes, which are the first ones of the chunk, also at
the offset where they are put.

After a short write the next call puts the first bytes of the chunk behind themselves.
After a failed write the next chunk is put where the failed one belongs.  If all writes are
complete up to some call and fail from there on, every piece is in place
(`transfers_inPlace`).
-/

namespace CToys.Sysio.Mycp

open Posix

/-- At exit the destination has the bytes of the source. -/
def CopiesAll (sched : Schedule) (k : Kernel) (source dest : Nat) : Prop :=
  Ends (mycpSysio sched [source, dest]) k fun _ k' => k'.files dest = k.files source

/-- At exit the destination has the first bytes of the source, and all of them if no call of
`read` or `write` failed. -/
def CopiesPrefix (sched : Schedule) (k : Kernel) (source dest : Nat) : Prop :=
  Ends (mycpSysio sched [source, dest]) k fun _ k' =>
    k'.files dest <+: k.files source ∧
      (Unfailing sched.read k.reads k'.reads → Unfailing sched.write k.writes k'.writes →
        k'.files dest = k.files source)

section

variable {sched : Schedule} {source dest : Nat}

/-- Where no call fails, the copy is complete exactly if every piece is in place. -/
theorem copiesAll_iff (hopens : ∀ i, sched.opens i = true) (hreads : ∀ i, sched.read i ≠ .error)
    (hwrites : ∀ i, sched.write i ≠ .error) (hne : source ≠ dest) (k : Kernel) :
    CopiesAll sched k source dest ↔
      ∀ p ∈ (transfers sched k source).pieces, p.InPlace (k.files source) := by
  have hcovers := transfers_covers sched k source
  have htotal := hcovers.total_eq (fun i _ _ => hreads i) (fun i _ _ => hwrites i)
  obtain ⟨status, k', hexit, -, hdest, -⟩ := mycpSysio_ends hopens hne [] k
  have heq := gather_eq_iff hcovers.consecutive
  rw [← hdest] at heq
  constructor
  · rintro ⟨status', k'', hexit', hall⟩
    obtain ⟨-, rfl⟩ := hexit.unique hexit'
    exact (heq.mp hall).2
  · exact fun hplace => ⟨status, k', hexit, heq.mpr ⟨htotal, hplace⟩⟩

end

/-- A kernel with a source and an empty destination. -/
def holding (source : List UInt8) : Kernel where
  files := fun file => if file = 0 then source else []
  fds := fun _ => none
  opens := 3
  reads := 0
  writes := 0
  trace := []
  stdout := []

/-- The first write transfers one byte. -/
def shortFirst : Schedule :=
  ⟨fun _ => true, fun _ => .all, fun i => if i = 0 then .upTo 0 else .all, false⟩

theorem shortFirst_write (i : Nat) : shortFirst.write i ≠ .error := by
  unfold shortFirst
  dsimp only
  split <;> nofun

/-- Two equal bytes are copied in two writes. -/
theorem copiesAll_twin : CopiesAll shortFirst (holding [1, 1]) 0 1 := by
  have hreads : ∀ i, shortFirst.read i ≠ .error := fun _ => nofun
  exact (copiesAll_iff (fun _ => rfl) hreads shortFirst_write (by decide) (holding [1, 1])).mpr
    (by decide)

/-- Of two different bytes, the first is written twice. -/
theorem not_copiesAll_short :
    ((∀ i, shortFirst.read i ≠ .error) ∧ ∀ i, shortFirst.write i ≠ .error) ∧
      ¬ CopiesAll shortFirst (holding [1, 2]) 0 1 := by
  refine ⟨⟨fun _ => nofun, shortFirst_write⟩, ?_⟩
  rintro ⟨status, k, hexit, hout⟩
  have hrun : atExit (·.files 1) (mycpSysio shortFirst [0, 1]) (holding [1, 2]) =
      some (0, [1, 1]) := by decide
  obtain ⟨k', hexit', hout'⟩ := Exits.of_atExit hrun
  obtain ⟨-, rfl⟩ := hexit'.unique hexit
  rw [hout] at hout'
  cases hout'

section

variable {sched : Schedule} {source dest : Nat}

/-- Whatever calls fail or are short, the copy is a prefix of the source exactly if every piece
is in place. -/
theorem copiesPrefix_iff (hopens : ∀ i, sched.opens i = true) (hne : source ≠ dest) (k : Kernel) :
    CopiesPrefix sched k source dest ↔
      ∀ p ∈ (transfers sched k source).pieces, p.InPlace (k.files source) := by
  have hcovers := transfers_covers sched k source
  obtain ⟨status, k', hexit, -, hdest, hfollows⟩ := mycpSysio_ends hopens hne [] k
  have hprefix := gather_prefix_iff hcovers.consecutive
  rw [← hdest, List.drop_zero] at hprefix
  constructor
  · rintro ⟨status', k'', hexit', hpre, -⟩
    obtain ⟨-, rfl⟩ := hexit.unique hexit'
    exact hprefix.mp hpre
  · intro hplace
    refine ⟨status, k', hexit, hprefix.mpr hplace, fun hr hw => ?_⟩
    rw [hfollows.reads] at hr
    rw [hfollows.writes] at hw
    rw [hdest]
    exact (gather_eq_iff hcovers.consecutive).mpr ⟨hcovers.total_eq hr hw, hplace⟩

end

/-- Reads transfer one byte, and the first write fails. -/
def failFirst : Schedule :=
  ⟨fun _ => true, fun _ => .upTo 0, fun i => if i = 0 then .error else .all, false⟩

theorem failFirst_write (i : Nat) :
    failFirst.write i = .all ∨ failFirst.write i = .error := by
  unfold failFirst
  dsimp only
  split
  · exact .inr rfl
  · exact .inl rfl

/-- Of two equal bytes, one is lost, which leaves a prefix. -/
theorem copiesPrefix_twin : CopiesPrefix failFirst (holding [1, 1]) 0 1 :=
  (copiesPrefix_iff (fun _ => rfl) (by decide) (holding [1, 1])).mpr (by decide)

/-- Of two different bytes, the second is put where the first belongs. -/
theorem not_copiesPrefix_fail :
    (∀ i, failFirst.write i = .all ∨ failFirst.write i = .error) ∧
      ¬ CopiesPrefix failFirst (holding [1, 2]) 0 1 := by
  refine ⟨failFirst_write, ?_⟩
  rintro ⟨status, k, hexit, hpre, -⟩
  have hrun : atExit (·.files 1) (mycpSysio failFirst [0, 1]) (holding [1, 2]) =
      some (0, [2]) := by decide
  obtain ⟨k', hexit', hout⟩ := Exits.of_atExit hrun
  obtain ⟨rfl, rfl⟩ := hexit'.unique hexit
  rw [hout] at hpre
  exact absurd hpre (by decide)

/-! ## Writes that are complete until they fail -/

/-- From call `i` on every write fails. -/
def FailsFrom (sched : Schedule) (i : Nat) : Prop := ∀ j, i ≤ j → sched.write j = .error

section

variable {sched : Schedule} {start left reads writes off num : Nat}

/-- All transfers of a plan are put where they were taken from. -/
def Plan.Straight (P : Plan) : Prop := ∀ p ∈ P.pieces, p.start = p.off

theorem Plan.Straight.of_nil {P : Plan} (h : P.pieces = []) : P.Straight := by
  intro p hp
  rw [h] at hp
  cases hp

theorem chunkPlan_of_failsFrom (h : FailsFrom sched writes) (start left reads off num : Nat) :
    (chunkPlan sched start (left + 1) reads writes off num).pieces = [] ∧
      FailsFrom sched (chunkPlan sched start (left + 1) reads writes off num).writes := by
  rcases Nat.eq_zero_or_pos num with rfl | hnum
  · exact ⟨rfl, h⟩
  · rw [chunkPlan_error hnum (by rw [h writes le_rfl]; rfl)]
    exact ⟨rfl, fun j hj => h j ((Nat.le_succ _).trans hj)⟩

theorem copyPlan_of_failsFrom (h : FailsFrom sched writes) :
    (copyPlan sched left reads writes start off num).pieces = [] := by
  induction left generalizing reads writes start off num with
  | zero => rfl
  | succ left ih =>
    rcases copyPlan_cases sched left reads writes start off num with
      ⟨-, hplan⟩ | ⟨len, chunk, rest, -, -, rfl, rfl, hplan⟩
    · rw [hplan]
    · rw [hplan]
      dsimp only
      rw [(chunkPlan_of_failsFrom h ..).1, ih (chunkPlan_of_failsFrom h ..).2, List.append_nil]

/-- While the writes are complete, a chunk is one piece. -/
theorem copyPlan_straight (hw : ∀ i, sched.write i = .all ∨ FailsFrom sched i) :
    (copyPlan sched left reads writes start start num).Straight := by
  induction left generalizing reads writes start num with
  | zero => exact .of_nil rfl
  | succ left ih =>
    rcases hw writes with hall | hfails
    swap
    · exact .of_nil (copyPlan_of_failsFrom hfails)
    rcases copyPlan_cases sched left reads writes start start num with
      ⟨-, hplan⟩ | ⟨len, chunk, rest, hpos, -, hchunk, rfl, hplan⟩
    · rw [hplan]
      exact .of_nil rfl
    have hone : chunk = ⟨[⟨start, start, len⟩], reads + 1, writes + 1⟩ := by
      rw [← hchunk, chunkPlan_write hpos (by rw [hall]; rfl), Nat.sub_self]
      obtain ⟨l, rfl⟩ := Nat.exists_eq_succ_of_ne_zero hpos.ne'
      rw [chunkPlan_done]
    rw [hplan, hone]
    refine List.forall_mem_cons.mpr ⟨rfl, ?_⟩
    exact ih

/-- If the writes are complete until they fail for good, every piece is in place. -/
theorem transfers_inPlace (hw : ∀ i, sched.write i = .all ∨ FailsFrom sched i) (k : Kernel)
    (source : Nat) : ∀ p ∈ (transfers sched k source).pieces, p.InPlace (k.files source) :=
  fun p hp => Piece.inPlace_of_eq (copyPlan_straight hw p hp)

end

end CToys.Sysio.Mycp
