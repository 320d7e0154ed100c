import CToys.Fs.Descent

/-!
# The calls of `mydu`

`myduLog` is `mydu` with a list of the calls that it has made.  A call is put down before it is
made, so the list is complete when a call makes the program exit.  Apart from the list there is no
difference (`myduLog_shadows`).

*Visit.*  What a run puts down is made of the calls of the loop and of what each of them puts
down in turn (`myduLog_finishes`).  In the loop every call but the last one returns.

*Below.*  A run that only goes from directories to their own entries stays below its path, so what
it puts down for one entry can be told from what it puts down for the others
(`inside_journal_iff`).
-/

namespace CToys.Fs

open FileSystem

/-- A call of `mydu`. -/
structure Call where
  /-- The path for which the caller was called. -/
  caller : Path
  callee : Path
deriving DecidableEq

/-- Put a call down. -/
def note (call : Call) : Process (List Call) Unit := modify (· ++ [call])

/-- `mydu`, with a list of the calls. -/
def myduLog (W : Wildcards) (fs : FileSystem) :
    (depth : Nat) → (pathname : Path) → Process (List Call) Nat
  | 0, _ => throw .diverges
  | depth + 1, pathname =>
      match fs.lstat pathname with
      | none => exit 1
      | some (.file st) => return st.blocks
      | some (.dir st _ _) => do
          let globres ← search W fs pathname
          let sum ← sumLoop
            (fun path => do note ⟨pathname, path⟩; myduLog W fs depth path) globres 0
          return sum + st.blocks

variable {σ : Type} {W : Wildcards} {fs : FileSystem} {path : Path} {ok : Bool} {A : List Call}

/-! ## The list is not seen -/

theorem pathCheck_shadows (q : Path) : Shadows (pathCheck q : Process σ Bool) (pathCheck q) := by
  unfold pathCheck
  split
  · exact .exit 1
  · exact .pure _

theorem globSuffix_shadows (path suffix : Path) :
    Shadows (globSuffix W fs path suffix : Process σ (List Path))
      (globSuffix W fs path suffix) := by
  unfold globSuffix strncpy strncat
  refine .bind (by split <;> exact fun _ => rfl) fun p => .bind (by split <;> exact fun _ => rfl) ?_
  intro pattern
  split
  · exact .exit 1
  · exact .pure _

theorem sumLoop_shadows {du : Path → Process σ Nat} {du' : Path → Process Unit Nat}
    (h : ∀ q, Shadows (du q) (du' q)) {ps : List Path} :
    ∀ {sum : Nat}, Shadows (sumLoop du ps sum) (sumLoop du' ps sum) := by
  induction ps with
  | nil => exact .pure _
  | cons q ps ih =>
    refine .bind (pathCheck_shadows q) fun b => ?_
    cases b with
    | true => exact .bind (h q) fun _ => ih
    | false => exact ih

/-- `myduLog` does what `mydu` does. -/
theorem myduLog_shadows (depth : Nat) :
    ∀ path, Shadows (myduLog W fs depth path) (mydu W fs depth path) := by
  induction depth with
  | zero => exact fun _ _ => rfl
  | succ depth ih =>
    intro path
    rw [myduLog, mydu]
    rcases fs.lstat path with _ | ⟨st⟩ | ⟨st, l, child⟩
    · exact .exit 1
    · exact .pure _
    · refine .bind ?_ fun globres => .bind ?_ fun sum => .pure _
      · exact .bind (globSuffix_shadows _ _) fun _ => .bind (globSuffix_shadows _ _) fun _ =>
          .pure _
      · exact sumLoop_shadows fun q => .note (fun s => ⟨_, rfl⟩) (ih q)

/-! ## What is put down -/

/-- What is put down in `path` when the loop makes the calls. -/
def journal (path : Path) (calls : List (Path × List Call)) : List Call :=
  calls.flatMap fun c => ⟨path, c.1⟩ :: c.2

/-- What the loop over some paths puts down, and whether it comes to the end, if `run` is what a
call puts down, and whether it returns. -/
inductive Went (run : Path → List Call → Bool → Prop) (path : Path) :
    List Path → List Call → Bool → Prop where
  | done : Went run path [] [] true
  | exits {q : Path} {ps : List Path} {A : List Call} :
      run q A false → Went run path (q :: ps) (⟨path, q⟩ :: A) false
  | next {q : Path} {ps : List Path} {A B : List Call} {ok : Bool} :
      run q A true → Went run path ps B ok → Went run path (q :: ps) (⟨path, q⟩ :: (A ++ B)) ok

/-- What a call of `mydu` puts down, and whether it returns. -/
def Visit (W : Wildcards) (fs : FileSystem) : (depth : Nat) → Path → List Call → Bool → Prop
  | 0, _, _, _ => False
  | depth + 1, path, A, ok =>
      match fs.lstat path with
      | none => A = [] ∧ ok = false
      | some (.file _) => A = [] ∧ ok = true
      | some (.dir ..) =>
          path.length + 2 < bufsize ∧ ¬ Searchable W fs path ∧ A = [] ∧ ok = false ∨
            path.length + 3 < bufsize ∧ Searchable W fs path ∧
              Went (Visit W fs depth) path (targets W fs path) A ok

section

variable {run run' : Path → List Call → Bool → Prop} {ps : List Path}

theorem Went.mono (h : Went run path ps A ok) (hrun : ∀ q A ok, run q A ok → run' q A ok) :
    Went run' path ps A ok := by
  induction h with
  | done => exact .done
  | exits hq => exact .exits (hrun _ _ _ hq)
  | next hq _ ih => exact .next (hrun _ _ _ hq) ih

theorem Visit.mono {depth : Nat} (h : Visit W fs depth path A ok) :
    ∀ {depth' : Nat}, depth ≤ depth' → Visit W fs depth' path A ok := by
  induction depth generalizing path A ok with
  | zero => exact h.elim
  | succ depth ih =>
    intro depth' hle
    obtain ⟨depth', rfl⟩ : ∃ k, depth' = k + 1 := ⟨depth' - 1, by omega⟩
    rw [Visit] at h ⊢
    split at h
    · exact h
    · exact h
    · exact h.imp_right fun ⟨hfit, hsearch, hwent⟩ =>
        ⟨hfit, hsearch, hwent.mono fun q A ok hq => ih hq (by omega)⟩

/-- If the loop comes to the end, all calls returned. -/
theorem Went.returned (h : Went run path ps A ok) (hok : ok = true) : ∃ calls,
    ps = calls.map Prod.fst ∧ A = journal path calls ∧ ∀ c ∈ calls, run c.1 c.2 true := by
  induction h with
  | done => exact ⟨[], rfl, rfl, nofun⟩
  | exits => cases hok
  | @next q ps B A ok hq _ ih =>
    obtain ⟨calls, rfl, rfl, hcalls⟩ := ih hok
    exact ⟨(q, B) :: calls, rfl, rfl, List.forall_mem_cons.mpr ⟨hq, hcalls⟩⟩

/-- If it does not, it is the last call that exits. -/
theorem Went.exited (h : Went run path ps A ok) (hok : ok = false) : ∃ calls last rest,
    ps = (calls ++ [last]).map Prod.fst ++ rest ∧ A = journal path (calls ++ [last]) ∧
      (∀ c ∈ calls, run c.1 c.2 true) ∧ run last.1 last.2 false := by
  induction h with
  | done => cases hok
  | @exits q ps B hq => exact ⟨[], (q, B), ps, rfl, by simp [journal], nofun, hq⟩
  | @next q ps B A ok hq _ ih =>
    obtain ⟨calls, last, rest, rfl, rfl, hcalls, hlast⟩ := ih hok
    exact ⟨(q, B) :: calls, last, rest, rfl, rfl, List.forall_mem_cons.mpr ⟨hq, hcalls⟩, hlast⟩

theorem Went.of_returns {calls : List (Path × List Call)} (h : ∀ c ∈ calls, run c.1 c.2 true) :
    Went run path (calls.map Prod.fst) (journal path calls) true := by
  induction calls with
  | nil => exact .done
  | cons c calls ih =>
    obtain ⟨hc, hcalls⟩ := List.forall_mem_cons.mp h
    exact .next hc (ih hcalls)

theorem Went.of_exits {calls : List (Path × List Call)} {last : Path × List Call}
    (h : ∀ c ∈ calls, run c.1 c.2 true) (hlast : run last.1 last.2 false) (rest : List Path) :
    Went run path ((calls ++ [last]).map Prod.fst ++ rest) (journal path (calls ++ [last]))
      false := by
  induction calls with
  | nil =>
    have hone : journal path [last] = ⟨path, last.1⟩ :: last.2 := by simp [journal]
    exact hone.symm ▸ .exits hlast
  | cons c calls ih =>
    obtain ⟨hc, hcalls⟩ := List.forall_mem_cons.mp h
    exact .next hc (ih hcalls)

/-- The loop puts down what its calls do. -/
theorem sumLoop_finishes {du : Path → Process (List Call) Nat}
    (hps : ∀ q ∈ ps, ∀ s : List Call, Returns (pathCheck q) s true s)
    (hdu : ∀ q s s' ok, Finishes (du q) s s' ok ↔ ∃ A, s' = s ++ A ∧ run q A ok) :
    ∀ {sum : Nat} {s s' : List Call} {ok : Bool},
      Finishes (sumLoop (fun q => do note ⟨path, q⟩; du q) ps sum) s s' ok ↔
        ∃ A, s' = s ++ A ∧ Went run path ps A ok := by
  induction ps with
  | nil =>
    intro sum s s' ok
    constructor
    · intro h
      obtain ⟨rfl, rfl⟩ := h.unique (.pure sum s)
      exact ⟨[], (List.append_nil _).symm, .done⟩
    · rintro ⟨A, rfl, h⟩
      cases h
      rw [List.append_nil]
      exact .pure sum s
  | cons q ps ih =>
    intro sum s s' ok
    obtain ⟨hq, hps⟩ := List.forall_mem_cons.mp hps
    have hnote : Returns (note ⟨path, q⟩) s () (s ++ [⟨path, q⟩]) := rfl
    have hrun : sumLoop (fun q => do note ⟨path, q⟩; du q) (q :: ps) sum s =
        (do sumLoop (fun q => do note ⟨path, q⟩; du q) ps (sum + (← du q)) :
          Process (List Call) Nat) (s ++ [⟨path, q⟩]) := by
      rw [sumLoop, (hq s).bind_apply]
      exact bind_apply_congr hnote.bind_apply
    rw [Finishes.congr hrun, finishes_bind_iff]
    constructor
    · rintro (⟨rfl, hexits⟩ | ⟨n, s₁, hret, hrest⟩)
      · obtain ⟨A, rfl, hA⟩ := (hdu _ _ _ _).mp hexits
        exact ⟨_, List.append_assoc _ _ _, .exits hA⟩
      · obtain ⟨A, rfl, hA⟩ := (hdu q _ s₁ true).mp ⟨n, hret⟩
        obtain ⟨B, rfl, hB⟩ := (ih hps).mp hrest
        exact ⟨⟨path, q⟩ :: (A ++ B), by simp, .next hA hB⟩
    · rintro ⟨A, rfl, h⟩
      cases h with
      | @exits _ _ A hA => exact .inl ⟨rfl, (hdu _ _ _ _).mpr ⟨A, by simp, hA⟩⟩
      | @next _ _ A B _ hA hB =>
        obtain ⟨n, hret⟩ := (hdu q (s ++ [⟨path, q⟩]) _ true).mpr ⟨A, rfl, hA⟩
        exact .inr ⟨n, _, hret, (ih hps).mpr ⟨B, by simp, hB⟩⟩

end

/-- A program that leaves the list alone puts nothing down. -/
theorem finishes_same_iff {x : Process (List Call) Nat} {s s' : List Call} {ok ok' : Bool}
    (h : Finishes x s s ok) : Finishes x s s' ok' ↔ ∃ A, s' = s ++ A ∧ A = [] ∧ ok' = ok := by
  constructor
  · intro h'
    obtain ⟨rfl, rfl⟩ := h'.unique h
    exact ⟨[], (List.append_nil _).symm, rfl, rfl⟩
  · rintro ⟨A, rfl, rfl, rfl⟩
    rwa [List.append_nil]

/-- A run that comes to an end puts down what belongs to its calls. -/
theorem myduLog_finishes {depth : Nat} : ∀ {path : Path} {s s' : List Call} {ok : Bool},
    Finishes (myduLog W fs depth path) s s' ok ↔ ∃ A, s' = s ++ A ∧ Visit W fs depth path A ok := by
  induction depth with
  | zero =>
    intro path s s' ok
    have hfails : Fails (myduLog W fs 0 path) s .diverges := rfl
    exact ⟨fun h => absurd h (hfails.not_finishes (by simp)), fun ⟨_, _, h⟩ => h.elim⟩
  | succ depth ih =>
    intro path s s' ok
    rw [myduLog]
    simp only [Visit]
    rcases fs.lstat path with _ | ⟨st⟩ | ⟨st, l, child⟩
    · exact finishes_same_iff (.exit 1 s)
    · exact finishes_same_iff (.pure st.blocks s)
    by_cases hsearch : Searchable W fs path
    · by_cases hfit : path.length + 3 < bufsize
      · let call (q : Path) : Process (List Call) Nat := do note ⟨path, q⟩; myduLog W fs depth q
        have hrun : (do return (← sumLoop call (← search W fs path) 0) + st.blocks :
            Process (List Call) Nat) s =
            (do return (← sumLoop call (targets W fs path) 0) + st.blocks :
              Process (List Call) Nat) s := by
          rw [← sumLoop_found]
          exact (search_returns hsearch hfit).bind_apply
        have hloop : Finishes (sumLoop call (targets W fs path) 0) s s' ok ↔
            ∃ A, s' = s ++ A ∧ Went (Visit W fs depth) path (targets W fs path) A ok :=
          sumLoop_finishes (fun q hq s => pathCheck_targets hq) fun q s s' ok => ih
        refine (Finishes.congr hrun).trans (finishes_map_iff.trans (hloop.trans ?_))
        simp [hsearch, hfit]
      · have hfails : Fails (search W fs path) s .bounds := search_overflows_dots hsearch hfit
        exact ⟨fun h => absurd h ((Fails.bind hfails).not_finishes (by simp)),
          by simp [hsearch, hfit]⟩
    · by_cases hfit : path.length + 2 < bufsize
      · have hexits : Exits (search W fs path) s 1 s := search_exits hfit hsearch
        have hfinishes : Finishes (search W fs path >>= fun globres => do
            return (← sumLoop (fun q => do note ⟨path, q⟩; myduLog W fs depth q) globres 0) +
              st.blocks) s s false := ⟨1, Fails.bind hexits⟩
        refine (finishes_same_iff hfinishes).trans ?_
        simp [hsearch, hfit]
      · have hfails : Fails (search W fs path) s .bounds := search_overflows hfit
        refine ⟨fun h => absurd h ((Fails.bind hfails).not_finishes (by simp)), ?_⟩
        simp [hsearch, hfit]

/-- There is only one run from a path. -/
theorem Visit.unique {depth depth' : Nat} {B : List Call} {ok' : Bool}
    (h : Visit W fs depth path A ok) (h' : Visit W fs depth' path B ok') : A = B ∧ ok = ok' := by
  have hrun : Finishes (myduLog W fs (max depth depth') path) [] A ok :=
    myduLog_finishes.mpr ⟨A, rfl, h.mono (Nat.le_max_left _ _)⟩
  have hrun' : Finishes (myduLog W fs (max depth depth') path) [] B ok' :=
    myduLog_finishes.mpr ⟨B, rfl, h'.mono (Nat.le_max_right _ _)⟩
  exact hrun.unique hrun'

/-! ## Runs that stay inside -/

/-- The file `q` is an entry of the directory `path`. -/
def Own (fs : FileSystem) (path q : Path) : Prop :=
  ∃ st l child, fs.lstat path = some (.dir st l child) ∧ ∃ n ∈ l.names, q = entry path n

/-- `mydu` was called for `path`, in a run that began at `pathname`. -/
def Visited (pathname : Path) (log : List Call) (path : Path) : Prop :=
  path = pathname ∨ ∃ call ∈ log, path = call.caller ∨ path = call.callee

/-- From every path that is visited, the calls go to the entries of that directory, to all of them
and to nothing else. -/
def Inside (fs : FileSystem) (pathname : Path) (log : List Call) : Prop :=
  ∀ path q, Visited pathname log path → (⟨path, q⟩ ∈ log ↔ Own fs path q)

/-- It goes to own entries only. -/
theorem Inside.own {pathname : Path} (h : Inside fs pathname A) {call : Call} (hcall : call ∈ A) :
    Own fs call.caller call.callee :=
  (h _ _ (.inr ⟨call, hcall, .inl rfl⟩)).mp hcall

/-- The path `q` is `path`, or is below it. -/
def Below (path q : Path) : Prop := path ++ [slash] <+: q ++ [slash]

variable {q p : Path} {n n' : Name} {calls : List (Path × List Call)} {c : Path × List Call}
  {t : Node} {st : Stat} {l : Listing} {child : Name → Node}

theorem Below.refl (path : Path) : Below path path := List.prefix_rfl

theorem Below.trans (h : Below path p) (h' : Below p q) : Below path q := List.IsPrefix.trans h h'

theorem below_entry (path : Path) (n : Name) : Below path (entry path n) :=
  ⟨n ++ [slash], by simp [entry]⟩

/-- A directory is not below its entries. -/
theorem not_below_entry (path : Path) (n : Name) : ¬ Below (entry path n) path := by
  intro h
  have hlen := h.length_le
  simp only [entry, List.length_append, List.length_cons, List.length_nil] at hlen
  omega

/-- No path is below two entries. -/
theorem eq_of_below (hn : slash ∉ n) (hn' : slash ∉ n') (h : Below (entry path n) q)
    (h' : Below (entry path n') q) : n = n' := by
  have hpre := List.prefix_or_prefix_of_prefix h h'
  simp only [entry, List.append_assoc, List.cons_append, List.prefix_append_right_inj,
    List.cons_prefix_cons, true_and] at hpre
  rcases hpre with hpre | hpre
  · exact eq_of_prefixes hn' hpre
  · exact (eq_of_prefixes hn hpre).symm

theorem Own.below (h : Own fs path q) : Below path q := by
  obtain ⟨-, -, -, -, n, -, rfl⟩ := h
  exact below_entry path n

theorem mem_journal {call : Call} :
    call ∈ journal path calls ↔ ∃ c ∈ calls, call = ⟨path, c.1⟩ ∨ call ∈ c.2 := by
  simp [journal]

/-- What a run puts down is what some calls put down, which are for different paths. -/
theorem Visit.exists_calls {depth : Nat} (h : Visit W fs (depth + 1) path A ok) : ∃ calls,
    A = journal path calls ∧ (calls.map Prod.fst).Nodup ∧
      ∀ c ∈ calls, ∃ ok, Visit W fs depth c.1 c.2 ok := by
  have hnone (hA : A = []) : ∃ calls, A = journal path calls ∧ (calls.map Prod.fst).Nodup ∧
      ∀ c ∈ calls, ∃ ok, Visit W fs depth c.1 c.2 ok := ⟨[], hA, List.nodup_nil, nofun⟩
  rw [Visit] at h
  split at h
  · exact hnone h.1
  · exact hnone h.1
  rcases h with ⟨-, -, hA, -⟩ | ⟨-, -, hwent⟩
  · exact hnone hA
  have hnodup : (targets W fs path).Nodup := targets_nodup
  cases ok with
  | true =>
    obtain ⟨calls, hps, hA, hcalls⟩ := hwent.returned rfl
    exact ⟨calls, hA, hps ▸ hnodup, fun c hc => ⟨true, hcalls c hc⟩⟩
  | false =>
    obtain ⟨calls, last, rest, hps, hA, hcalls, hlast⟩ := hwent.exited rfl
    refine ⟨calls ++ [last], hA, (hps ▸ hnodup).of_append_left, fun c hc => ?_⟩
    rcases List.mem_append.mp hc with hc | hc
    · exact ⟨true, hcalls c hc⟩
    · obtain rfl := List.mem_singleton.mp hc
      exact ⟨false, hlast⟩

/-- A run that goes to own entries only stays below its path. -/
theorem Visit.below {depth : Nat} (h : Visit W fs depth path A ok)
    (hown : ∀ call ∈ A, Own fs call.caller call.callee) (hp : Visited path A p) :
    Below path p := by
  induction depth generalizing path A ok p with
  | zero => exact h.elim
  | succ depth ih =>
    obtain ⟨calls, rfl, -, hcalls⟩ := Visit.exists_calls h
    rcases hp with rfl | ⟨call, hcall, hp⟩
    · exact .refl p
    have hcall' := hown call hcall
    obtain ⟨c, hc, hmem⟩ := mem_journal.mp hcall
    have hc' : Own fs path c.1 := hown ⟨path, c.1⟩ (mem_journal.mpr ⟨c, hc, .inl rfl⟩)
    rcases hmem with rfl | hmem
    · rcases hp with rfl | rfl
      · exact .refl _
      · exact hc'.below
    · obtain ⟨ok', hvisit⟩ := hcalls c hc
      have hsub : ∀ call ∈ c.2, Own fs call.caller call.callee := fun call h =>
        hown call (mem_journal.mpr ⟨c, hc, .inr h⟩)
      exact hc'.below.trans (ih hvisit hsub (.inr ⟨call, hmem, hp⟩))

/-- From `path` itself the calls are those of the loop. -/
theorem mem_journal_self (hown : ∀ c ∈ calls, Own fs path c.1)
    (hbelow : ∀ c ∈ calls, ∀ p, Visited c.1 c.2 p → Below c.1 p) :
    ⟨path, q⟩ ∈ journal path calls ↔ q ∈ calls.map Prod.fst := by
  rw [mem_journal, List.mem_map]
  constructor
  · rintro ⟨c, hc, hcall | hcall⟩
    · exact ⟨c, hc, (congrArg Call.callee hcall).symm⟩
    · have hself := hbelow c hc path (.inr ⟨_, hcall, .inl rfl⟩)
      obtain ⟨-, -, -, -, n, -, heq⟩ := hown c hc
      exact absurd (heq ▸ hself) (not_below_entry path n)
  · rintro ⟨c, hc, rfl⟩
    exact ⟨c, hc, .inl rfl⟩

/-- Below an entry they are those that were put down for it. -/
theorem mem_journal_below (hown : ∀ c ∈ calls, Own fs path c.1)
    (hnodup : (calls.map Prod.fst).Nodup)
    (hbelow : ∀ c ∈ calls, ∀ p, Visited c.1 c.2 p → Below c.1 p) (hc : c ∈ calls)
    (hp : Below c.1 p) : ⟨p, q⟩ ∈ journal path calls ↔ ⟨p, q⟩ ∈ c.2 := by
  rw [mem_journal]
  refine ⟨?_, fun h => ⟨c, hc, .inr h⟩⟩
  obtain ⟨st, l, child, -, n, hn, heq⟩ := hown c hc
  rintro ⟨c', hc', hcall | hcall⟩
  · obtain rfl : p = path := congrArg Call.caller hcall
    exact absurd (heq ▸ hp) (not_below_entry p n)
  · obtain ⟨st', l', child', -, n', hn', heq'⟩ := hown c' hc'
    have hp' : Below c'.1 p := hbelow c' hc' p (.inr ⟨_, hcall, .inl rfl⟩)
    have hname : n = n' := eq_of_below (l.legal n hn).slash_notMem (l'.legal n' hn').slash_notMem
      (heq ▸ hp) (heq' ▸ hp')
    have hsame : c = c' :=
      List.inj_on_of_nodup_map hnodup hc hc' (by rw [heq, heq', hname])
    exact hsame ▸ hcall

/-- A run stays inside if its loop goes to the entries of the directory, and what is put down for
each of them stays inside. -/
theorem inside_journal_iff (hnodup : (calls.map Prod.fst).Nodup)
    (hown : ∀ c ∈ calls, Own fs path c.1)
    (hbelow : ∀ c ∈ calls, ∀ p, Visited c.1 c.2 p → Below c.1 p) :
    Inside fs path (journal path calls) ↔
      (∀ q, Own fs path q → q ∈ calls.map Prod.fst) ∧ ∀ c ∈ calls, Inside fs c.1 c.2 := by
  have hself {q : Path} := mem_journal_self (q := q) hown hbelow
  constructor
  · intro h
    refine ⟨fun q hq => hself.mp ((h path q (.inl rfl)).mpr hq), fun c hc p q hp => ?_⟩
    rw [← mem_journal_below hown hnodup hbelow hc (hbelow c hc p hp)]
    refine h p q (.inr ?_)
    rcases hp with rfl | ⟨call, hcall, hp⟩
    · exact ⟨⟨path, c.1⟩, mem_journal.mpr ⟨c, hc, .inl rfl⟩, .inr rfl⟩
    · exact ⟨call, mem_journal.mpr ⟨c, hc, .inr hcall⟩, hp⟩
  · rintro ⟨hall, hinside⟩ p q hp
    have hpath : ⟨path, q⟩ ∈ journal path calls ↔ Own fs path q := by
      refine hself.trans ⟨fun hq => ?_, hall q⟩
      obtain ⟨c, hc, rfl⟩ := List.mem_map.mp hq
      exact hown c hc
    rcases hp with rfl | ⟨call, hcall, hp⟩
    · exact hpath
    obtain ⟨c, hc, hmem⟩ := mem_journal.mp hcall
    have hentry (hvisited : Visited c.1 c.2 p) :
        ⟨p, q⟩ ∈ journal path calls ↔ Own fs p q :=
      (mem_journal_below hown hnodup hbelow hc (hbelow c hc p hvisited)).trans
        (hinside c hc p q hvisited)
    rcases hmem with rfl | hmem
    · rcases hp with rfl | rfl
      · exact hpath
      · exact hentry (.inl rfl)
    · exact hentry (.inr ⟨call, hmem, hp⟩)

end CToys.Fs
