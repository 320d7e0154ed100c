import CToys.Fs.Calls
import CToys.Fs.Usage
import Mathlib.Data.Set.List

/-!
# When `mydu` stays inside

A tree is *orderly* if every directory has a plain entry and finds its own entries.  `mydu` gets
through an orderly tree and calls itself once for each entry.

In other trees it may still stay inside, because an exit ends the run before it goes astray, or
when nothing is left to be done.  `Stays` says when: in a directory the entries are found before
anything else, the trees of all but the last one are orderly, and after the last one either nothing
else is found, or its tree makes `mydu` exit.

`staysInside_iff` is about the whole run.  The induction is on the tree, and what is put down for
the entries is taken apart with `inside_journal_iff`.
-/

namespace CToys.Fs

open FileSystem

/-- Every directory of the tree at `path` has a plain entry and finds its own entries. -/
def Orderly (W : Wildcards) (fs : FileSystem) (t : Node) (path : Path) : Prop :=
  PlainEntries t ∧ t.AllDirs (FindsOwn W fs) path

instance (W : Wildcards) (fs : FileSystem) (t : Node) (path : Path) :
    Decidable (Orderly W fs t path) := inferInstanceAs (Decidable (_ ∧ _))

/-- The condition for the tree at `path`. -/
def Stays (W : Wildcards) (fs : FileSystem) : (t : Node) → (path : Path) → Prop
  | .file _, _ => True
  | .dir _ l child, path =>
      if l.names = [] then path.length + 2 < bufsize ∧ ¬ Searchable W fs path
      else path.length + 3 < bufsize ∧ ∃ names last rest,
        (names ++ [last]).Perm l.names ∧
        targets W fs path = (names ++ [last]).map (entry path) ++ rest ∧
        (∀ n ∈ names, Orderly W fs (child n) (entry path n)) ∧
        Stays W fs (child last) (entry path last) ∧
        (rest = [] ∨ ¬ Orderly W fs (child last) (entry path last))

variable {W : Wildcards} {fs : FileSystem} {path : Path} {t : Node} {st : Stat} {l : Listing}
  {child : Name → Node} {n : Name} {ok : Bool} {A : List Call}

theorem orderly_dir : Orderly W fs (.dir st l child) path ↔
    (∃ n ∈ l.names, plain n = true) ∧ FindsOwn W fs path ∧
      ∀ n ∈ l.names, Orderly W fs (child n) (entry path n) := by
  simp only [Orderly, PlainEntries, Node.AllDirs]
  exact ⟨fun ⟨⟨hplain, hps⟩, hfinds, hall⟩ => ⟨hplain, hfinds, fun n hn => ⟨hps n hn, hall n hn⟩⟩,
    fun ⟨hplain, hfinds, h⟩ => ⟨⟨hplain, fun n hn => (h n hn).1⟩, hfinds, fun n hn => (h n hn).2⟩⟩

theorem own_iff (h : fs.lstat path = some (.dir st l child)) {q : Path} :
    Own fs path q ↔ q ∈ l.names.map (entry path) := by
  rw [List.mem_map]
  constructor
  · rintro ⟨st', l', child', h', n, hn, rfl⟩
    cases h.symm.trans h'
    exact ⟨n, hn, rfl⟩
  · rintro ⟨n, hn, rfl⟩
    exact ⟨st, l, child, h, n, hn, rfl⟩

theorem entry_injective (path : Path) : Function.Injective (entry path) := fun n n' h => by
  simpa [entry] using h

/-- An arrangement of the entries is one of their names. -/
theorem exists_names {ps : List Path} (h : ps.Perm (l.names.map (entry path))) :
    ∃ names : List Name, names.Perm l.names ∧ ps = names.map (entry path) := by
  have hps : ∀ q ∈ ps, ∃ n, entry path n = q := fun q hq => by
    obtain ⟨n, -, hn⟩ := List.mem_map.mp (h.mem_iff.mp hq)
    exact ⟨n, hn⟩
  obtain ⟨names, rfl⟩ : ps ∈ Set.range (List.map (entry path)) := by
    rw [Set.range_list_map]
    exact hps
  exact ⟨names, (List.map_perm_map_iff (entry_injective path)).mp h, rfl⟩

/-- A list that is not empty has a last element. -/
theorem exists_concat {α : Type} {xs : List α} (h : xs ≠ []) : ∃ init last, xs = init ++ [last] :=
  ⟨_, _, (List.dropLast_append_getLast h).symm⟩

/-- An orderly tree satisfies the condition. -/
theorem Orderly.stays : ∀ {path : Path}, fs.lstat path = some t → Orderly W fs t path →
    Stays W fs t path := by
  induction t with
  | file => exact fun _ _ => trivial
  | dir st l child ih =>
    intro path h horderly
    obtain ⟨hplain, hfinds, hall⟩ := orderly_dir.mp horderly
    obtain ⟨names, hsame, hnames⟩ := exists_names (hfinds.home.targets_perm h hplain)
    obtain ⟨m, hm, -⟩ := hplain
    obtain ⟨init, last, rfl⟩ := exists_concat (List.ne_nil_of_mem (hsame.mem_iff.mpr hm))
    have hmem {n : Name} (hn : n ∈ init ++ [last]) : n ∈ l.names := hsame.mem_iff.mp hn
    have hlast := hmem (List.mem_append_right init (List.mem_singleton_self last))
    rw [Stays, if_neg (List.ne_nil_of_mem hm)]
    refine ⟨hfinds.fits, init, last, [], hsame, by rw [hnames, List.append_nil], fun n hn => ?_,
      ih last (lstat_entry h hlast) (hall last hlast), .inl rfl⟩
    exact hall n (hmem (List.mem_append_left _ hn))

/-! ## From the condition to a run -/

/-- Runs that return, at one depth. -/
theorem exists_calls {ps : List Path}
    (h : ∀ q ∈ ps, ∃ depth A, Visit W fs depth q A true ∧ Inside fs q A) :
    ∃ depth, ∃ calls : List (Path × List Call), calls.map Prod.fst = ps ∧
      ∀ c ∈ calls, Visit W fs depth c.1 c.2 true ∧ Inside fs c.1 c.2 := by
  induction ps with
  | nil => exact ⟨0, [], rfl, nofun⟩
  | cons q ps ih =>
    obtain ⟨⟨depth, A, hvisit, hinside⟩, hps⟩ := List.forall_mem_cons.mp h
    obtain ⟨depth', calls, rfl, hcalls⟩ := ih hps
    refine ⟨max depth depth', (q, A) :: calls, rfl, List.forall_mem_cons.mpr ⟨?_, fun c hc => ?_⟩⟩
    · exact ⟨hvisit.mono (Nat.le_max_left _ _), hinside⟩
    · exact (hcalls c hc).imp_left (·.mono (Nat.le_max_right _ _))

/-- What a loop puts down stays inside exactly if its calls are for all the entries, and what each
of them puts down stays inside. -/
theorem inside_loop_iff (h : fs.lstat path = some (.dir st l child))
    {calls : List (Path × List Call)} (hnodup : (calls.map Prod.fst).Nodup) {depth : Nat}
    (hcalls : ∀ c ∈ calls, ∃ ok, Visit W fs depth c.1 c.2 ok) :
    Inside fs path (journal path calls) ↔
      (calls.map Prod.fst).Perm (l.names.map (entry path)) ∧ ∀ c ∈ calls, Inside fs c.1 c.2 := by
  have hparts (hown : ∀ c ∈ calls, Own fs path c.1)
      (hsub : ∀ c ∈ calls, ∀ call ∈ c.2, Own fs call.caller call.callee) :
      Inside fs path (journal path calls) ↔
        (∀ q, Own fs path q → q ∈ calls.map Prod.fst) ∧ ∀ c ∈ calls, Inside fs c.1 c.2 :=
    inside_journal_iff hnodup hown fun c hc p hp =>
      let ⟨_, hvisit⟩ := hcalls c hc
      hvisit.below (hsub c hc) hp
  constructor
  · intro hinside
    have hown (c : Path × List Call) (hc : c ∈ calls) : Own fs path c.1 :=
      hinside.own (mem_journal.mpr ⟨c, hc, .inl rfl⟩)
    obtain ⟨hall, hgood⟩ := (hparts hown fun c hc call hcall =>
      hinside.own (mem_journal.mpr ⟨c, hc, .inr hcall⟩)).mp hinside
    refine ⟨(List.perm_ext_iff_of_nodup hnodup (entries_nodup path l)).mpr fun q => ?_, hgood⟩
    refine ⟨fun hq => ?_, fun hq => hall q ((own_iff h).mpr hq)⟩
    obtain ⟨c, hc, rfl⟩ := List.mem_map.mp hq
    exact (own_iff h).mp (hown c hc)
  · rintro ⟨hperm, hgood⟩
    have hown (c : Path × List Call) (hc : c ∈ calls) : Own fs path c.1 :=
      (own_iff h).mpr (hperm.mem_iff.mp (List.mem_map_of_mem hc))
    exact (hparts hown fun c hc call hcall => (hgood c hc).own hcall).mpr
      ⟨fun q hq => hperm.mem_iff.mpr ((own_iff h).mp hq), hgood⟩

/-- A path that makes no calls stays inside if it has no entries. -/
theorem inside_nil (h : ∀ q, ¬ Own fs path q) : Inside fs path [] := by
  rintro p q (rfl | ⟨call, hcall, -⟩)
  · exact ⟨nofun, fun hown => absurd hown (h q)⟩
  · cases hcall

/-- The run in a directory, from the runs for its entries. -/
theorem exists_visit_dir (h : fs.lstat path = some (.dir st l child))
    (hfit : path.length + 3 < bufsize) {names : List Name} {last : Name} {rest : List Path}
    (hperm : (names ++ [last]).Perm l.names)
    (htargets : targets W fs path = (names ++ [last]).map (entry path) ++ rest)
    {depth : Nat} {calls : List (Path × List Call)}
    (hcalls : calls.map Prod.fst = names.map (entry path))
    (hreturns : ∀ c ∈ calls, Visit W fs depth c.1 c.2 true ∧ Inside fs c.1 c.2)
    (hvisit : Visit W fs depth (entry path last) A ok) (hinside : Inside fs (entry path last) A)
    (hrest : ok = true → rest = []) :
    ∃ B, Visit W fs (depth + 1) path B ok ∧ Inside fs path B := by
  have hall : (calls ++ [(entry path last, A)]).map Prod.fst =
      (names ++ [last]).map (entry path) := by
    rw [List.map_append, hcalls, List.map_append, List.map_singleton, List.map_singleton]
  refine ⟨journal path (calls ++ [(entry path last, A)]), ?_, ?_⟩
  · simp only [Visit, h]
    refine .inr ⟨hfit, searchable_of_targets (htargets ▸ by simp), ?_⟩
    rw [htargets, ← hall]
    cases ok with
    | true =>
      rw [hrest rfl, List.append_nil]
      exact Went.of_returns (List.forall_mem_append.mpr
        ⟨fun c hc => (hreturns c hc).1, List.forall_mem_singleton.mpr hvisit⟩)
    | false => exact Went.of_exits (fun c hc => (hreturns c hc).1) hvisit rest
  · have hentries : ((calls ++ [(entry path last, A)]).map Prod.fst).Perm
        (l.names.map (entry path)) := hall ▸ hperm.map _
    have hruns : ∀ c ∈ calls ++ [(entry path last, A)], ∃ ok, Visit W fs depth c.1 c.2 ok :=
      List.forall_mem_append.mpr
        ⟨fun c hc => ⟨true, (hreturns c hc).1⟩, List.forall_mem_singleton.mpr ⟨ok, hvisit⟩⟩
    refine (inside_loop_iff h (hentries.nodup_iff.mpr (entries_nodup path l)) hruns).mpr
      ⟨hentries, ?_⟩
    exact List.forall_mem_append.mpr
      ⟨fun c hc => (hreturns c hc).2, List.forall_mem_singleton.mpr hinside⟩

/-- A directory whose targets are its entries is orderly if their trees are. -/
theorem orderly_of_targets (h : fs.lstat path = some (.dir st l child))
    (hfit : path.length + 3 < bufsize) (hsearch : Searchable W fs path) {names : List Name}
    (hperm : names.Perm l.names) (htargets : targets W fs path = names.map (entry path))
    (hall : ∀ n ∈ names, Orderly W fs (child n) (entry path n)) :
    Orderly W fs (.dir st l child) path := by
  obtain ⟨home, hplain⟩ := LeadsHome.of_targets h hsearch fun q hq => by
    obtain ⟨n, hn, rfl⟩ := List.mem_map.mp (htargets ▸ hq)
    exact ⟨n, hperm.mem_iff.mp hn, rfl⟩
  exact orderly_dir.mpr ⟨hplain, ⟨hfit, home⟩, fun n hn => hall n (hperm.mem_iff.mpr hn)⟩

/-- A tree that satisfies the condition has a run that stays inside.  It returns if the tree is
orderly. -/
theorem Stays.exists_visit : ∀ {path : Path}, fs.lstat path = some t → Stays W fs t path →
    ∃ depth A ok, Visit W fs depth path A ok ∧ Inside fs path A ∧
      (ok = true ↔ Orderly W fs t path) := by
  induction t with
  | file st =>
    intro path h _
    refine ⟨1, [], true, ?_, inside_nil ?_, fun _ => ⟨trivial, trivial⟩, fun _ => rfl⟩
    · rw [Visit, h]
      exact ⟨rfl, rfl⟩
    · rintro q ⟨st', l', child', hdir, -⟩
      cases h.symm.trans hdir
  | dir st l child ih =>
    intro path h hstays
    rw [Stays] at hstays
    split at hstays
    · next hnil =>
      refine ⟨1, [], false, ?_, inside_nil fun q hq => ?_, fun hok => ?_, fun horderly => ?_⟩
      · rw [Visit, h]
        exact .inl ⟨hstays.1, hstays.2, rfl, rfl⟩
      · rw [own_iff h, hnil] at hq
        cases hq
      · cases hok
      · obtain ⟨n, hn, -⟩ := (orderly_dir.mp horderly).1
        rw [hnil] at hn
        cases hn
    obtain ⟨hfit, names, last, rest, hperm, htargets, hnames, hlast, hrest⟩ := hstays
    have hmem {n : Name} (hn : n ∈ names ++ [last]) : n ∈ l.names := hperm.mem_iff.mp hn
    have hlastmem := hmem (List.mem_append_right names (List.mem_singleton_self last))
    have hchildren : ∀ q ∈ names.map (entry path), ∃ depth B,
        Visit W fs depth q B true ∧ Inside fs q B := by
      intro q hq
      obtain ⟨n, hn, rfl⟩ := List.mem_map.mp hq
      have hchild := lstat_entry h (hmem (List.mem_append_left _ hn))
      obtain ⟨d, B, ok, hvisit, hinside, hok⟩ := ih n hchild ((hnames n hn).stays hchild)
      obtain rfl := hok.mpr (hnames n hn)
      exact ⟨d, B, hvisit, hinside⟩
    obtain ⟨d, calls, hcalls, hreturns⟩ := exists_calls hchildren
    obtain ⟨d', B, ok, hvisit, hinside, hok⟩ := ih last (lstat_entry h hlastmem) hlast
    have hrest' (htrue : ok = true) : rest = [] := hrest.resolve_right (not_not.mpr (hok.mp htrue))
    obtain ⟨A, hrun, hgood⟩ := exists_visit_dir h hfit hperm htargets hcalls
      (fun c hc => (hreturns c hc).imp_left (·.mono (Nat.le_max_left d d')))
      (hvisit.mono (Nat.le_max_right d d')) hinside hrest'
    refine ⟨_, A, ok, hrun, hgood, fun htrue => ?_, fun horderly => ?_⟩
    · rw [hrest' htrue, List.append_nil] at htargets
      refine orderly_of_targets h hfit (searchable_of_targets (htargets ▸ by simp)) hperm
        htargets ?_
      exact List.forall_mem_append.mpr ⟨hnames, List.forall_mem_singleton.mpr (hok.mp htrue)⟩
    · exact hok.mpr ((orderly_dir.mp horderly).2.2 last hlastmem)

/-! ## From a run to the condition -/

/-- `mydu` gets through an orderly tree. -/
theorem Orderly.returns (h : fs.lstat path = some t) (horderly : Orderly W fs t path) {depth : Nat}
    (hvisit : Visit W fs depth path A ok) : ok = true := by
  obtain ⟨d, B, ok', hvisit', -, hok⟩ := (horderly.stays h).exists_visit h
  exact (hvisit.unique hvisit').2.trans (hok.mpr horderly)

/-- If the loop does not come to the end, the trees of all entries but the last one are orderly, and
from that one a call exits. -/
theorem Went.stays {depth : Nat} (h : fs.lstat path = some (.dir st l child))
    (hfit : path.length + 3 < bufsize)
    (hwent : Went (Visit W fs depth) path (targets W fs path) A false) (hinside : Inside fs path A)
    (hchild : ∀ n ∈ l.names, ∀ B ok, Visit W fs depth (entry path n) B ok →
      Inside fs (entry path n) B → Stays W fs (child n) (entry path n) ∧
        (ok = true → Orderly W fs (child n) (entry path n))) :
    Stays W fs (.dir st l child) path := by
  have hnodup : (targets W fs path).Nodup := targets_nodup
  obtain ⟨calls, ⟨q, B⟩, rest, hps, rfl, hreturns, hexits⟩ := hwent.exited rfl
  obtain ⟨hcalls, hgood⟩ := (inside_loop_iff h (hps ▸ hnodup).of_append_left
    (List.forall_mem_append.mpr ⟨fun c hc => ⟨true, hreturns c hc⟩,
      List.forall_mem_singleton.mpr ⟨false, hexits⟩⟩)).mp hinside
  obtain ⟨hinit, hlast⟩ := List.forall_mem_append.mp hgood
  obtain ⟨names, hperm, hnames⟩ := exists_names hcalls
  have hne : names ≠ [] := by
    rintro rfl
    simp at hnames
  obtain ⟨names, m, rfl⟩ := exists_concat hne
  have hmem {n : Name} (hn : n ∈ names ++ [m]) : n ∈ l.names := hperm.mem_iff.mp hn
  have hm : m ∈ l.names := hmem (List.mem_append_right names (List.mem_singleton_self m))
  obtain ⟨hfirst, hq⟩ : calls.map Prod.fst = names.map (entry path) ∧ [q] = [entry path m] :=
    List.append_inj' (by simpa only [List.map_append, List.map_cons, List.map_nil] using hnames) rfl
  obtain rfl : q = entry path m := List.singleton_injective hq
  rw [Stays, if_neg (List.ne_nil_of_mem hm)]
  refine ⟨hfit, names, m, rest, hperm, by rw [hps, hnames], fun n hn => ?_, ?_, .inr ?_⟩
  · obtain ⟨⟨q, B'⟩, hc, rfl : q = entry path n⟩ :=
      List.mem_map.mp (hfirst ▸ List.mem_map_of_mem hn)
    exact (hchild n (hmem (List.mem_append_left _ hn)) B' true (hreturns _ hc) (hinit _ hc)).2 rfl
  · exact (hchild m hm B false hexits (hlast _ (List.mem_singleton_self _))).1
  · intro horderly
    cases horderly.returns (lstat_entry h hm) hexits

end CToys.Fs
