import CToys.Fs.Mydu

/-!
# Where `mydu` goes

From a directory `mydu` goes to the paths that its two patterns find, without `.` and `..`
(`targets`).  The path of the directory is a part of the patterns.  If it has special bytes, the
patterns are about every directory that it leads to as a pattern, and about the directory itself
only if the path matches itself.

*FindsOwn.*  The patterns fit into their buffer, the path leads to itself, and no other directory
that it leads to has entries.  Then the targets of a directory are its own entries
(`FindsOwn.targets_perm`).
-/

namespace CToys.Fs

open FileSystem

variable {σ : Type} {s : σ} {W : Wildcards} {fs : FileSystem} {path : Path} {t : Node} {st : Stat}
  {l : Listing} {child : Name → Node} {n : Name}

/-! ## The last component -/

theorem strrchr_of_notMem {c : UInt8} {p : Path} (h : c ∉ p) : strrchr c p = none := by
  induction p with
  | nil => rfl
  | cons x p ih =>
    obtain ⟨hx, hp⟩ := not_or.mp (List.mem_cons.not.mp h)
    simp only [strrchr, ih hp, if_neg (Ne.symm hx)]

theorem strrchr_append {c : UInt8} {p : Path} (h : c ∉ p) (r : Path) :
    strrchr c (r ++ c :: p) = some (c :: p) := by
  induction r with
  | nil => simp only [List.nil_append, strrchr, strrchr_of_notMem h, if_true]
  | cons x r ih => simp only [List.cons_append, strrchr, ih]

/-- What `path_check` returns for a path with a slash. -/
def counted (pathname : Path) : Bool :=
  match strrchr slash pathname with
  | none => false
  | some p => ¬ (p.tail = [dot] ∨ p.tail = [dot, dot])

theorem counted_entry (path : Path) (h : slash ∉ n) :
    counted (entry path n) = decide ¬ (n = [dot] ∨ n = [dot, dot]) := by
  unfold counted entry
  rw [strrchr_append h]
  rfl

/-- `path_check` lets the legal names through. -/
theorem counted_legal (path : Path) (h : Legal n) : counted (entry path n) = true := by
  rw [counted_entry path h.slash_notMem]
  exact decide_eq_true (not_or.mpr ⟨h.ne_dot, h.ne_dotdot⟩)

theorem pathCheck_returns (path : Path) (h : slash ∉ n) :
    Returns (pathCheck (entry path n)) s (counted (entry path n)) s := by
  unfold pathCheck counted entry
  rw [strrchr_append h]
  exact .pure _ _

theorem pathCheck_legal (path : Path) (h : Legal n) :
    Returns (pathCheck (entry path n)) s true s := by
  have hcheck := pathCheck_returns (s := s) path h.slash_notMem
  rwa [counted_legal path h] at hcheck

/-- A path determines its last component. -/
theorem entry_inj {path' : Path} {n' : Name} (hn : slash ∉ n) (hn' : slash ∉ n') :
    entry path n = entry path' n' ↔ path = path' ∧ n = n' := by
  refine ⟨fun h => ?_, fun ⟨hp, hn⟩ => hp ▸ hn ▸ rfl⟩
  have hlast := strrchr_append hn path
  unfold entry at h
  rw [h, strrchr_append hn' path'] at hlast
  obtain rfl : n' = n := List.tail_eq_of_cons_eq (Option.some.inj hlast)
  exact ⟨List.append_cancel_right h, rfl⟩

/-! ## What is found -/

/-- What the two patterns find.  If the first one finds nothing, there is no second call. -/
def found (W : Wildcards) (fs : FileSystem) (path : Path) : List Path :=
  match fs.glob W (path ++ [slash, star]) with
  | none => []
  | some globres => globres ++ (fs.glob W (path ++ [slash, dot, star])).getD []

/-- A plain entry is found. -/
def Searchable (W : Wildcards) (fs : FileSystem) (path : Path) : Prop :=
  ∃ d ∈ fs.leads W path, ∃ n ∈ fs.readdir d, plain n = true

instance (W : Wildcards) (fs : FileSystem) (path : Path) : Decidable (Searchable W fs path) :=
  inferInstanceAs (Decidable (∃ d ∈ _, _))

theorem searchable_iff :
    Searchable W fs path ↔ fs.pathsMatching W (path ++ [slash, star]) ≠ [] := by
  refine Iff.trans ?_ (not_congr (Eq.congr_left (pathsMatching_star W fs path))).symm
  rw [List.flatMap_eq_nil_iff]
  simp [Searchable, List.filter_eq_nil_iff]

/-- Where there is a plain entry, there is `.` too. -/
theorem Searchable.dots (h : Searchable W fs path) :
    fs.pathsMatching W (path ++ [slash, dot, star]) ≠ [] := by
  obtain ⟨d, hd, n, hn, -⟩ := h
  intro hnil
  have hfound := (pathsMatching_dot_star W fs path).symm.trans hnil
  rw [List.flatMap_eq_nil_iff] at hfound
  have hfiltered := hfound d hd
  rw [List.map_eq_nil_iff, List.filter_eq_nil_iff] at hfiltered
  exact hfiltered [dot] (dot_mem_readdir hn) (by decide)

/-- Both calls succeed if a plain entry is found. -/
theorem Searchable.globs (h : Searchable W fs path) : ∃ globres hidden,
    fs.glob W (path ++ [slash, star]) = some globres ∧
      fs.glob W (path ++ [slash, dot, star]) = some hidden ∧
      found W fs path = globres ++ hidden := by
  obtain ⟨globres, hstar⟩ := glob_eq_some (searchable_iff.mp h)
  obtain ⟨hidden, hdots⟩ := glob_eq_some h.dots
  refine ⟨globres, hidden, hstar, hdots, ?_⟩
  simp only [found, hstar, hdots, Option.getD_some]

/-- The first call fails if there is none. -/
theorem glob_of_not_searchable (h : ¬ Searchable W fs path) :
    fs.glob W (path ++ [slash, star]) = none :=
  glob_eq_none (not_not.mp (searchable_iff.not.mp h))

/-- The entries of every directory that the path leads to are found. -/
theorem Searchable.found_perm (h : Searchable W fs path) :
    (found W fs path).Perm
      ((fs.leads W path).flatMap fun d => (fs.readdir d).map (d ++ ·)) := by
  obtain ⟨globres, hidden, hstar, hdots, heq⟩ := h.globs
  rw [heq]
  exact ((glob_perm hstar).append (glob_perm hdots)).trans (pathsMatching_perm W fs path)

theorem found_of_not_searchable (h : ¬ Searchable W fs path) : found W fs path = [] := by
  unfold found
  rw [glob_of_not_searchable h]

/-- What is found is an entry of a directory. -/
theorem exists_entry_of_mem_found {q : Path} (hq : q ∈ found W fs path) :
    ∃ d n, d ++ [slash] ∈ fs.leads W path ∧ n ∈ fs.readdir (d ++ [slash]) ∧ q = entry d n := by
  by_cases hsearch : Searchable W fs path
  · obtain ⟨d, hd, hq⟩ := List.mem_flatMap.mp (hsearch.found_perm.mem_iff.mp hq)
    obtain ⟨n, hn, rfl⟩ := List.mem_map.mp hq
    obtain ⟨d, rfl⟩ := leads_concat hd
    exact ⟨d, n, hd, hn, by rw [entry, List.append_assoc, List.singleton_append]⟩
  · rw [found_of_not_searchable hsearch] at hq
    cases hq

/-! ## The two calls of `glob` -/

/-- What a call of `glob` does if the pattern fits into the buffer. -/
theorem globSuffix_apply {suffix : Path} (hfit : path.length + suffix.length < bufsize) :
    globSuffix W fs path suffix s =
      (match fs.glob W (path ++ suffix) with
        | none => exit 1
        | some paths => pure paths : Process σ (List Path)) s := by
  unfold globSuffix strncpy strncat
  rw [if_pos (by omega), Returns.bind_apply (.pure path s), if_pos hfit]
  exact Returns.bind_apply (.pure (path ++ suffix) s)

/-- A pattern that does not fit. -/
theorem globSuffix_overflows {suffix : Path} (hfit : ¬ path.length + suffix.length < bufsize) :
    Fails (globSuffix W fs path suffix) s .bounds := by
  unfold globSuffix strncpy strncat
  by_cases hlen : path.length < bufsize
  · rw [if_pos hlen]
    refine (Returns.pure path s).bind_fails (Fails.bind ?_)
    rw [if_neg hfit]
    rfl
  · rw [if_neg hlen]
    exact Fails.bind rfl

theorem globSuffix_returns {suffix : Path} {ps : List Path}
    (hfit : path.length + suffix.length < bufsize) (h : fs.glob W (path ++ suffix) = some ps) :
    Returns (globSuffix W fs path suffix) s ps s := by
  unfold Returns
  rw [globSuffix_apply hfit, h]
  rfl

theorem search_overflows (hfit : ¬ path.length + 2 < bufsize) :
    Fails (search W fs path) s .bounds :=
  Fails.bind (globSuffix_overflows hfit)

/-- If no plain entry is found, the first call makes the program exit. -/
theorem search_exits (hfit : path.length + 2 < bufsize) (h : ¬ Searchable W fs path) :
    Exits (search W fs path) s 1 s := by
  refine Fails.bind ?_
  unfold Fails
  rw [globSuffix_apply hfit, glob_of_not_searchable h]
  exact exit_exits _ _

/-- The second pattern is longer than the first. -/
theorem search_overflows_dots (h : Searchable W fs path) (hfit : ¬ path.length + 3 < bufsize) :
    Fails (search W fs path) s .bounds := by
  obtain ⟨globres, hidden, hstar, -, -⟩ := h.globs
  by_cases hshort : path.length + 2 < bufsize
  · exact (globSuffix_returns hshort hstar).bind_fails (Fails.bind (globSuffix_overflows hfit))
  · exact search_overflows hshort

theorem search_returns (h : Searchable W fs path) (hfit : path.length + 3 < bufsize) :
    Returns (search W fs path) s (found W fs path) s := by
  obtain ⟨globres, hidden, hstar, hdots, heq⟩ := h.globs
  have hfirst : Returns (globSuffix W fs path [slash, star]) s globres s :=
    globSuffix_returns (Nat.lt_of_succ_lt hfit) hstar
  exact hfirst.bind ((globSuffix_returns hfit hdots).map_pure heq.symm)

/-! ## The loop -/

/-- The paths that `mydu` calls itself with, in this order. -/
def targets (W : Wildcards) (fs : FileSystem) (path : Path) : List Path :=
  (found W fs path).filter counted

theorem pathCheck_targets {q : Path} (hq : q ∈ targets W fs path) :
    Returns (pathCheck q) s true s := by
  obtain ⟨hfound, hcounted⟩ := List.mem_filter.mp hq
  obtain ⟨d, n, -, hn, rfl⟩ := exists_entry_of_mem_found hfound
  exact hcounted ▸ pathCheck_returns d (slash_notMem_readdir hn)

/-- What the loop does with a path that was found. -/
theorem sumLoop_cons {du : Path → Process σ Nat} {q : Path} {ps : List Path} {sum : Nat}
    (hq : q ∈ found W fs path) :
    sumLoop du (q :: ps) sum s =
      if counted q then (do sumLoop du ps (sum + (← du q))) s else sumLoop du ps sum s := by
  obtain ⟨d, n, -, hn, rfl⟩ := exists_entry_of_mem_found hq
  rw [sumLoop, Returns.bind_apply (pathCheck_returns d (slash_notMem_readdir hn))]
  split <;> rfl

/-- The loop leaves `.` and `..` out. -/
theorem sumLoop_filter {du : Path → Process σ Nat} {ps : List Path} (hps : ps ⊆ found W fs path) :
    ∀ {sum : Nat}, sumLoop du ps sum = sumLoop du (ps.filter counted) sum := by
  induction ps with
  | nil => exact rfl
  | cons q ps ih =>
    intro sum
    obtain ⟨hq, hps⟩ := List.cons_subset.mp hps
    funext s
    rw [sumLoop_cons hq]
    cases hcounted : counted q with
    | true =>
      rw [List.filter_cons_of_pos hcounted, sumLoop_cons hq, hcounted]
      simp only [ih hps]
    | false =>
      rw [List.filter_cons_of_neg (by rw [hcounted]; decide), ih hps]
      rfl

theorem sumLoop_found (du : Path → Process σ Nat) (sum : Nat) :
    sumLoop du (found W fs path) sum = sumLoop du (targets W fs path) sum :=
  sumLoop_filter (List.Subset.refl _)

/-- In a directory with a plain entry the loop goes over the targets. -/
theorem mydu_apply (h : fs.lstat path = some (.dir st l child)) (hfit : path.length + 3 < bufsize)
    (hsearch : Searchable W fs path) (depth : Nat) :
    mydu W fs (depth + 1) path () =
      (do return (← sumLoop (mydu W fs depth) (targets W fs path) 0) + st.blocks :
        Process Unit Nat) () := by
  rw [mydu, h, ← sumLoop_found]
  exact (search_returns hsearch hfit).bind_apply

/-! ## Directories that find their own entries -/

/-- As a pattern, the path leads to itself and to no other directory that has entries. -/
structure LeadsHome (W : Wildcards) (fs : FileSystem) (path : Path) : Prop where
  self : path ++ [slash] ∈ fs.leads W path
  others : ∀ d ∈ fs.leads W path, d ≠ path ++ [slash] → ∀ n ∈ fs.readdir d, ¬ Legal n

/-- The patterns fit into their buffer, and the path leads home. -/
structure FindsOwn (W : Wildcards) (fs : FileSystem) (path : Path) : Prop where
  fits : path.length + 3 < bufsize
  home : LeadsHome W fs path

instance (W : Wildcards) (fs : FileSystem) (path : Path) : Decidable (LeadsHome W fs path) :=
  decidable_of_iff ((∃ d ∈ fs.leads W path, d = path ++ [slash]) ∧
    ∀ d ∈ fs.leads W path, d ≠ path ++ [slash] → ∀ n ∈ fs.readdir d, ¬ Legal n)
    ⟨fun ⟨⟨_, hd, heq⟩, h⟩ => ⟨heq ▸ hd, h⟩, fun h => ⟨⟨_, h.self, rfl⟩, h.others⟩⟩

instance (W : Wildcards) (fs : FileSystem) (path : Path) : Decidable (FindsOwn W fs path) :=
  decidable_of_iff (path.length + 3 < bufsize ∧ LeadsHome W fs path)
    ⟨fun ⟨hfits, home⟩ => ⟨hfits, home⟩, fun h => ⟨h.fits, h.home⟩⟩

theorem legal_of_plain {d : Path} (hn : n ∈ fs.readdir d) (hplain : plain n = true) :
    Legal n := by
  rcases mem_readdir hn with rfl | rfl | hlegal
  · cases hplain
  · cases hplain
  · exact hlegal

theorem counted_readdir {d : Path} (hn : n ∈ fs.readdir (d ++ [slash])) :
    counted (entry d n) = true ↔ Legal n := by
  refine ⟨fun h => ?_, counted_legal d⟩
  rw [counted_entry d (slash_notMem_readdir hn), decide_eq_true_iff, not_or] at h
  rcases mem_readdir hn with hdot | hdot | hlegal
  · exact absurd hdot h.1
  · exact absurd hdot h.2
  · exact hlegal

/-- A legal name in the directory itself is that of an entry. -/
theorem mem_readdir_self (h : fs.lstat path = some (.dir st l child)) :
    n ∈ fs.readdir (path ++ [slash]) ∧ Legal n ↔ n ∈ l.names := by
  rw [readdir_entry h, List.mem_cons, List.mem_cons]
  constructor
  · rintro ⟨rfl | rfl | hn, hlegal⟩
    · exact absurd rfl hlegal.ne_dot
    · exact absurd rfl hlegal.ne_dotdot
    · exact hn
  · exact fun hn => ⟨.inr (.inr hn), l.legal n hn⟩

/-- The targets are the entries of the directories that the path leads to. -/
theorem Searchable.mem_targets (h : Searchable W fs path) {q : Path} :
    q ∈ targets W fs path ↔ ∃ d n, d ++ [slash] ∈ fs.leads W path ∧
      n ∈ fs.readdir (d ++ [slash]) ∧ Legal n ∧ q = entry d n := by
  unfold targets
  rw [List.mem_filter]
  constructor
  · rintro ⟨hq, hcounted⟩
    obtain ⟨d, n, hd, hn, rfl⟩ := exists_entry_of_mem_found hq
    exact ⟨d, n, hd, hn, (counted_readdir hn).mp hcounted, rfl⟩
  · rintro ⟨d, n, hd, hn, hlegal, rfl⟩
    refine ⟨h.found_perm.mem_iff.mpr (List.mem_flatMap.mpr ⟨_, hd, ?_⟩), counted_legal d hlegal⟩
    exact List.mem_map.mpr ⟨n, hn, by rw [entry, List.append_assoc, List.singleton_append]⟩

theorem searchable_of_targets (h : targets W fs path ≠ []) : Searchable W fs path := by
  by_contra hsearch
  refine h ?_
  rw [targets, found_of_not_searchable hsearch]
  rfl

/-- No path is found twice. -/
theorem targets_nodup : (targets W fs path).Nodup := by
  unfold targets
  by_cases hsearch : Searchable W fs path
  swap
  · rw [found_of_not_searchable hsearch]
    exact List.nodup_nil
  refine List.Nodup.filter _ (hsearch.found_perm.nodup_iff.mpr (List.nodup_flatMap.mpr ⟨?_, ?_⟩))
  · exact fun d _ => (fs.readdir_nodup d).map (List.append_right_injective d)
  · refine (leads_nodup W fs path).imp_of_mem fun {d d'} hd hd' hne q hq hq' => hne ?_
    obtain ⟨n, hn, rfl⟩ := List.mem_map.mp hq
    obtain ⟨n', hn', heq⟩ := List.mem_map.mp hq'
    obtain ⟨e, rfl⟩ := leads_concat hd
    obtain ⟨e', rfl⟩ := leads_concat hd'
    rw [List.append_assoc, List.append_assoc, List.singleton_append, List.singleton_append] at heq
    rw [((entry_inj (slash_notMem_readdir hn') (slash_notMem_readdir hn)).mp heq).1]

/-- A directory with a plain entry that leads to itself finds a plain entry. -/
theorem LeadsHome.searchable (home : LeadsHome W fs path)
    (h : fs.lstat path = some (.dir st l child)) (hplain : ∃ n ∈ l.names, plain n = true) :
    Searchable W fs path := by
  obtain ⟨n, hn, hp⟩ := hplain
  exact ⟨_, home.self, n, ((mem_readdir_self h).mpr hn).1, hp⟩

/-- Without plain entries it finds none. -/
theorem LeadsHome.not_searchable (home : LeadsHome W fs path)
    (h : fs.lstat path = some (.dir st l child)) (hplain : ¬ ∃ n ∈ l.names, plain n = true) :
    ¬ Searchable W fs path := by
  rintro ⟨d, hd, n, hn, hp⟩
  by_cases hself : d = path ++ [slash]
  · subst hself
    exact hplain ⟨n, (mem_readdir_self h).mp ⟨hn, legal_of_plain hn hp⟩, hp⟩
  · exact home.others d hd hself n hn (legal_of_plain hn hp)

theorem entries_nodup (path : Path) (l : Listing) : (l.names.map (entry path)).Nodup :=
  l.nodup.map_on fun n hn n' hn' heq =>
    ((entry_inj (l.legal n hn).slash_notMem (l.legal n' hn').slash_notMem).mp heq).2

/-- It goes to its own entries. -/
theorem LeadsHome.targets_perm (home : LeadsHome W fs path)
    (h : fs.lstat path = some (.dir st l child)) (hplain : ∃ n ∈ l.names, plain n = true) :
    (targets W fs path).Perm (l.names.map (entry path)) := by
  refine (List.perm_ext_iff_of_nodup targets_nodup (entries_nodup path l)).mpr fun q => ?_
  rw [(home.searchable h hplain).mem_targets, List.mem_map]
  constructor
  · rintro ⟨d, n, hd, hn, hlegal, rfl⟩
    by_cases hself : d ++ [slash] = path ++ [slash]
    · obtain rfl := List.append_cancel_right hself
      exact ⟨n, (mem_readdir_self h).mp ⟨hn, hlegal⟩, rfl⟩
    · exact absurd hlegal (home.others _ hd hself n hn)
  · rintro ⟨n, hn, rfl⟩
    obtain ⟨hread, hlegal⟩ := (mem_readdir_self h).mpr hn
    exact ⟨path, n, home.self, hread, hlegal, rfl⟩

/-- A directory whose targets are its own entries leads home. -/
theorem LeadsHome.of_targets (h : fs.lstat path = some (.dir st l child))
    (hsearch : Searchable W fs path)
    (hown : ∀ q ∈ targets W fs path, ∃ n ∈ l.names, q = entry path n) :
    LeadsHome W fs path ∧ ∃ n ∈ l.names, plain n = true := by
  have hmine {d : Path} {m : Name} (hd : d ++ [slash] ∈ fs.leads W path)
      (hm : m ∈ fs.readdir (d ++ [slash])) (hlegal : Legal m) : d = path ∧ m ∈ l.names := by
    obtain ⟨n, hn, heq⟩ := hown _ (hsearch.mem_targets.mpr ⟨d, m, hd, hm, hlegal, rfl⟩)
    obtain ⟨rfl, rfl⟩ :=
      (entry_inj hlegal.slash_notMem (l.legal n hn).slash_notMem).mp heq
    exact ⟨rfl, hn⟩
  obtain ⟨d, hd, m, hm, hplain⟩ := id hsearch
  obtain ⟨d, rfl⟩ := leads_concat hd
  obtain ⟨rfl, hmem⟩ := hmine hd hm (legal_of_plain hm hplain)
  refine ⟨⟨hd, fun d' hd' hne n hn hlegal => hne ?_⟩, m, hmem, hplain⟩
  obtain ⟨d', rfl⟩ := leads_concat hd'
  rw [(hmine hd' hn hlegal).1]

/-- The file system with `t` at `/h`. -/
def mounted (t : Node) : FileSystem where
  root := .dir ⟨1, 8⟩ ⟨[[104]], by decide, by decide⟩ fun _ => t
  cwd := []
  follow _ := none

end CToys.Fs
