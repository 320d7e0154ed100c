import Mathlib.Data.List.Infix
import Mathlib.Data.List.Perm.Basic
import Mathlib.Data.List.Sort
import CToys.Lib.FileTree

/-!
# Pathname patterns

`FileSystem.glob` finds the paths that match a pattern, in the way of `glob` without flags.
A component of the pattern that has no wildcards stands for itself, and the others are matched
with the entries of the directory so far, `.` and `..` included.  The pattern fails if no path
matches.

*Wildcards.*  What a component stands for is left to `glob`.  All that is assumed is that one
without special bytes stands for itself, that `*` matches the plain names and that `.*` matches
the hidden ones.  `Wildcards.unbracketed` are the rules for components without brackets.

The two patterns `path/*` and `path/.*` find the plain and the hidden entries.  They find them
in every directory that `path` leads to when it is read as a pattern (`leads`), which is
`path` alone if no byte of it is special.
-/

namespace CToys

/-- `'*'`. -/
def star : UInt8 := 42

/-- `'?'`. -/
def question : UInt8 := 63

/-- `'['`. -/
def lbracket : UInt8 := 91

/-- `'\'`. -/
def backslash : UInt8 := 92

/-- The bytes that are special in a pattern. -/
def Special (c : UInt8) : Prop := c = star ∨ c = question ∨ c = lbracket ∨ c = backslash

instance (c : UInt8) : Decidable (Special c) :=
  inferInstanceAs (Decidable (c = star ∨ c = question ∨ c = lbracket ∨ c = backslash))

/-- No byte of the path is special. -/
def Tame (path : Path) : Prop := ∀ c ∈ path, ¬ Special c

instance (path : Path) : Decidable (Tame path) := List.decidableBAll _ _

/-- Whether a name is plain, that is not hidden. -/
def plain (n : Name) : Bool := n.head? != some dot

/-- How the components of a pattern are read. -/
structure Wildcards where
  /-- The name that a component stands for, if it has no wildcards. -/
  literal? : (component : Name) → Option Name
  /-- `fnmatch` with `FNM_PERIOD`, for a component with wildcards. -/
  fnmatch : (component n : Name) → Bool
  literal?_tame : ∀ {n}, Tame n → literal? n = some n
  literal?_star : literal? [star] = none
  literal?_dot_star : literal? [dot, star] = none
  fnmatch_star : ∀ n, fnmatch [star] n = plain n
  fnmatch_dot_star : ∀ n, fnmatch [dot, star] n = !plain n

/-! ## Components without brackets -/

namespace Glob

/-- The name that a component stands for, if neither `*` nor `?` is in it. -/
def literal? : (component : Name) → Option Name
  | [] => some []
  | c :: cs =>
      if c = star ∨ c = question then none
      else if c = backslash then
        match cs with
        | [] => some []
        | d :: ds => (literal? ds).map (d :: ·)
      else (literal? cs).map (c :: ·)

/-- Whether a name consists of what a component stands for. -/
def accepts : (component n : Name) → Bool
  | [], n => n.isEmpty
  | c :: cs, n =>
      if c = star then n.tails.any (accepts cs)
      else if c = question then !n.isEmpty && accepts cs n.tail
      else if c = backslash then
        match cs with
        | [] => false
        | d :: ds => n.head? == some d && accepts ds n.tail
      else n.head? == some c && accepts cs n.tail

/-- A period at the beginning of a name is not matched by a wildcard. -/
def fnmatch (component n : Name) : Bool :=
  (plain n || component.head? != some star && component.head? != some question) &&
    accepts component n

theorem literal?_tame {n : Name} (h : Tame n) : literal? n = some n := by
  induction n with
  | nil => rfl
  | cons c n ih =>
    obtain ⟨hc, hn⟩ := List.forall_mem_cons.mp h
    simp only [Special, not_or] at hc
    obtain ⟨hstar, hquestion, -, hbackslash⟩ := hc
    rw [literal?.eq_def]
    simp only [if_neg (not_or.mpr ⟨hstar, hquestion⟩), if_neg hbackslash, ih hn, Option.map_some]

theorem accepts_star (n : Name) : accepts [star] n = true := by
  rw [accepts, if_pos rfl]
  exact List.any_eq_true.mpr ⟨[], (List.mem_tails _ _).mpr List.nil_suffix, rfl⟩

theorem fnmatch_star (n : Name) : fnmatch [star] n = plain n := by
  rw [fnmatch, accepts_star, Bool.and_true]
  exact Bool.or_false _

theorem fnmatch_dot_star (n : Name) : fnmatch [dot, star] n = !plain n := by
  have haccepts : accepts [dot, star] n = (n.head? == some dot) := by
    rw [accepts, if_neg (by decide), if_neg (by decide), if_neg (by decide), accepts_star,
      Bool.and_true]
  have hwild : (plain n || ([dot, star].head? != some star && [dot, star].head? != some question))
      = true := Bool.or_true _
  rw [fnmatch, hwild, haccepts, Bool.true_and, plain, bne, Bool.not_not]

end Glob

/-- The rules for patterns in which no `'['` is. -/
def Wildcards.unbracketed : Wildcards where
  literal? := Glob.literal?
  fnmatch := Glob.fnmatch
  literal?_tame := Glob.literal?_tame
  literal?_star := rfl
  literal?_dot_star := rfl
  fnmatch_star := Glob.fnmatch_star
  fnmatch_dot_star := Glob.fnmatch_dot_star

namespace FileSystem

variable (W : Wildcards) (fs : FileSystem)

/-- The paths that begin with `dir` and go on as the components say. -/
def expand : (dir : Path) → (components : List Name) → List Path
  | _, [] => []
  | dir, [c] =>
      match W.literal? c with
      | some n => if (fs.lstat (dir ++ n)).isSome then [dir ++ n] else []
      | none => ((fs.readdir dir).filter (W.fnmatch c)).map (dir ++ ·)
  | dir, c :: c' :: rest =>
      match W.literal? c with
      | some n => expand (dir ++ n ++ [slash]) (c' :: rest)
      | none => ((fs.readdir dir).filter (W.fnmatch c)).flatMap fun n =>
          expand (dir ++ n ++ [slash]) (c' :: rest)

/-- The paths that match a pattern, in no order. -/
def pathsMatching (pattern : Path) : List Path :=
  fs.expand W [] (pattern.splitOn slash)

/-- `glob`.  It fails if no path matches. -/
def glob (pattern : Path) : Option (List Path) :=
  let paths := (fs.pathsMatching W pattern).insertionSort (· ≤ ·)
  if paths = [] then none else some paths

variable {W : Wildcards} {fs : FileSystem} {path pattern : Path} {st : Stat} {l : Listing}
  {child : Name → Node}

/-! ## What is found -/

theorem glob_eq_none (h : fs.pathsMatching W pattern = []) : fs.glob W pattern = none := by
  rw [glob, h]
  rfl

/-- The paths that `glob` finds. -/
theorem glob_perm {ps : List Path} (h : fs.glob W pattern = some ps) :
    ps.Perm (fs.pathsMatching W pattern) := by
  unfold glob at h
  dsimp only at h
  split at h
  · cases h
  · obtain rfl := Option.some.inj h
    exact List.perm_insertionSort _ _

theorem glob_eq_some (h : fs.pathsMatching W pattern ≠ []) : ∃ ps, fs.glob W pattern = some ps := by
  have hperm := List.perm_insertionSort (· ≤ ·) (fs.pathsMatching W pattern)
  refine ⟨_, if_neg fun hnil => h ?_⟩
  exact List.nil_perm.mp (hnil ▸ hperm)

/-! ## Directories that a pattern leads to -/

/-- The directories, each with a slash behind it, that the components lead to from `dir`. -/
def expandDirs (W : Wildcards) (fs : FileSystem) :
    (dir : Path) → (components : List Name) → List Path
  | dir, [] => [dir]
  | dir, c :: rest =>
      match W.literal? c with
      | some n => expandDirs W fs (dir ++ n ++ [slash]) rest
      | none => ((fs.readdir dir).filter (W.fnmatch c)).flatMap fun n =>
          expandDirs W fs (dir ++ n ++ [slash]) rest

/-- The directories that a path leads to when it is read as a pattern. -/
def leads (W : Wildcards) (fs : FileSystem) (path : Path) : List Path :=
  fs.expandDirs W [] (path.splitOn slash)

theorem expand_cons (fs : FileSystem) {dir : Path} {c : Name} {rest : List Name}
    (hne : rest ≠ []) :
    fs.expand W dir (c :: rest) =
      match W.literal? c with
      | some n => fs.expand W (dir ++ n ++ [slash]) rest
      | none => ((fs.readdir dir).filter (W.fnmatch c)).flatMap fun n =>
          fs.expand W (dir ++ n ++ [slash]) rest := by
  cases rest with
  | nil => exact absurd rfl hne
  | cons => rfl

/-- The last component is matched in each of the directories. -/
theorem expand_concat (fs : FileSystem) {last : Name} (hwild : W.literal? last = none)
    {cs : List Name} : ∀ {dir : Path}, fs.expand W dir (cs ++ [last]) =
      (fs.expandDirs W dir cs).flatMap fun d =>
        ((fs.readdir d).filter (W.fnmatch last)).map (d ++ ·) := by
  induction cs with
  | nil =>
    intro dir
    rw [List.nil_append, expand, hwild, expandDirs, List.flatMap_singleton]
  | cons c cs ih =>
    intro dir
    rw [List.cons_append, expand_cons fs (by simp), expandDirs]
    cases W.literal? c with
    | some n => exact ih
    | none => simp only [ih, List.flatMap_assoc]

/-- What is found in the directory `path`, or in the others that it leads to. -/
theorem pathsMatching_entry (fs : FileSystem) (path : Path) (hslash : slash ∉ pattern)
    (hwild : W.literal? pattern = none) :
    fs.pathsMatching W (entry path pattern) = (fs.leads W path).flatMap fun d =>
      ((fs.readdir d).filter (W.fnmatch pattern)).map (d ++ ·) := by
  rw [pathsMatching, entry, List.splitOn_append_cons_self, List.splitOn_eq_singleton hslash,
    expand_concat fs hwild, leads]

/-- `path/*` are the plain entries. -/
theorem pathsMatching_star (W : Wildcards) (fs : FileSystem) (path : Path) :
    fs.pathsMatching W (entry path [star]) = (fs.leads W path).flatMap fun d =>
      ((fs.readdir d).filter plain).map (d ++ ·) := by
  rw [pathsMatching_entry fs path (by decide) W.literal?_star, funext W.fnmatch_star]

/-- `path/.*` are the hidden entries, `.` and `..`. -/
theorem pathsMatching_dot_star (W : Wildcards) (fs : FileSystem) (path : Path) :
    fs.pathsMatching W (entry path [dot, star]) = (fs.leads W path).flatMap fun d =>
      ((fs.readdir d).filter (!plain ·)).map (d ++ ·) := by
  rw [pathsMatching_entry fs path (by decide) W.literal?_dot_star, funext W.fnmatch_dot_star]

/-- Together they are all entries, each once. -/
theorem pathsMatching_perm (W : Wildcards) (fs : FileSystem) (path : Path) :
    (fs.pathsMatching W (entry path [star]) ++ fs.pathsMatching W (entry path [dot, star])).Perm
      ((fs.leads W path).flatMap fun d => (fs.readdir d).map (d ++ ·)) := by
  rw [pathsMatching_star, pathsMatching_dot_star]
  refine (List.flatMap_append_perm _ _ _).trans (List.Perm.flatMap_left _ fun d _ => ?_)
  rw [← List.map_append]
  exact (List.filter_append_perm plain (fs.readdir d)).map (d ++ ·)

/-- The directories that are found have a slash behind them. -/
theorem expandDirs_concat {q d : Path} {cs : List Name}
    (h : d ∈ fs.expandDirs W (q ++ [slash]) cs) : ∃ q', d = q' ++ [slash] := by
  induction cs generalizing q with
  | nil => exact ⟨q, List.mem_singleton.mp h⟩
  | cons c cs ih =>
    rw [expandDirs] at h
    split at h
    · exact ih h
    · obtain ⟨n, -, hn⟩ := List.mem_flatMap.mp h
      exact ih hn

theorem leads_concat {d : Path} (h : d ∈ fs.leads W path) : ∃ q, d = q ++ [slash] := by
  unfold leads at h
  obtain ⟨c, cs, hcs⟩ := List.exists_cons_of_ne_nil (List.splitOn_ne_nil slash path)
  rw [hcs, expandDirs] at h
  split at h
  · exact expandDirs_concat h
  · obtain ⟨n, -, hn⟩ := List.mem_flatMap.mp h
    exact expandDirs_concat hn

/-- What is found in a directory begins with its path. -/
theorem prefix_of_mem_expandDirs {dir d : Path} {cs : List Name}
    (h : d ∈ fs.expandDirs W dir cs) : dir <+: d := by
  induction cs generalizing dir with
  | nil =>
    obtain rfl := List.mem_singleton.mp h
    exact List.prefix_rfl
  | cons c cs ih =>
    have hcut (n : Name) : dir <+: dir ++ n ++ [slash] :=
      (List.prefix_append dir n).trans (List.prefix_append _ _)
    rw [expandDirs] at h
    split at h
    · exact (hcut _).trans (ih h)
    · obtain ⟨n, -, hn⟩ := List.mem_flatMap.mp h
      exact (hcut n).trans (ih hn)

/-- A name is what comes before the first slash. -/
theorem eq_of_prefixes {n n' : Name} (hn' : slash ∉ n')
    (h : n ++ [slash] <+: n' ++ [slash]) : n = n' := by
  obtain ⟨t, ht⟩ := h
  rw [List.append_assoc, List.singleton_append] at ht
  exact ((List.append_cons_inj_of_notMem hn' List.not_mem_nil).mp ht.symm).1.symm

/-- No directory is found twice. -/
theorem expandDirs_nodup (fs : FileSystem) {cs : List Name} :
    ∀ {dir : Path}, (fs.expandDirs W dir cs).Nodup := by
  induction cs with
  | nil => exact List.nodup_singleton _
  | cons c cs ih =>
    intro dir
    rw [expandDirs]
    split
    · exact ih
    · refine List.nodup_flatMap.mpr ⟨fun _ _ => ih, ?_⟩
      refine (fs.readdir_nodup dir).filter _ |>.imp_of_mem fun {n n'} hn hn' hne => ?_
      have hslash {m : Name} (hm : m ∈ (fs.readdir dir).filter (W.fnmatch c)) : slash ∉ m :=
        slash_notMem_readdir (List.mem_of_mem_filter hm)
      intro d hd hd'
      have hpre := List.prefix_or_prefix_of_prefix (prefix_of_mem_expandDirs hd)
        (prefix_of_mem_expandDirs hd')
      simp only [List.append_assoc, List.prefix_append_right_inj] at hpre
      rcases hpre with hpre | hpre
      · exact hne (eq_of_prefixes (hslash hn') hpre)
      · exact hne (eq_of_prefixes (hslash hn) hpre).symm

theorem leads_nodup (W : Wildcards) (fs : FileSystem) (path : Path) : (fs.leads W path).Nodup :=
  fs.expandDirs_nodup

/-! ## Paths that lead to themselves -/

theorem flatMap_slash {cs : List Name} (hne : cs ≠ []) :
    cs.flatMap (· ++ [slash]) = [slash].intercalate cs ++ [slash] := by
  induction cs with
  | nil => exact absurd rfl hne
  | cons c cs ih =>
    rcases eq_or_ne cs [] with rfl | hne
    · simp
    · rw [List.flatMap_cons, ih hne, List.intercalate_cons_of_ne_nil hne]
      simp only [List.append_assoc]

theorem flatMap_splitOn (path : Path) :
    (path.splitOn slash).flatMap (· ++ [slash]) = path ++ [slash] := by
  rw [flatMap_slash (List.splitOn_ne_nil _ _), List.intercalate_splitOn]

theorem expandDirs_literal (fs : FileSystem) {cs : List Name} (h : ∀ c ∈ cs, Tame c) :
    ∀ {dir : Path}, fs.expandDirs W dir cs = [dir ++ cs.flatMap (· ++ [slash])] := by
  induction cs with
  | nil => simp [expandDirs]
  | cons c cs ih =>
    intro dir
    obtain ⟨hc, hcs⟩ := List.forall_mem_cons.mp h
    rw [expandDirs, W.literal?_tame hc]
    simp only [ih hcs, List.flatMap_cons, List.append_assoc]

/-- Without special bytes a path leads to itself. -/
theorem leads_of_tame (W : Wildcards) (fs : FileSystem) (h : Tame path) :
    fs.leads W path = [path ++ [slash]] := by
  have hcs : ∀ c ∈ path.splitOn slash, Tame c := by
    intro c hc x hx
    have hmem : x ∈ (path.splitOn slash).flatMap (· ++ [slash]) :=
      List.mem_flatMap.mpr ⟨c, hc, List.mem_append_left _ hx⟩
    rw [flatMap_splitOn, List.mem_append, List.mem_singleton] at hmem
    rcases hmem with hmem | rfl
    · exact h x hmem
    · decide
  rw [leads, expandDirs_literal fs hcs, flatMap_splitOn, List.nil_append]

end FileSystem

end CToys
