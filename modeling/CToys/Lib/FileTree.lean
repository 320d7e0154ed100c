import Mathlib.Data.List.Basic

/-!
# File trees

A file tree is made of directories and of files of other kinds, which are its leaves.  A
file system is a tree together with a current directory and with the targets of the
symbolic links in it.  `FileSystem.walk` follows the components of a path as the kernel
does: an empty component and `.` stay in a directory, `..` goes up, and a link is followed
when more components come behind it.

`lstat_entry` is what a program relies on that builds paths: the entry `n` of the directory
`path` is at `path/n`.
-/

namespace CToys

/-- A file name. -/
abbrev Name : Type := List UInt8

/-- A path. -/
abbrev Path : Type := List UInt8

/-- `'/'`. -/
def slash : UInt8 := 47

/-- `'.'`. -/
def dot : UInt8 := 46

/-- The path of the entry `n` of a directory. -/
def entry (path : Path) (n : Name) : Path := path ++ slash :: n

/-- What `lstat` tells about a file. -/
structure Stat where
  /-- `st_ino`.  Two paths with the same number are links to one file. -/
  ino : Nat
  /-- `st_blocks`. -/
  blocks : Nat
deriving DecidableEq, Repr

/-- The names that a file may have. -/
structure Legal (n : Name) : Prop where
  ne_nil : n ≠ []
  slash_notMem : slash ∉ n
  nul_notMem : 0 ∉ n
  ne_dot : n ≠ [dot]
  ne_dotdot : n ≠ [dot, dot]

theorem legal_iff {n : Name} : Legal n ↔
    n ≠ [] ∧ slash ∉ n ∧ 0 ∉ n ∧ n ≠ [dot] ∧ n ≠ [dot, dot] :=
  ⟨fun h => ⟨h.1, h.2, h.3, h.4, h.5⟩, fun ⟨h₁, h₂, h₃, h₄, h₅⟩ => ⟨h₁, h₂, h₃, h₄, h₅⟩⟩

instance (n : Name) : Decidable (Legal n) := decidable_of_iff' _ legal_iff

/-- The entries of a directory, other than `.` and `..`. -/
structure Listing where
  names : List Name
  nodup : names.Nodup
  legal : ∀ n ∈ names, Legal n

/-- A file tree. -/
inductive Node where
  /-- A file that is no directory. -/
  | file (st : Stat)
  /-- A directory, with the trees of its entries. -/
  | dir (st : Stat) (l : Listing) (child : Name → Node)

namespace Node

/-- The files of a tree. -/
def stats : Node → List Stat
  | .file st => [st]
  | .dir st l child => st :: l.names.flatMap fun n => (child n).stats

/-- The paths of the files, when the tree is at `path`. -/
def paths : (t : Node) → (path : Path) → List Path
  | .file _, path => [path]
  | .dir _ l child, path => path :: l.names.flatMap fun n => (child n).paths (entry path n)

/-- The tree below a sequence of names. -/
def find : Node → List Name → Option Node
  | t, [] => some t
  | .file _, _ :: _ => none
  | .dir _ l child, n :: ns => if n ∈ l.names then (child n).find ns else none

/-- The paths of all directories of the tree at `path` satisfy `P`. -/
def AllDirs (P : Path → Prop) : (t : Node) → (path : Path) → Prop
  | .file _, _ => True
  | .dir _ l child, path => P path ∧ ∀ n ∈ l.names, (child n).AllDirs P (entry path n)

instance decidableAllDirs (P : Path → Prop) [DecidablePred P] :
    (t : Node) → (path : Path) → Decidable (t.AllDirs P path)
  | .file _, _ => inferInstanceAs (Decidable True)
  | .dir _ l child, path =>
      have := fun n => decidableAllDirs P (child n) (entry path n)
      inferInstanceAs (Decidable (P path ∧ ∀ n ∈ l.names, (child n).AllDirs P (entry path n)))

variable {t : Node} {st : Stat} {l : Listing} {child : Name → Node} {n : Name} {path : Path}

theorem path_mem_paths (t : Node) (path : Path) : path ∈ t.paths path := by
  cases t with
  | file => exact List.mem_singleton_self _
  | dir => exact List.mem_cons_self

theorem paths_entry (hn : n ∈ l.names) {q : Path} (hq : q ∈ (child n).paths (entry path n)) :
    q ∈ (dir st l child).paths path :=
  List.mem_cons_of_mem _ (List.mem_flatMap.mpr ⟨n, hn, hq⟩)

theorem find_concat {loc : List Name} (h : t.find loc = some (.dir st l child))
    (hn : n ∈ l.names) : t.find (loc ++ [n]) = some (child n) := by
  induction loc generalizing t with
  | nil =>
    obtain rfl : t = .dir st l child := by simpa [find] using h
    simp [find, hn]
  | cons m loc ih =>
    cases t with
    | file => cases h
    | dir st' l' child' =>
      rw [find] at h
      split at h
      · next hm => simpa only [List.cons_append, find, if_pos hm] using ih h
      · cases h

end Node

/-- A file tree, as processes see it. -/
structure FileSystem where
  /-- The tree at `/`. -/
  root : Node
  /-- The current directory. -/
  cwd : List Name
  /-- Where a symbolic link leads. -/
  follow : List Name → Option (List Name)

namespace FileSystem

/-- Where the component `c` leads from the directory `loc`. -/
def step (fs : FileSystem) (loc : List Name) (c : Name) (last : Bool) : Option (List Name) :=
  match fs.root.find loc with
  | some (.dir _ l child) =>
      if c = [] ∨ c = [dot] then some loc
      else if c = [dot, dot] then some loc.dropLast
      else if c ∈ l.names then
        match child c with
        | .file _ => if last then some (loc ++ [c]) else fs.follow (loc ++ [c])
        | .dir .. => some (loc ++ [c])
      else none
  | _ => none

/-- Where the components lead from the directory `loc`. -/
def walk (fs : FileSystem) : (loc : List Name) → (cs : List Name) → Option (List Name)
  | loc, [] => some loc
  | loc, c :: cs =>
      match fs.step loc c cs.isEmpty with
      | none => none
      | some loc' => fs.walk loc' cs

/-- Where a path begins. -/
def start (fs : FileSystem) (path : Path) : List Name :=
  if path.head? = some slash then [] else fs.cwd

/-- The file at a path.  A link at its end is not followed. -/
def lstat (fs : FileSystem) (path : Path) : Option Node :=
  if path = [] then none
  else (fs.walk (fs.start path) (path.splitOn slash)).bind fs.root.find

/-- The names in a directory.  Its path is `dir` up to a slash at the end, and the current
directory is the empty path. -/
def readdir (fs : FileSystem) (dir : Path) : List Name :=
  match fs.lstat (dir ++ [dot]) with
  | some (.dir _ l _) => [dot] :: [dot, dot] :: l.names
  | _ => []

variable {fs : FileSystem} {loc loc' cs : List Name} {st : Stat} {l : Listing}
  {child : Name → Node} {c n : Name} {path : Path}

/-- A component that leads to a directory does so at any place. -/
theorem step_of_last (h : fs.step loc c true = some loc')
    (hdir : fs.root.find loc' = some (.dir st l child)) : fs.step loc c false = some loc' := by
  unfold step at *
  split at h
  · next st' l' child' hloc =>
    by_cases hstay : c = [] ∨ c = [dot]
    · rwa [if_pos hstay] at h ⊢
    rw [if_neg hstay] at h ⊢
    by_cases hup : c = [dot, dot]
    · rwa [if_pos hup] at h ⊢
    rw [if_neg hup] at h ⊢
    by_cases hc : c ∈ l'.names
    · rw [if_pos hc] at h ⊢
      cases hchild : child' c with
      | file st'' =>
        -- the file itself would be the directory
        simp only [hchild, if_true] at h
        obtain rfl := Option.some.inj h
        rw [Node.find_concat hloc hc, hchild] at hdir
        cases hdir
      | dir => simpa only [hchild] using h
    · rw [if_neg hc] at h
      cases h
  · cases h

/-- From a directory that is reached a further component can be followed. -/
theorem walk_concat (h : fs.walk loc cs = some loc')
    (hdir : fs.root.find loc' = some (.dir st l child)) :
    fs.walk loc (cs ++ [c]) = fs.step loc' c true := by
  induction cs generalizing loc with
  | nil =>
    obtain rfl : loc = loc' := Option.some.inj h
    rw [List.nil_append, walk]
    cases hstep : fs.step loc c true with
    | none => simp only [List.isEmpty_nil, hstep]
    | some => simp only [List.isEmpty_nil, hstep, walk]
  | cons d cs ih =>
    rw [walk] at h
    rw [List.cons_append, walk]
    split at h
    · cases h
    · next mid hmid =>
      have hmid' : fs.step loc d (cs ++ [c]).isEmpty = some mid := by
        cases cs with
        | nil =>
          obtain rfl : mid = loc' := Option.some.inj h
          exact step_of_last hmid hdir
        | cons => exact hmid
      simp only [hmid']
      exact ih h

/-- The path of a directory and a further component. -/
theorem lstat_concat (h : fs.lstat path = some (.dir st l child)) (hc : slash ∉ c) :
    ∃ loc, fs.root.find loc = some (.dir st l child) ∧
      fs.lstat (entry path c) = (fs.step loc c true).bind fs.root.find := by
  unfold lstat at h
  split_ifs at h with hnil
  obtain ⟨loc, hwalk, hdir⟩ := Option.bind_eq_some_iff.mp h
  refine ⟨loc, hdir, ?_⟩
  have hne : entry path c ≠ [] := List.append_ne_nil_of_left_ne_nil hnil _
  have hstart : fs.start (entry path c) = fs.start path := by
    rw [start, entry, List.head?_append_of_ne_nil _ hnil, start]
  have hsplit : (entry path c).splitOn slash = path.splitOn slash ++ [c] := by
    rw [entry, List.splitOn_append_cons_self, List.splitOn_eq_singleton hc]
  rw [lstat, if_neg hne, hstart, hsplit, walk_concat hwalk hdir]

/-- The entry `n` of a directory is at `path/n`. -/
theorem lstat_entry (h : fs.lstat path = some (.dir st l child)) (hn : n ∈ l.names) :
    fs.lstat (entry path n) = some (child n) := by
  have hlegal := l.legal n hn
  obtain ⟨loc, hdir, heq⟩ := lstat_concat h hlegal.slash_notMem
  have hstay : ¬ (n = [] ∨ n = [dot]) := not_or.mpr ⟨hlegal.ne_nil, hlegal.ne_dot⟩
  have hstep : fs.step loc n true = some (loc ++ [n]) := by
    simp only [step, hdir, if_neg hstay, if_neg hlegal.ne_dotdot, if_pos hn, if_true]
    cases child n <;> rfl
  rw [heq, hstep, Option.bind_some, Node.find_concat hdir hn]

/-- The entries of a directory, as `readdir` lists them. -/
theorem readdir_entry (h : fs.lstat path = some (.dir st l child)) :
    fs.readdir (path ++ [slash]) = [dot] :: [dot, dot] :: l.names := by
  obtain ⟨loc, hdir, heq⟩ := lstat_concat (c := [dot]) h (by decide)
  have hstep : fs.step loc [dot] true = some loc := by
    simp only [step, hdir, or_true, if_true]
  have hself : fs.lstat (path ++ [slash] ++ [dot]) = some (.dir st l child) := by
    rw [List.append_assoc]
    exact heq.trans (by rw [hstep, Option.bind_some, hdir])
  simp only [readdir, hself]

/-- What `readdir` lists is `.`, `..` and the names of a directory. -/
theorem readdir_cases (fs : FileSystem) (dir : Path) :
    fs.readdir dir = [] ∨ ∃ l : Listing, fs.readdir dir = [dot] :: [dot, dot] :: l.names := by
  unfold readdir
  split
  · next l _ _ => exact .inr ⟨l, rfl⟩
  · exact .inl rfl

theorem mem_readdir {dir : Path} (h : n ∈ fs.readdir dir) :
    n = [dot] ∨ n = [dot, dot] ∨ Legal n := by
  rcases fs.readdir_cases dir with hnil | ⟨l, hl⟩
  · rw [hnil] at h
    cases h
  · rw [hl, List.mem_cons, List.mem_cons] at h
    exact h.imp_right (.imp_right (l.legal n))

theorem dot_mem_readdir {dir : Path} (h : n ∈ fs.readdir dir) : [dot] ∈ fs.readdir dir := by
  rcases fs.readdir_cases dir with hnil | ⟨l, hl⟩
  · rw [hnil] at h
    cases h
  · rw [hl]
    exact List.mem_cons_self

theorem slash_notMem_readdir {dir : Path} (h : n ∈ fs.readdir dir) : slash ∉ n := by
  rcases mem_readdir h with rfl | rfl | hn
  · decide
  · decide
  · exact hn.slash_notMem

theorem readdir_nodup (fs : FileSystem) (dir : Path) : (fs.readdir dir).Nodup := by
  rcases fs.readdir_cases dir with hnil | ⟨l, hl⟩
  · rw [hnil]
    exact List.nodup_nil
  · rw [hl]
    refine List.nodup_cons.mpr ⟨?_, List.nodup_cons.mpr ⟨?_, l.nodup⟩⟩
    · rw [List.mem_cons, not_or]
      exact ⟨by decide, fun h => (l.legal _ h).ne_dot rfl⟩
    · exact fun h => (l.legal _ h).ne_dotdot rfl

end FileSystem

end CToys
