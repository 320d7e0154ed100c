import Mathlib.Algebra.BigOperators.Group.List.Basic
import Mathlib.Algebra.Ring.Nat
import Mathlib.Data.List.Perm.Basic
import CToys.Fs.Descent

/-!
# The disk usage that `mydu` computes

The usage of a tree is the sum of the blocks of its files.  `mydu` returns it when every
directory of the tree has a plain entry.  If a directory has none, because it is empty or
because all its entries are hidden, then `path/*` matches nothing, `glob` fails and `mydu`
exits with status 1 (`mydu_spec`).

If the recursion stays inside the tree, it adds up the blocks of the entries of each directory.
The order in which they are found is that of `glob`, and the sum does not depend on it.
-/

namespace CToys.Fs

open FileSystem

/-- The blocks of the files of a tree. -/
def usage (t : Node) : Nat := (t.stats.map Stat.blocks).sum

/-- Every directory of the tree has a plain entry. -/
def PlainEntries : Node → Prop
  | .file _ => True
  | .dir _ l child => (∃ n ∈ l.names, plain n = true) ∧ ∀ n ∈ l.names, PlainEntries (child n)

instance decidablePlainEntries : (t : Node) → Decidable (PlainEntries t)
  | .file _ => inferInstanceAs (Decidable True)
  | .dir _ l child =>
      have := fun n => decidablePlainEntries (child n)
      inferInstanceAs (Decidable ((∃ n ∈ l.names, plain n = true) ∧
        ∀ n ∈ l.names, PlainEntries (child n)))

/-- The tree `t` is at `pathname`, and its paths are short and have no special bytes. -/
structure Addressable (fs : FileSystem) (pathname : Path) (t : Node) : Prop where
  found : fs.lstat pathname = some t
  free : ∀ path ∈ t.paths pathname, Tame path
  short : ∀ path ∈ t.paths pathname, path.length < 1020

variable {W : Wildcards} {fs : FileSystem} {path pathname : Path} {t : Node} {st : Stat}
  {l : Listing} {child : Name → Node} {n : Name} {du : Path → Process Unit Nat}

theorem usage_dir : usage (.dir st l child) =
    st.blocks + (l.names.map fun n => usage (child n)).sum := by
  simp only [usage, Node.stats, List.map_cons, List.sum_cons, List.map_flatMap]
  rw [List.flatMap_def, List.sum_flatten, List.map_map]
  rfl

theorem Addressable.leads (h : Addressable fs path t) : fs.leads W path = [path ++ [slash]] :=
  leads_of_tame W fs (h.free path (Node.path_mem_paths t path))

theorem Addressable.findsOwn (h : Addressable fs path t) : FindsOwn W fs path where
  fits := by
    have hshort := h.short path (Node.path_mem_paths t path)
    unfold bufsize
    omega
  home.self := by
    rw [h.leads]
    exact List.mem_singleton_self _
  home.others d hd hne := by
    rw [h.leads] at hd
    exact absurd (List.mem_singleton.mp hd) hne

theorem Addressable.entry (h : Addressable fs path (.dir st l child)) (hn : n ∈ l.names) :
    Addressable fs (entry path n) (child n) where
  found := lstat_entry h.found hn
  free q hq := h.free q (Node.paths_entry hn hq)
  short q hq := h.short q (Node.paths_entry hn hq)

theorem Addressable.allDirs : ∀ {path : Path}, Addressable fs path t →
    t.AllDirs (FindsOwn W fs) path := by
  induction t with
  | file => exact fun _ => trivial
  | dir st l child ih => exact fun h => ⟨h.findsOwn, fun n hn => ih n (h.entry hn)⟩

/-! ## The loop -/

/-- A round of the loop that adds `k`. -/
def Adds (du : Path → Process Unit Nat) (path : Path) (k : Nat) : Prop :=
  Returns (pathCheck path) () true () ∧ Returns (du path) () k ()

/-- A round of the loop that exits. -/
def Fatal (du : Path → Process Unit Nat) (path : Path) : Prop :=
  Returns (pathCheck path) () true () ∧ Exits (du path) () 1 ()

theorem sumLoop_returns {paths : List Path} {ks : List Nat} (h : List.Forall₂ (Adds du) paths ks) :
    ∀ sum, Returns (sumLoop du paths sum) () (sum + ks.sum) () := by
  induction h with
  | nil => exact fun sum => .pure _ _
  | @cons path k paths ks hround _ ih =>
    intro sum
    have hsum := ih (sum + k)
    rw [List.sum_cons, ← Nat.add_assoc]
    exact hround.1.bind (hround.2.bind hsum)

theorem sumLoop_exits {paths : List Path} (h : ∀ p ∈ paths, (∃ k, Adds du p k) ∨ Fatal du p)
    (hfatal : ∃ p ∈ paths, Fatal du p) : ∀ sum, Exits (sumLoop du paths sum) () 1 () := by
  induction paths with
  | nil =>
    obtain ⟨p, hp, -⟩ := hfatal
    cases hp
  | cons path paths ih =>
    intro sum
    obtain ⟨hpath, hpaths⟩ := List.forall_mem_cons.mp h
    by_cases hexit : Fatal du path
    · exact hexit.1.bind_fails (Fails.bind hexit.2)
    · have hrest : ∃ p ∈ paths, Fatal du p := by
        obtain ⟨p, hp, hpf⟩ := hfatal
        rcases List.mem_cons.mp hp with rfl | hp
        · exact absurd hpf hexit
        · exact ⟨p, hp, hpf⟩
      obtain ⟨k, hcheck, hdu⟩ := hpath.resolve_right hexit
      exact hcheck.bind_fails (hdu.bind_fails (ih hpaths hrest (sum + k)))

/-- The loop adds the usages of the entries. -/
theorem sumLoop_entries {paths : List Path} (hpaths : paths.Perm (l.names.map (entry path)))
    (h : ∀ n ∈ l.names, Returns (du (entry path n)) () (usage (child n)) ()) :
    Returns (sumLoop du paths 0) () (l.names.map fun n => usage (child n)).sum () := by
  have hadds : List.Forall₂ (Adds du) (l.names.map (entry path))
      (l.names.map fun n => usage (child n)) := by
    rw [List.forall₂_map_left_iff, List.forall₂_map_right_iff, List.forall₂_same]
    exact fun n hn => ⟨pathCheck_legal path (l.legal n hn), h n hn⟩
  obtain ⟨ks, hks, hperm⟩ := List.perm_comp_forall₂ hpaths hadds
  have hsum : 0 + ks.sum = (l.names.map fun n => usage (child n)).sum := by
    rw [hperm.sum_eq, Nat.zero_add]
  exact hsum ▸ sumLoop_returns hks 0

/-- The loop exits when an entry makes it exit. -/
theorem sumLoop_entries_exits {paths : List Path} (hpaths : paths.Perm (l.names.map (entry path)))
    (h : ∀ n ∈ l.names, (∃ k, Returns (du (entry path n)) () k ()) ∨
      Exits (du (entry path n)) () 1 ())
    (hexits : ∃ n ∈ l.names, Exits (du (entry path n)) () 1 ()) :
    Exits (sumLoop du paths 0) () 1 () := by
  refine sumLoop_exits (fun p hp => ?_) ?_ 0
  · obtain ⟨n, hn, rfl⟩ := List.mem_map.mp (hpaths.mem_iff.mp hp)
    have hcheck := pathCheck_legal (s := ()) path (l.legal n hn)
    rcases h n hn with ⟨k, hk⟩ | hexit
    · exact .inl ⟨k, hcheck, hk⟩
    · exact .inr ⟨hcheck, hexit⟩
  · obtain ⟨n, hn, hexit⟩ := hexits
    exact ⟨entry path n, hpaths.mem_iff.mpr (List.mem_map_of_mem hn),
      pathCheck_legal path (l.legal n hn), hexit⟩

/-! ## The tree -/

/-- What holds of each of finitely many trees from some depth on holds of all of them from
some depth on. -/
theorem exists_bound {P : Name → Nat → Prop} {names : List Name}
    (h : ∀ n ∈ names, ∃ bound, ∀ depth, bound ≤ depth → P n depth) :
    ∃ bound, ∀ n ∈ names, ∀ depth, bound ≤ depth → P n depth := by
  induction names with
  | nil => exact ⟨0, by simp⟩
  | cons n names ih =>
    obtain ⟨hn, hnames⟩ := List.forall_mem_cons.mp h
    obtain ⟨b, hb⟩ := hn
    obtain ⟨b', hb'⟩ := ih hnames
    refine ⟨max b b', List.forall_mem_cons.mpr ⟨fun depth hd => hb depth (by omega), ?_⟩⟩
    exact fun m hm depth hd => hb' m hm depth (by omega)

/-- What `mydu` does on a tree. -/
def Outcome (W : Wildcards) (fs : FileSystem) (t : Node) (path : Path) (depth : Nat) : Prop :=
  (PlainEntries t → Returns (mydu W fs depth path) () (usage t) ()) ∧
    (¬ PlainEntries t → Exits (mydu W fs depth path) () 1 ())

/-- Where every directory finds its own entries, `mydu` returns the usage, or exits when a
directory has no plain entry. -/
theorem mydu_spec : ∀ {path : Path}, fs.lstat path = some t → t.AllDirs (FindsOwn W fs) path →
    ∃ bound, ∀ depth, bound ≤ depth → Outcome W fs t path depth := by
  induction t with
  | file st =>
    intro path h _
    refine ⟨1, fun depth hd => ?_⟩
    obtain ⟨depth, rfl⟩ := Nat.exists_eq_add_one.mpr hd
    have husage : usage (.file st) = st.blocks := Nat.add_zero _
    refine ⟨fun _ => ?_, fun hbad => absurd trivial hbad⟩
    rw [mydu, h, husage]
    exact .pure _ _
  | dir st l child ih =>
    intro path h hfinds
    by_cases hplain : ∃ n ∈ l.names, plain n = true
    swap
    · refine ⟨1, fun depth hd => ⟨fun hgood => absurd hgood.1 hplain, fun _ => ?_⟩⟩
      obtain ⟨depth, rfl⟩ := Nat.exists_eq_add_one.mpr hd
      rw [mydu, h]
      have hfit := hfinds.1.fits
      exact Fails.bind (search_exits (by omega) (hfinds.1.home.not_searchable h hplain))
    obtain ⟨bound, hbound⟩ := exists_bound fun n hn => ih n (lstat_entry h hn) (hfinds.2 n hn)
    refine ⟨bound + 1, fun depth hd => ?_⟩
    obtain ⟨depth, rfl⟩ : ∃ k, depth = k + 1 := ⟨depth - 1, by omega⟩
    have home := hfinds.1.home
    have hperm := home.targets_perm h hplain
    have hrun := mydu_apply h hfinds.1.fits (home.searchable h hplain) depth
    constructor
    · intro hgood
      have hsum := sumLoop_entries hperm fun n hn =>
        (hbound n hn depth (by omega)).1 (hgood.2 n hn)
      unfold Returns
      rw [hrun, usage_dir, Nat.add_comm]
      exact hsum.bind (.pure _ _)
    · intro hbad
      have hexits : Exits (sumLoop (mydu W fs depth) (targets W fs path) 0) () 1 () := by
        refine sumLoop_entries_exits hperm (fun n hn => ?_) ?_
        · by_cases hn' : PlainEntries (child n)
          · exact .inl ⟨_, (hbound n hn depth (by omega)).1 hn'⟩
          · exact .inr ((hbound n hn depth (by omega)).2 hn')
        · by_contra hnone
          refine hbad ⟨hplain, fun n hn => ?_⟩
          by_contra hn'
          exact hnone ⟨n, hn, (hbound n hn depth (by omega)).2 hn'⟩
      unfold Exits Fails
      rw [hrun]
      exact Fails.bind hexits

/-! ## The usage is computed -/

/-- `mydu` returns the sum of the blocks of the files in the tree. -/
def ComputesUsage (W : Wildcards) (fs : FileSystem) (pathname : Path) (t : Node) : Prop :=
  ∃ bound, ∀ depth, bound ≤ depth → Returns (mydu W fs depth pathname) () (usage t) ()

/-- It does not when a directory has no plain entry. -/
theorem not_computesUsage (h : Addressable fs pathname t) (hbad : ¬ PlainEntries t) :
    ¬ ComputesUsage W fs pathname t := by
  rintro ⟨b, hret⟩
  obtain ⟨b', hout⟩ := mydu_spec (W := W) h.found h.allDirs
  have hexit := (hout (max b b') (by omega)).2 hbad
  exact (hret (max b b') (by omega)).not_fails hexit

/-- `mydu` computes the usage of a tree if and only if every directory in it has a plain
entry. -/
theorem computesUsage_iff (h : Addressable fs pathname t) :
    ComputesUsage W fs pathname t ↔ PlainEntries t := by
  constructor
  · intro hcomputes
    by_contra hbad
    exact not_computesUsage h hbad hcomputes
  · intro hplain
    obtain ⟨bound, hout⟩ := mydu_spec (W := W) h.found h.allDirs
    exact ⟨bound, fun depth hd => (hout depth hd).1 hplain⟩

/-- The directory `/h` with the files `a` and `.b`. -/
def homeTree : Node :=
  .dir ⟨2, 8⟩ ⟨[[97], [46, 98]], by decide, by decide⟩ fun n =>
    if n = [97] then .file ⟨3, 16⟩ else .file ⟨4, 24⟩

/-- The directory `/h` without entries. -/
def emptyTree : Node := .dir ⟨2, 8⟩ ⟨[], by decide, by decide⟩ fun _ => .file ⟨3, 0⟩

/-- Both files are counted. -/
theorem computesUsage_home :
    ComputesUsage .unbracketed (mounted homeTree) [47, 104] homeTree ∧ usage homeTree = 48 :=
  ⟨(computesUsage_iff ⟨rfl, by decide, by decide⟩).mpr (by decide), by decide⟩

/-- The usage of an empty directory, which has no hard links, is not computed. -/
theorem not_computesUsage_empty :
    Addressable (mounted emptyTree) [47, 104] emptyTree ∧
      (emptyTree.stats.map Stat.ino).Nodup ∧
      ¬ ComputesUsage .unbracketed (mounted emptyTree) [47, 104] emptyTree :=
  have h : Addressable (mounted emptyTree) [47, 104] emptyTree := ⟨rfl, by decide, by decide⟩
  ⟨h, by decide, not_computesUsage h (by decide)⟩

end CToys.Fs
