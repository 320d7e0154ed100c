import CToys.Fs.Usage
import Mathlib.Algebra.BigOperators.Group.Finset.Basic
import Mathlib.Algebra.Order.BigOperators.Group.Finset

/-!
# Hard links

Two entries with the same number are links to one file, whose blocks are on the disk once.
`mydu` remembers no numbers, so it counts the blocks of a file for each of its links, wherever
they are in the tree.

*Sums.*  The usage of a tree is a sum over its entries.  `linkUsage` takes the same sum over the
numbers, each with its links, and `distinctUsage` takes each number once.

*Agreement.*  No file has fewer than one link, so the two sums agree only if they agree for each
number, that is, if the files with several links have no blocks (`linkUsage_eq_distinct_iff`).
-/

namespace CToys.Fs

open FileSystem

/-! ## Files with several links -/

/-- The numbers of the files of a tree, one for each entry. -/
def inos (t : Node) : List Nat := t.stats.map Stat.ino

/-- How many links in the tree the file with a number has. -/
def links (t : Node) (ino : Nat) : Nat := (inos t).count ino

/-- The blocks of the file with a number. -/
def blocksOf (t : Node) (ino : Nat) : Nat :=
  ((t.stats.find? (·.ino = ino)).map Stat.blocks).getD 0

/-- The blocks of the files, each counted for all its links. -/
def linkUsage (t : Node) : Nat := ∑ ino ∈ (inos t).toFinset, links t ino * blocksOf t ino

/-- The blocks of the files, each counted once. -/
def distinctUsage (t : Node) : Nat := ∑ ino ∈ (inos t).toFinset, blocksOf t ino

/-- Entries with the same number are links to one file, so they have the same blocks. -/
def Linked (t : Node) : Prop :=
  ∀ s ∈ t.stats, ∀ s' ∈ t.stats, s.ino = s'.ino → s.blocks = s'.blocks

/-- A file with more than one link has no blocks. -/
def LinksEmpty (t : Node) : Prop := ∀ ino ∈ inos t, 1 < links t ino → blocksOf t ino = 0

instance (t : Node) : Decidable (Linked t) :=
  inferInstanceAs (Decidable (∀ s ∈ t.stats, ∀ s' ∈ t.stats, s.ino = s'.ino → _))

instance (t : Node) : Decidable (LinksEmpty t) :=
  inferInstanceAs (Decidable (∀ ino ∈ inos t, 1 < links t ino → _))

variable {W : Wildcards} {fs : FileSystem} {pathname : Path} {t : Node} {ino : Nat}

theorem links_pos (h : ino ∈ inos t) : 0 < links t ino := List.count_pos_iff.mpr h

theorem blocksOf_eq (h : Linked t) {s : Stat} (hs : s ∈ t.stats) : blocksOf t s.ino = s.blocks := by
  unfold blocksOf
  cases hfind : t.stats.find? (·.ino = s.ino) with
  | none => exact absurd hs fun hs => by simpa using List.find?_eq_none.mp hfind s hs
  | some s' =>
    have hino : s'.ino = s.ino := by simpa using List.find?_some hfind
    exact h s' (List.mem_of_find?_eq_some hfind) s hs hino

/-- The usage counts a file for each of its links. -/
theorem usage_eq_linkUsage (h : Linked t) : usage t = linkUsage t := by
  have hblocks : t.stats.map Stat.blocks = (inos t).map (blocksOf t) := by
    rw [inos, List.map_map]
    exact List.map_congr_left fun s hs => (blocksOf_eq h hs).symm
  rw [usage, hblocks, Finset.sum_list_map_count]
  exact Finset.sum_congr rfl fun ino _ => nsmul_eq_mul _ _

/-- A file counts the same once and for all its links if it has one link or no blocks. -/
theorem blocks_eq_links_mul {k b : Nat} (hk : 0 < k) : b = k * b ↔ (1 < k → b = 0) := by
  constructor
  · intro h hlt
    by_contra hb
    have hmore := Nat.mul_lt_mul_of_pos_right hlt (Nat.pos_of_ne_zero hb)
    omega
  · intro h
    by_cases hlt : 1 < k
    · rw [h hlt, Nat.mul_zero]
    · obtain rfl : k = 1 := by omega
      exact (Nat.one_mul b).symm

theorem linkUsage_eq_distinct_iff : distinctUsage t = linkUsage t ↔ LinksEmpty t := by
  have hle : ∀ ino ∈ (inos t).toFinset, blocksOf t ino ≤ links t ino * blocksOf t ino :=
    fun ino h => Nat.le_mul_of_pos_left _ (links_pos (List.mem_toFinset.mp h))
  rw [distinctUsage, linkUsage, Finset.sum_eq_sum_iff_of_le hle]
  constructor
  · intro h ino hino
    exact (blocks_eq_links_mul (links_pos hino)).mp (h ino (List.mem_toFinset.mpr hino))
  · intro h ino hmem
    have hino := List.mem_toFinset.mp hmem
    exact (blocks_eq_links_mul (links_pos hino)).mpr (h ino hino)

/-! ## The count -/

/-- `mydu` returns the blocks of the files in the tree, each counted for all its links. -/
def CountsLinks (W : Wildcards) (fs : FileSystem) (pathname : Path) (t : Node) : Prop :=
  ∃ bound, ∀ depth, bound ≤ depth → Returns (mydu W fs depth pathname) () (linkUsage t) ()

/-- `mydu` returns the blocks of the files in the tree, each counted once. -/
def CountsOnce (W : Wildcards) (fs : FileSystem) (pathname : Path) (t : Node) : Prop :=
  ∃ bound, ∀ depth, bound ≤ depth → Returns (mydu W fs depth pathname) () (distinctUsage t) ()

theorem countsLinks (h : fs.lstat pathname = some t) (hplain : PlainEntries t)
    (hlinked : Linked t) (hfinds : t.AllDirs (FindsOwn W fs) pathname) :
    CountsLinks W fs pathname t := by
  obtain ⟨b, hb⟩ := mydu_spec h hfinds
  exact ⟨b, fun depth hd => usage_eq_linkUsage hlinked ▸ (hb depth hd).1 hplain⟩

/-- It does not return two different sums. -/
theorem CountsLinks.countsOnce_iff (h : CountsLinks W fs pathname t) :
    CountsOnce W fs pathname t ↔ LinksEmpty t := by
  obtain ⟨b, hb⟩ := h
  rw [← linkUsage_eq_distinct_iff]
  constructor
  · rintro ⟨b', hb'⟩
    exact ((hb' (max b b') (by omega)).unique (hb (max b b') (by omega))).1
  · intro heq
    exact ⟨b, heq ▸ hb⟩

/-- In a tree in which every directory has a plain entry and finds its own entries, `mydu` counts
each file for all its links.  It counts each file once exactly if the files with several links
have no blocks. -/
theorem mydu_counts_links (h : fs.lstat pathname = some t) (hplain : PlainEntries t)
    (hlinked : Linked t) (hfinds : t.AllDirs (FindsOwn W fs) pathname) :
    CountsLinks W fs pathname t ∧ (CountsOnce W fs pathname t ↔ LinksEmpty t) :=
  have hcounts := countsLinks h hplain hlinked hfinds
  ⟨hcounts, hcounts.countsOnce_iff⟩

/-- The directory `/h` with `a` and `b`, two links to a file of eight blocks. -/
def twinTree : Node :=
  .dir ⟨2, 8⟩ ⟨[[97], [98]], by decide, by decide⟩ fun _ => .file ⟨3, 8⟩

theorem mydu_counts_links_twin :
    CountsLinks .unbracketed (mounted twinTree) [47, 104] twinTree ∧ linkUsage twinTree = 24 := by
  have hroot : (mounted twinTree).lstat [47, 104] = some twinTree := rfl
  exact ⟨(mydu_counts_links hroot (by decide) (by decide) (by decide)).1, by decide⟩

/-- The eight blocks are counted twice. -/
theorem not_countsOnce_twin :
    (mounted twinTree).lstat [47, 104] = some twinTree ∧ PlainEntries twinTree ∧
      Linked twinTree ∧ distinctUsage twinTree = 16 ∧
      ¬ CountsOnce .unbracketed (mounted twinTree) [47, 104] twinTree := by
  have hroot : (mounted twinTree).lstat [47, 104] = some twinTree := rfl
  refine ⟨hroot, by decide, by decide, by decide, fun honce => ?_⟩
  have hcounts : CountsLinks .unbracketed (mounted twinTree) [47, 104] twinTree :=
    countsLinks hroot (by decide) (by decide) (by decide)
  exact absurd (hcounts.countsOnce_iff.mp honce) (by decide)

end CToys.Fs
