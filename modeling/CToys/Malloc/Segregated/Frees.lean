import CToys.Malloc.Frees
import CToys.Malloc.Segregated.Client

/-!
# Frees commute

Whatever the order in which clients free a set of blocks, the machine ends up with the
same blocks, and with the same free blocks in each list.  Only the order of blocks of one
size in a list depends on the order of the calls.

When all live blocks are freed, a single free block is left.
-/

namespace CToys.Malloc.Segregated

variable {A : Arena} {c d : Client A Statics} {h : Heap} {ks : List Nat}

/-- The calls that free the blocks of the calls `ks`. -/
def frees (ks : List Nat) : List Event := ks.map Event.free

/-- Clients can free any live blocks in any order. -/
theorem Sound.frees_run (hs : Sound c h) (hnd : ks.Nodup)
    (hlive : ∀ k ∈ ks, c.ledger.live k ≠ none) : ∃ d, Run Step c (frees ks) d := by
  refine exists_frees (I := fun c => ∃ h, Sound c h) ?_ ⟨h, hs⟩ hnd hlive
  rintro c k ⟨h, hs⟩ hk
  obtain ⟨g, hg⟩ := Option.ne_none_iff_exists'.mp hk
  obtain ⟨s, hal, hptr, -⟩ := hs.spot hg
  obtain ⟨σ, hret, hs', -⟩ := hs.free hg s hal hptr
  exact ⟨_, .free hg hret, ⟨_, hs'⟩, rfl⟩

/-- Freeing blocks takes them out of the heap and nothing else. -/
theorem Sound.frees (hs : Sound c h) (hne : h.blocks ≠ []) (hnd : ks.Nodup)
    (hrun : Run Step c (frees ks) d) :
    ∃ h', Sound d h' ∧ h'.blocks ≠ [] ∧ Freed A c.ledger ks h.toLayout h'.toLayout := by
  induction ks generalizing c h with
  | nil =>
    cases hrun
    exact ⟨h, hs, hne, .nil⟩
  | cons k ks ih =>
    obtain ⟨hk, hnd⟩ := List.nodup_cons.mp hnd
    cases hrun with | cons hstep hrun =>
    cases hstep with | @free _ g σ hlive hret =>
    obtain ⟨s, hal, hg, -⟩ := hs.spot hlive
    obtain ⟨σ', hret', hs', -⟩ := hs.free hlive s hal hg
    obtain ⟨-, rfl⟩ := hret'.unique hret
    obtain ⟨h', hd, hne', hfreed⟩ := ih hs' Layout.release_ne_nil hnd hrun
    exact ⟨h', hd, hne', hfreed.cons hlive hg hk⟩

/-- A single free block is the only one in the lists. -/
theorem Filed.singleton {b : Block} {bins : Nat → List Block} (hf : Filed [b] bins)
    (hb : b.alloc = false) {i : Nat} (hi : i < listMax) :
    bins i = if i = bucket b.size then [b] else [] := by
  have hmem := hf.mem i hi
  split
  · next hib =>
    refine List.perm_singleton.mp
      ((List.perm_ext_iff_of_nodup (hf.nodup i hi) (List.nodup_singleton b)).mpr fun c => ?_)
    rw [hmem, List.mem_singleton]
    constructor
    · exact And.left
    · rintro rfl
      exact ⟨rfl, hb, hib.symm⟩
  · next hib =>
    refine List.eq_nil_iff_forall_not_mem.mpr fun c hc => ?_
    obtain ⟨hcb, -, hci⟩ := (hmem c).mp hc
    rw [List.mem_singleton.mp hcb] at hci
    exact hib hci.symm

/-- Freeing live blocks works in every order, and every order leads to the same blocks and
the same members of each list.  Without live blocks a single free block is left. -/
theorem frees_commute {ks ks' : List Nat} (hc : Reachable c) (hnd : ks.Nodup)
    (hlive : ∀ k ∈ ks, c.ledger.live k ≠ none) (hperm : ks.Perm ks') :
    (∃ d, Run Step c (frees ks') d) ∧
      ∀ d d', Run Step c (frees ks) d → Run Step c (frees ks') d' →
        ∃ h h', Sound d h ∧ Sound d' h' ∧ h'.toLayout = h.toLayout ∧
          (∀ i < listMax, ∀ b, b ∈ h'.bins i ↔ b ∈ h.bins i) ∧
          ((∀ k, c.ledger.live k ≠ none → k ∈ ks) →
            h.blocks = [⟨16, h.brk - 16, false⟩] ∧
              ∀ i < listMax, h.bins i =
                if i = bucket (h.brk - 16) then [⟨16, h.brk - 16, false⟩] else []) := by
  obtain ⟨h₀, hs, hne⟩ := hc.nonempty
  have hnd' := hperm.nodup_iff.mp hnd
  refine ⟨hs.frees_run hnd' fun k hk => hlive k (hperm.mem_iff.mpr hk), fun d d' hrun hrun' => ?_⟩
  obtain ⟨h, hd, hne₁, hfreed⟩ := hs.frees hne hnd hrun
  obtain ⟨h', hd', -, hfreed'⟩ := hs.frees hne hnd' hrun'
  have heq : h'.toLayout = h.toLayout := hfreed'.unique hfreed hperm.symm
  refine ⟨h, h', hd, hd', heq, fun i hi b => ?_, fun hall => ?_⟩
  · have hblocks : h'.blocks = h.blocks := congrArg Layout.blocks heq
    rw [h.filed.mem i hi b, h'.filed.mem i hi b, hblocks]
  · have hblocks := hfreed.all hs.serves hne₁ fun k g hk => hall k (by rw [hk]; simp)
    have hfiled := h.filed
    rw [hblocks] at hfiled
    exact ⟨hblocks, fun i hi => hfiled.singleton rfl hi⟩

/-- Both blocks of a run, freed in either order. -/
theorem paired_frees_commute : ∃ d d' h h', Run Step paired (frees [0, 1]) d ∧
    Run Step paired (frees [1, 0]) d' ∧ Sound d h ∧ Sound d' h' ∧ h'.toLayout = h.toLayout ∧
      h.blocks = [⟨16, h.brk - 16, false⟩] := by
  have hlive : ∀ k ∈ [0, 1], paired.ledger.live k ≠ none := by decide
  have hall : ∀ k, paired.ledger.live k ≠ none → k ∈ [0, 1] := by
    intro k hk
    match k with
    | 0 => simp
    | 1 => simp
    | k + 2 => exact absurd (show paired.ledger.live (k + 2) = none from rfl) hk
  have hnd : [0, 1].Nodup := by decide
  have hnd' : [1, 0].Nodup := by decide
  have hperm : [0, 1].Perm [1, 0] := .swap 1 0 []
  obtain ⟨⟨d, hrun⟩, -⟩ := frees_commute paired_reachable hnd' (by decide) hperm.symm
  obtain ⟨⟨d', hrun'⟩, hcommute⟩ := frees_commute paired_reachable hnd hlive hperm
  obtain ⟨h, h', hd, hd', heq, -, hone⟩ := hcommute d d' hrun hrun'
  exact ⟨d, d', h, h', hrun, hrun', hd, hd', heq, (hone hall).1⟩

end CToys.Malloc.Segregated
