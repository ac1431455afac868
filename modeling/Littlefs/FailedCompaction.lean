import Littlefs.Conserved

/-!
# A compaction that fails

A split writes a complete new tail before the directory that names it.  If the
directory is not written after that, the list is the old one, but the global
state counts as written with the tail.
-/

namespace Littlefs

open Program

/-- An `Err` of `lfs_dir_splittingcompact` leaves the content of the pair, the root,
the tail list and the state on disk as they were. -/
def FailsSafely (lfs : Lfs) (dir : Mdir) (attrs : List Mattr) (first last : ℕ) : Prop :=
  ∀ e lfs', lfsDirSplittingcompact dir attrs first last lfs = .error (.error e) lfs' →
    (∀ view, viewAt lfs.disk dir.pair = some view → view.pair = dir.pair →
      viewAt lfs'.disk dir.pair = some view ∧ mdirLog lfs'.disk view = mdirLog lfs.disk view) ∧
    lfs'.root = lfs.root ∧
    ∀ dirs, Chain lfs.disk dirs → (shares lfs dirs).Same (lfs.gdisk.xor lfs.gdelta) →
      Chain lfs'.disk dirs ∧ (shares lfs' dirs).Same (lfs'.gdisk.xor lfs'.gdelta)

section

variable {used : List Block} {own : Option Block} {base lfs : Lfs}

theorem Spared.intact (hspared : Spared used own base lfs) : Intact used own base lfs := by
  intro block hused
  by_cases hsame : lfs.disk block = base.disk block
  · rw [hsame]
    exact Or.inl (.refl _)
  · apply (hspared.changed block hsame).elim
    · exact fun hown => Or.inr ⟨hown, (hspared.torn block hown).resolve_left hsame⟩
    · exact fun h => absurd hused h.1

theorem Spared.same (hspared : Spared used own base lfs) {block : Block}
    (hheld : Held used base block) (hown : own ≠ some block) :
    lfs.disk block = base.disk block := by
  by_contra hne
  apply (hspared.changed block hne).elim hown
  exact fun h => hheld.elim (fun hused => h.1 hused) fun hspent => hspent h.2

end

/-- Four files behind the superblock and one in a directory, when that file is about
to be moved behind the others and the sixth access to the device fails. -/
def movingIn : Lfs :=
  { mountedAfter smallConfig (.mkdir [100] :: writeFile [100, 47, 120] (List.replicate 16 1) [] ++
      [97, 98, 99, 101].flatMap fun name => writeFile [name] [1, 2, 3, 4] []) with
    gstate := Gstate.setMove {} 0 (2, 3)
    script := List.replicate 5 .ok ++ [.failed] }

/-- The last pair of the root. -/
def movingDir : Mdir := mdirOf movingIn.disk (6, 7)

/-- What `lfs_rename_` commits first. -/
def movingAttrs : List Mattr :=
  [⟨⟨tyCreate, 3, 0⟩, .data .empty⟩, ⟨⟨tyReg, 3, 2⟩, .data (.bytes [121, 122])⟩,
    ⟨⟨fromMove, 3, 0⟩, .mdir (mdirOf movingIn.disk (2, 3))⟩]

/-- The list and the state on disk agree. -/
def listAgrees (lfs : Lfs) : Option Bool :=
  (listedState lfs).map fun states => states.1 == states.2

theorem exists_chain_of_listAgrees {lfs : Lfs} {agrees : Bool}
    (hlisted : listAgrees lfs = some agrees) : ∃ dirs, Chain lfs.disk dirs ∧
      (agrees = true ↔ (shares lfs dirs).Same (lfs.gdisk.xor lfs.gdelta)) := by
  obtain ⟨states, hstates, heq⟩ := Option.map_eq_some_iff.mp hlisted
  obtain ⟨dirs, hlist, hpair⟩ := Option.map_eq_some_iff.mp hstates
  refine ⟨dirs, chain_of_listFrom hlist, ?_⟩
  rw [← heq, ← hpair, beq_iff_eq]
  rfl

theorem not_failsSafely {lfs : Lfs} {dir : Mdir} {attrs : List Mattr} {first last : ℕ}
    (hbefore : listAgrees lfs = some true)
    (hafter : (match lfsDirSplittingcompact dir attrs first last lfs with
      | .error (.error _) lfs' => listAgrees lfs'
      | _ => none) = some false) : ¬FailsSafely lfs dir attrs first last := by
  intro hfails
  split at hafter
  · rename_i e lfs' hrun
    obtain ⟨dirs, hchain, hagrees⟩ := exists_chain_of_listAgrees hbefore
    obtain ⟨dirs', hchain', hagrees'⟩ := exists_chain_of_listAgrees hafter
    obtain ⟨hkept, hsum⟩ := (hfails e lfs' hrun).2.2 dirs hchain (hagrees.mp rfl)
    cases hchain'.unique hkept
    cases hagrees'.mpr hsum
  · cases hafter

end Littlefs
