import Littlefs.Rewrite
import Littlefs.Session
import Littlefs.Disk.Believing

/-!
# A fetch believes complete commits only

The block that a fetch chooses, and everything it reports but the erased flag,
follow from the complete commits of the chosen block.  A lookup by name compares
as many bytes as the size field of the tag says, also for the size that marks a
deletion, and then it looks past the commit; so the tags it asks about must not
have that size.
-/

namespace Littlefs.Disk

open Words

/-- `a` is newer than `b`, less than half the way round. -/
def Newer (a b : Word) : Prop := ∃ steps, 0 < steps ∧ steps < 2 ^ 31 ∧ a = b + BitVec.ofNat 32 steps

theorem lfsScmp_pos_iff {a b : Word} : 0 < lfsScmp a b ↔ Newer a b := by
  rw [lfsScmp, BitVec.toInt_eq_toNat_cond]
  constructor
  · intro hpos
    refine ⟨(a - b).toNat, ?_, ?_, ?_⟩
    · split at hpos <;> omega
    · split at hpos <;> omega
    · rw [BitVec.ofNat_toNat, BitVec.setWidth_eq, BitVec.add_comm, BitVec.sub_add_cancel]
  · rintro ⟨steps, hpos, hlt, rfl⟩
    have hdiff : b + BitVec.ofNat 32 steps - b = BitVec.ofNat 32 steps := by
      rw [BitVec.add_comm, BitVec.add_sub_cancel]
    have hsteps : (BitVec.ofNat 32 steps).toNat = steps := by
      rw [BitVec.toNat_ofNat, Nat.mod_eq_of_lt (by omega)]
    rw [hdiff, hsteps, if_pos (by omega)]
    omega

instance (a b : Word) : Decidable (Newer a b) := decidable_of_iff _ lfsScmp_pos_iff

/-- The pair with its newer block in front. -/
def Store.ordered (store : Store) (pair : WordPair) : WordPair :=
  if Newer (store.revision pair.2) (store.revision pair.1) then pair.swap else pair

/-- The newer block if it holds a complete commit, otherwise the other one. -/
def Store.chosen (store : Store) (pair : WordPair) : Option WordPair :=
  if store.log (store.ordered pair).1 ≠ [] then some (store.ordered pair)
  else if store.log (store.ordered pair).2 ≠ [] then some (store.ordered pair).swap
  else none

/-- The check of the pair in `lfs_dir_fetchmatch`. -/
def Store.InRange (store : Store) (pair : WordPair) : Prop :=
  store.Readable pair.1 ∧ store.Readable pair.2

def Fetched.forgetErased (fetched : Fetched) : Fetched :=
  { fetched with dir := { fetched.dir with erased := false } }

/-- The report of a fetch, `erased` aside. -/
def Store.report (store : Store) (published : LfsMdir × Word × Word) : Fetched :=
  let besttag := store.syntheticMove published.1.pair published.2.1
  { dir := { published.1 with erased := false }
    id := min (tagOf besttag).id published.1.count
    result :=
      if isvalid besttag then .found besttag
      else if (tagOf besttag).id < published.1.count then .noEntry
      else .next
    seed := published.2.2 }

/-- A fetch of `pair` goes by the complete commits: it fails when neither block holds
one, and else it takes the chosen block and reports the same, `erased` aside, for
all bytes with the same complete commits there. -/
def BelievesComplete (store : Store) (lookup : Lookup) (pair : WordPair) : Prop :=
  (store.fetchmatch lookup.query pair = none ↔ store.log pair.1 = [] ∧ store.log pair.2 = []) ∧
  ∀ front, store.chosen pair = some front →
    (∃ fetched, store.fetchmatch lookup.query pair = some fetched ∧ fetched.dir.pair = front) ∧
    ∀ bytes : Word → ℕ → Octet,
      (∀ address < extent (store.log front.1), store.bytes front.1 address =
          bytes front.1 address) →
      nextCommit store.cfg.blockSize (bytes front.1) (endOf (store.log front.1)) = none →
      (∀ block ≠ front.1, bytes block = store.bytes block) ∨
        Store.chosen { store with bytes := bytes } pair = some front →
      (Store.fetchmatch { store with bytes := bytes } lookup.query pair).map Fetched.forgetErased =
        (store.fetchmatch lookup.query pair).map Fetched.forgetErased

variable {store : Store} {lookup : Lookup} {query : Query} {pair front : WordPair} {pass : Pass}
  {block : Word} {maybeerased : Bool}

/-! ## What the commits say -/

theorem foldl_commit_temp (order : ByteOrder) (commits : List LogCommit) (belief : Belief) :
    (commits.foldl (Belief.commit order lookup) belief).temp =
      (commits.flatMap LogCommit.entries).foldl (Temp.entry order lookup) belief.temp := by
  induction commits generalizing belief with
  | nil => rfl
  | cons commit rest ih =>
      rw [List.foldl_cons, ih, List.flatMap_cons, List.foldl_append]
      rfl

theorem foldl_commit_pair (order : ByteOrder) (commits : List LogCommit) (belief : Belief) :
    (commits.foldl (Belief.commit order lookup) belief).dir.pair = belief.dir.pair := by
  induction commits generalizing belief with
  | nil => rfl
  | cons commit rest ih => exact ih _

theorem believed_pair : (store.believed lookup pair).dir.pair = pair :=
  foldl_commit_pair store.order _ _

/-- The place behind the last commit is where the next one goes. -/
theorem foldl_commit_off (order : ByteOrder) {commits : List LogCommit} (belief : Belief)
    (place : Place) (hne : commits ≠ []) :
    (commits.foldl (Belief.commit order lookup) belief).dir.off = (endFrom place commits).off ∧
      (commits.foldl (Belief.commit order lookup) belief).dir.etag =
        (endFrom place commits).ptag := by
  obtain ⟨front, last, rfl⟩ : ∃ front last, commits = front ++ [last] :=
    ⟨commits.dropLast, commits.getLast hne, (List.dropLast_append_getLast hne).symm⟩
  simp only [endFrom, List.foldl_append, List.foldl_cons, List.foldl_nil]
  exact ⟨rfl, rfl⟩

theorem believed_off_ne_zero_iff : (store.believed lookup pair).dir.off ≠ 0 ↔
    store.log pair.1 ≠ [] := by
  constructor
  · intro hoff hnil
    apply hoff
    rw [Store.believed, hnil]
    rfl
  · intro hne
    have hchain : Chain store.cfg.blockSize (store.bytes pair.1) Place.first
        (store.log pair.1) := chain_completeCommits
    have hlength := hchain.length_le
    have hfirst : Place.first.off = 4 := rfl
    rw [Store.believed, (foldl_commit_off store.order (store.blank pair) Place.first hne).1]
    omega

/-! ## The fetch -/

theorem Store.forgetErased_conclude :
    (store.conclude pass maybeerased).forgetErased = store.report pass.belief.published := rfl

theorem Store.scanFront_off (pair : WordPair) (hblock : store.Readable pair.1)
    (hsize : 4 ≤ store.cfg.blockSize)
    (hclean : lookup.Clean ((store.log pair.1).flatMap LogCommit.entries)) :
    (store.scanFront lookup.query pair).1.dir.off ≠ 0 ↔ store.log pair.1 ≠ [] := by
  have hpublished := Store.scanFront_published pair hblock hsize hclean
  have hdir : (store.scanFront lookup.query pair).1.dir = (store.believed lookup pair).dir :=
    congrArg Prod.fst hpublished
  rw [hdir]
  exact believed_off_ne_zero_iff

theorem Store.InRange.not_outside (hrange : store.InRange pair) :
    ¬(store.blockCount ≠ 0 ∧
      (store.blockCount ≤ pair.1.toNat ∨ store.blockCount ≤ pair.2.toNat)) := by
  unfold Store.InRange Store.Readable at hrange
  omega

/-- The comparison of the revisions puts the newer block in front. -/
theorem Store.newer_ordered (hrange : store.InRange pair) (hsize : 4 ≤ store.cfg.blockSize) :
    (if ((store.read pair.2 0 4).isSome &&
      decide (0 < lfsScmp (store.revision pair.2) (store.revision pair.1))) = true
        then pair.swap else pair) = store.ordered pair := by
  have hread : (store.read pair.2 0 4).isSome = true := by
    rw [Store.read_eq hrange.2 (by omega)]
    rfl
  rw [hread, Bool.true_and, Store.ordered]
  simp only [decide_eq_true_eq, lfsScmp_pos_iff]

theorem Store.fetchmatch_ordered (hrange : store.InRange pair) (hsize : 4 ≤ store.cfg.blockSize) :
    store.fetchmatch query pair =
      let first := store.scanFront query (store.ordered pair)
      let second := store.scanFront query (store.ordered pair).swap
      if first.1.dir.off ≠ 0 then some (store.conclude first.1 first.2)
      else if second.1.dir.off ≠ 0 then some (store.conclude second.1 second.2)
      else none := by
  rw [Store.fetchmatch, if_neg hrange.not_outside]
  simp only [Store.newer_ordered hrange hsize]
  rfl

theorem Store.inRange_of_fetch {query : Query} {fetched : Fetched}
    (hfetch : store.fetchmatch query pair = some fetched) : store.InRange pair := by
  rw [Store.fetchmatch] at hfetch
  split at hfetch
  · cases hfetch
  · rename_i hrange
    unfold Store.InRange Store.Readable
    omega

theorem Store.ordered_cases (store : Store) (pair : WordPair) :
    store.ordered pair = pair ∨ store.ordered pair = pair.swap := by
  unfold Store.ordered
  split
  · exact Or.inr rfl
  · exact Or.inl rfl

theorem Store.InRange.ordered (hrange : store.InRange pair) :
    store.InRange (store.ordered pair) := by
  obtain hsame | hswap := store.ordered_cases pair
  · rw [hsame]
    exact hrange
  · rw [hswap]
    exact ⟨hrange.2, hrange.1⟩

theorem Store.chosen_eq_none_iff :
    store.chosen pair = none ↔ store.log pair.1 = [] ∧ store.log pair.2 = [] := by
  have hordered : store.chosen pair = none ↔
      store.log (store.ordered pair).1 = [] ∧ store.log (store.ordered pair).2 = [] := by
    unfold Store.chosen
    by_cases hfirst : store.log (store.ordered pair).1 = [] <;>
      by_cases hsecond : store.log (store.ordered pair).2 = [] <;> simp [hfirst, hsecond]
  rw [hordered]
  obtain hsame | hswap := store.ordered_cases pair
  · rw [hsame]
  · rw [hswap]
    exact And.comm

theorem Lookup.clean_of_nil {block : Word} (hnil : store.log block = []) :
    lookup.Clean ((store.log block).flatMap LogCommit.entries) := by
  rw [hnil]
  exact fun entry hmem => absurd hmem List.not_mem_nil

/-- A fetch takes the chosen block. -/
theorem Store.fetchmatch_cases (hsize : 4 ≤ store.cfg.blockSize) (hrange : store.InRange pair)
    (hclean : ∀ front, store.chosen pair = some front →
      lookup.Clean ((store.log front.1).flatMap LogCommit.entries)) :
    store.fetchmatch lookup.query pair = none ∧ store.chosen pair = none ∨
      ∃ front, store.chosen pair = some front ∧ store.InRange front ∧
        store.fetchmatch lookup.query pair =
          some (store.conclude (store.scanFront lookup.query front).1
            (store.scanFront lookup.query front).2) := by
  have hordered := hrange.ordered
  rw [Store.fetchmatch_ordered hrange hsize]
  by_cases hfirst : store.log (store.ordered pair).1 = []
  · have hoff : ¬(store.scanFront lookup.query (store.ordered pair)).1.dir.off ≠ 0 := by
      rw [Store.scanFront_off _ hordered.1 hsize (Lookup.clean_of_nil hfirst)]
      exact not_not_intro hfirst
    by_cases hsecond : store.log (store.ordered pair).2 = []
    · have hoff' : ¬(store.scanFront lookup.query (store.ordered pair).swap).1.dir.off ≠ 0 := by
        rw [Store.scanFront_off _ hordered.2 hsize (Lookup.clean_of_nil hsecond)]
        exact not_not_intro hsecond
      refine Or.inl ⟨?_, ?_⟩
      · simp only [if_neg hoff, if_neg hoff']
      · simp only [Store.chosen, hfirst, hsecond, ne_eq, not_true_eq_false, if_false]
    · have hchosen : store.chosen pair = some (store.ordered pair).swap := by
        simp only [Store.chosen, hfirst, hsecond, ne_eq, not_true_eq_false, if_false,
          not_false_eq_true, if_true]
      have hoff' := (Store.scanFront_off _ hordered.2 hsize (hclean _ hchosen)).mpr hsecond
      refine Or.inr ⟨(store.ordered pair).swap, hchosen, ⟨hordered.2, hordered.1⟩, ?_⟩
      simp only [if_neg hoff, if_pos hoff']
  · have hchosen : store.chosen pair = some (store.ordered pair) := if_pos hfirst
    have hoff := (Store.scanFront_off _ hordered.1 hsize (hclean _ hchosen)).mpr hfirst
    refine Or.inr ⟨store.ordered pair, hchosen, hordered, ?_⟩
    simp only [if_pos hoff]

/-- A fetch reports what the complete commits of the chosen block say. -/
theorem Store.fetchmatch_eq (hsize : 4 ≤ store.cfg.blockSize) (hrange : store.InRange pair)
    (hclean : ∀ front, store.chosen pair = some front →
      lookup.Clean ((store.log front.1).flatMap LogCommit.entries)) :
    (store.fetchmatch lookup.query pair).map Fetched.forgetErased =
      (store.chosen pair).map fun front => store.report
          (store.believed lookup front).published := by
  obtain ⟨hfetch, hchosen⟩ | ⟨front, hchosen, hrange', hfetch⟩ :=
    Store.fetchmatch_cases hsize hrange hclean
  · rw [hfetch, hchosen, Option.map_none, Option.map_none]
  · rw [hfetch, hchosen, Option.map_some, Option.map_some, Store.forgetErased_conclude,
      Store.scanFront_published front hrange'.1 hsize (hclean front hchosen)]

/-! ## Other bytes behind the complete commits -/

theorem Chain.four_le_extent {size : ℕ} {bytes : ℕ → Octet} {commits : List LogCommit}
    (hchain : Chain size bytes Place.first commits) : 4 ≤ extent commits :=
  hchain.le_extent (by decide)

theorem Store.four_le_extent : 4 ≤ extent (store.log block) :=
  Chain.four_le_extent chain_completeCommits

section

variable {bytes : Word → ℕ → Octet}

theorem Store.revision_congr (hsize : 4 ≤ store.cfg.blockSize) (hblock : store.Readable block)
    (hsame : ∀ address < 4, store.bytes block address = bytes block address) :
    Store.revision { store with bytes := bytes } block = store.revision block := by
  have hread : Images.read (bytes block) 0 4 = Images.read (store.bytes block) 0 4 :=
    Images.read_congr fun address _ hlt => (hsame address (by omega)).symm
  have hleft : Store.read { store with bytes := bytes } block 0 4 =
      some (Images.read (bytes block) 0 4) := Store.read_eq hblock (Nat.le_trans (by omega) hsize)
  have hright : store.read block 0 4 = some (Images.read (store.bytes block) 0 4) :=
    Store.read_eq hblock (Nat.le_trans (by omega) hsize)
  rw [Store.revision, Store.revision, hleft, hright, hread]

theorem Store.log_congr (hsize : 4 ≤ store.cfg.blockSize)
    (hsame : ∀ address < extent (store.log block), store.bytes block address = bytes block address)
    (hstop : nextCommit store.cfg.blockSize (bytes block) (endOf (store.log block)) = none) :
    Store.log { store with bytes := bytes } block = store.log block :=
  completeCommits_congr hsize hsame hstop

/-- The choice goes by the revisions and the complete commits. -/
theorem Store.chosen_congr
    (hrevision : ∀ block, block = pair.1 ∨ block = pair.2 →
      Store.revision { store with bytes := bytes } block = store.revision block)
    (hlog : ∀ block, Store.log { store with bytes := bytes } block = store.log block) :
    Store.chosen { store with bytes := bytes } pair = store.chosen pair := by
  have hordered : Store.ordered { store with bytes := bytes } pair = store.ordered pair := by
    rw [Store.ordered, Store.ordered, hrevision pair.1 (Or.inl rfl),
      hrevision pair.2 (Or.inr rfl)]
  simp only [Store.chosen, hordered, hlog]

end

theorem Store.chosen_cases (hchosen : store.chosen pair = some front) :
    front = pair ∨ front = pair.swap := by
  have hfront : front = store.ordered pair ∨ front = (store.ordered pair).swap := by
    unfold Store.chosen at hchosen
    split at hchosen
    · exact Or.inl (Option.some.inj hchosen).symm
    · split at hchosen
      · exact Or.inr (Option.some.inj hchosen).symm
      · cases hchosen
  obtain hsame | hswap := store.ordered_cases pair
  · rwa [hsame] at hfront
  · rw [hswap, Prod.swap_swap] at hfront
    exact hfront.symm

/-- A fetch believes complete commits only, when no tag it asks about has the size
that marks a deletion. -/
theorem fetchmatch_believesComplete (hcfg : ConfigWf store.cfg) (hrange : store.InRange pair)
    (hclean : ∀ front, store.chosen pair = some front →
      lookup.Clean ((store.log front.1).flatMap LogCommit.entries)) :
    BelievesComplete store lookup pair := by
  have hsize : 4 ≤ store.cfg.blockSize := Nat.le_trans (by norm_num) hcfg.block_le
  have hfetch := Store.fetchmatch_eq hsize hrange hclean
  constructor
  · rw [← Store.chosen_eq_none_iff, ← Option.map_eq_none_iff, hfetch, Option.map_eq_none_iff]
  · intro front hchosen
    have hinrange : store.InRange front := by
      obtain rfl | rfl := Store.chosen_cases hchosen
      · exact hrange
      · exact ⟨hrange.2, hrange.1⟩
    constructor
    · rw [hchosen, Option.map_some, Option.map_eq_some_iff] at hfetch
      obtain ⟨fetched, hsome, hreport⟩ := hfetch
      refine ⟨fetched, hsome, ?_⟩
      calc fetched.dir.pair = fetched.forgetErased.dir.pair := rfl
        _ = (store.believed lookup front).dir.pair := by rw [hreport]; rfl
        _ = front := believed_pair
    · intro bytes hsame hstop hother
      have hlog := Store.log_congr hsize hsame hstop
      have hextent : 4 ≤ extent (store.log front.1) := Store.four_le_extent
      have hrevision : Store.revision { store with bytes := bytes } front.1 =
          store.revision front.1 :=
        Store.revision_congr hsize hinrange.1 fun address hlt => hsame address (by omega)
      have hchosen' : Store.chosen { store with bytes := bytes } pair = some front := by
        obtain honly | hchosen' := hother
        · rw [← hchosen]
          apply Store.chosen_congr
          · intro block hmem
            by_cases hfront : block = front.1
            · rw [hfront, hrevision]
            · rw [Store.revision, Store.revision, Store.read, Store.read]
              simp only [honly block hfront]
          · intro block
            by_cases hfront : block = front.1
            · rw [hfront, hlog]
            · rw [Store.log, Store.log]
              simp only [honly block hfront]
        · exact hchosen'
      have hclean' : ∀ front', Store.chosen { store with bytes := bytes } pair = some front' →
          lookup.Clean ((Store.log { store with bytes := bytes } front'.1).flatMap
            LogCommit.entries) := by
        intro front' hfront'
        obtain rfl : front = front' := Option.some.inj (hchosen'.symm.trans hfront')
        rw [hlog]
        exact hclean front hchosen
      have hfetch' :
          (Store.fetchmatch { store with bytes := bytes } lookup.query pair).map
              Fetched.forgetErased =
            (Store.chosen { store with bytes := bytes } pair).map fun front =>
              Store.report { store with bytes := bytes }
                (Store.believed { store with bytes := bytes } lookup front).published :=
        Store.fetchmatch_eq hsize hrange hclean'
      have hbelieved : Store.believed { store with bytes := bytes } lookup front =
          store.believed lookup front := by
        rw [Store.believed, Store.believed, hlog, Store.blank, Store.blank, hrevision]
      rw [hfetch', hfetch, hchosen', hchosen, Option.map_some, Option.map_some, hbelieved]
      rfl

/-- A little-endian host, and two blocks of 128 bytes: the first begins with `image`,
the second is erased. -/
def blockStore (image : List Octet) : Store where
  cfg := smallConfig
  order := .little
  blockCount := 2
  bytes := fun block address => if block = 0 then image.getD address 0xff else 0xff

theorem smallConfig_wf : ConfigWf smallConfig := by
  apply ConfigWf.mk <;> decide

theorem blockStore_inRange (image : List Octet) : (blockStore image).InRange (0, 1) := by
  have hfirst : (0 : Word).toNat < 2 := by decide
  have hsecond : (1 : Word).toNat < 2 := by decide
  exact ⟨Or.inr hfirst, Or.inr hsecond⟩

/-- Revision 1 and one commit: the creation of an empty file `a`. -/
def fileImage : List Octet :=
  [0x01, 0x00, 0x00, 0x00, 0xbf, 0xef, 0xff, 0xff, 0x40, 0x00, 0x00, 0x01, 0x61, 0x20, 0x00, 0x00,
    0x01, 0x70, 0x1f, 0xfc, 0x04, 0x2f, 0xe6, 0x30, 0xb2]

theorem fileImage_believesComplete :
    (blockStore fileImage).chosen (0, 1) = some (0, 1) ∧
      BelievesComplete (blockStore fileImage) (Lookup.find [0x61]) (0, 1) := by
  have hchosen : (blockStore fileImage).chosen (0, 1) = some (0, 1) := by decide +kernel
  refine ⟨hchosen, fetchmatch_believesComplete smallConfig_wf (blockStore_inRange fileImage) ?_⟩
  intro front hfront
  obtain rfl : (0, 1) = front := Option.some.inj (hchosen.symm.trans hfront)
  decide +kernel

/-- Revision 1 and one commit: a name tag of the size that marks a deletion. -/
def deletedNameImage : List Octet :=
  [0x01, 0x00, 0x00, 0x00, 0xff, 0xef, 0xfc, 0x00, 0x50, 0x1f, 0xff, 0xfb, 0x8c, 0x41, 0x40, 0xcb]

/-- The CRC tag of that commit, its checksum, and one byte more. -/
def longName : List Octet := [0x50, 0x1f, 0xff, 0xfb, 0x8c, 0x41, 0x40, 0xcb, 0xfe]

/-- The lookup of the long name compares its last byte with the first byte behind
the commit. -/
theorem deletedName_not_believesComplete :
    ¬BelievesComplete (blockStore deletedNameImage) (Lookup.find longName) (0, 1) := by
  intro hbelieves
  have hchosen : (blockStore deletedNameImage).chosen (0, 1) = some (0, 1) := by decide +kernel
  obtain ⟨-, hsame⟩ := hbelieves.2 (0, 1) hchosen
  have hextent : extent ((blockStore deletedNameImage).log 0) = 16 := by decide +kernel
  have hreport := hsame (blockStore (deletedNameImage ++ [0xfd])).bytes
    (by
      intro address hlt
      rw [hextent] at hlt
      interval_cases address <;> rfl)
    (by decide +kernel)
    (Or.inl (by
      intro block hblock
      funext address
      simp only [blockStore, if_neg hblock]))
  exact absurd hreport (by decide +kernel)

end Littlefs.Disk
