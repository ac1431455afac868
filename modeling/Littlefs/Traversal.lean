import Littlefs.CtzTraverse
import Littlefs.TailCycles
import Littlefs.InUse

/-!
# What a traversal reports

`lfs_fs_traverse_` is how the allocator learns which blocks are in use.  Every pair on
the tail list, every directory and every block of a file has its turn, and so have the
blocks of open files that are not committed yet.  A pending move gets in the way: the
lookups pass over the entry it takes, and over the one behind that.
-/

namespace Littlefs

open Program

/-! ## The traversal with the caches of the open files -/

section

variable {α : Type} (cb : α → Block → FsM α) (bdReads : Handle → BdRead FsM)

/-- The blocks of an open file that its struct on disk does not name. -/
def traverseFileThrough (acc : α) (file : Handle) : FsM α := do
  if file.type ≠ .reg then
    return acc
  let acc ←
    if file.flags.dirty ∧ ¬file.flags.inline then
      ctzTraverse cb (bdReads file) file.ctz.head file.ctz.size acc
    else pure acc
  if file.flags.writing ∧ ¬file.flags.inline then
    ctzTraverse cb (bdReads file) file.block file.pos acc
  else
    return acc

def traverseThrough (includeorphans : Bool) (acc : α) : FsM α := do
  let lfs ← get
  let acc ← traverseTails cb includeorphans (tailFuel lfs) (0, 1) {} acc
  lfs.mlist.foldlM (traverseFileThrough cb bdReads) acc

/-- `lfs_fs_traverse_`. -/
def fsTraverse (caches : Handle → Option LfsCache) (includeorphans : Bool) (acc : α) : FsM α :=
  traverseThrough cb (fun file => lfsBdRead (caches file)) includeorphans acc

/-- Where nothing is left in the caches of the files. -/
theorem lfsFsTraverse_eq (includeorphans : Bool) (acc : α) :
    lfsFsTraverse cb includeorphans acc =
      traverseThrough cb (fun _ => readBytes) includeorphans acc := by
  have hfile : traverseFile cb = traverseFileThrough cb fun _ => readBytes := by
    funext acc file
    simp only [traverseFile, traverseFileThrough, lfsCtzTraverse_eq]
  rw [lfsFsTraverse, traverseThrough, hfile]

end

/-! ## The blocks in use -/

/-- The pairs from `tail` on, with what a fetch of each gives. -/
def TailList (lfs : Lfs) : Pair → List (Pair × Mdir) → Prop
  | tail, [] => lfsPairIsnull tail = true
  | tail, (pair, dir) :: rest =>
      lfsPairIsnull tail = false ∧ pair = tail ∧ outOfRange lfs.blockCount tail = false ∧
        (locate lfs.disk tail).map (mdirOf lfs.disk) = some dir ∧ TailList lfs dir.tail rest

/-- The struct that entry `id` of `dir` has on disk. -/
def entryStruct (lfs : Lfs) (dir : Mdir) (id : ℕ) : Option Attr :=
  getsliceGo ⟨0x700, true⟩ ⟨tyStruct, id, 8⟩ (readableLog lfs dir).reverse 0

/-- The blocks that a struct names. -/
def structBlocks (lfs : Lfs) (attr : Attr) : List Block :=
  if attr.1.type3 = tyCtzstruct then
    ctzBlocks (lfs.bytesThrough none) lfs.cfg.blockSize attr.2.toPair.1 attr.2.toPair.2
  else if attr.1.type3 = tyDirstruct then
    [attr.2.toPair.1, attr.2.toPair.2]
  else
    []

/-- The blocks of entry `id` of `dir`. -/
def entryBlocks (lfs : Lfs) (dir : Mdir) (id : ℕ) : List Block :=
  (entryStruct lfs dir id).elim [] (structBlocks lfs)

/-- The entry that a pending move has taken from `dir`. -/
def movedId (lfs : Lfs) (dir : Mdir) : Option ℕ :=
  if lfs.gdisk.hasmovehere dir.pair then some lfs.gdisk.id else none

/-- The blocks of the entries of `dir`, without the one that has moved away. -/
def committedBlocks (lfs : Lfs) (dir : Mdir) : List Block :=
  ((List.range dir.count).filter fun id => movedId lfs dir ≠ some id).flatMap (entryBlocks lfs dir)

/-- The blocks of the list that an open file has not committed. -/
def pendingBlocks (lfs : Lfs) (caches : Handle → Option LfsCache) (file : Handle) : List Block :=
  if file.type ≠ .reg then []
  else
    (if file.flags.dirty ∧ ¬file.flags.inline then
      ctzBlocks (lfs.bytesThrough (caches file)) lfs.cfg.blockSize file.ctz.head file.ctz.size
    else []) ++
    if file.flags.writing ∧ ¬file.flags.inline then
      ctzBlocks (lfs.bytesThrough (caches file)) lfs.cfg.blockSize file.block file.pos
    else []

/-- The blocks in use, once for each pair, entry and open file they belong to. -/
def blocksInUse (lfs : Lfs) (caches : Handle → Option LfsCache) (tails : List (Pair × Mdir)) :
    List Block :=
  (tails.flatMap fun entry => [entry.1.1, entry.1.2] ++ committedBlocks lfs entry.2) ++
    lfs.mlist.flatMap (pendingBlocks lfs caches)

/-- A filesystem whose lists are well formed: the list of pairs, the list of each file on disk,
and the lists of open files as their caches have them. -/
structure Traversable (lfs : Lfs) (caches : Handle → Option LfsCache)
    (tails : List (Pair × Mdir)) : Prop where
  blockCount_pos : 0 < lfs.blockCount
  blockCount_lt : lfs.blockCount < 2 ^ 32
  blockSize_ge : 128 ≤ lfs.cfg.blockSize
  list : TailList lfs (0, 1) tails
  differ : PairsDiffer lfs.disk lfs.blockCount
  id_lt : ∀ entry ∈ tails, ∀ id attr, entryStruct lfs entry.2 id = some attr → id < entry.2.count
  file : ∀ entry ∈ tails, ∀ id attr, entryStruct lfs entry.2 id = some attr →
    attr.1.type3 = tyCtzstruct → lfs.CtzIntact none attr.2.toPair.1 attr.2.toPair.2
  dirty : ∀ file ∈ lfs.mlist, file.type = .reg → file.flags.inline = false →
    file.flags.dirty = true → lfs.CtzIntact (caches file) file.ctz.head file.ctz.size
  writing : ∀ file ∈ lfs.mlist, file.type = .reg → file.flags.inline = false →
    file.flags.writing = true → lfs.CtzIntact (caches file) file.block file.pos

/-- The entry behind the one that a pending move takes from `dir` has blocks. -/
def HidesEntry (lfs : Lfs) (dir : Mdir) : Prop :=
  lfs.gdisk.hasmovehere dir.pair = true ∧ entryBlocks lfs dir (lfs.gdisk.id + 1) ≠ []

/-- Whatever the callback is and whatever the device answers, a traversal reports the blocks in
use. -/
def ReportsInUse (lfs : Lfs) (caches : Handle → Option LfsCache) (tails : List (Pair × Mdir)) :
    Prop :=
  ∀ (α : Type) (step : α → Block → Except Error α) (script : List Event),
    Calls step { lfs with script := script } (fsTraverse (callback step) caches true)
      (blocksInUse lfs caches tails)

/-! ## Lookups during a pending move -/

variable {lfs : Lfs} {dir : Mdir} {caches : Handle → Option LfsCache} {tails : List (Pair × Mdir)}

/-- The blocks that the traversal finds for the entries of `dir`. -/
def visitedBlocks (lfs : Lfs) (dir : Mdir) : List Block :=
  (List.range dir.count).flatMap fun id =>
    (lookupAttr lfs dir ⟨0x700, true⟩ ⟨tyStruct, id, 8⟩).elim [] (structBlocks lfs)

/-- A lookup whose ids are shifted by one finds what is one place further. -/
theorem getsliceGo_shift (gmask type id size : ℕ) (newest : List Attr) (gdiff : ℤ) :
    (getsliceGo ⟨gmask, true⟩ ⟨type, id, size⟩ newest (gdiff - 1)).map
        (fun attr => (attr.1.type, attr.2)) =
      (getsliceGo ⟨gmask, true⟩ ⟨type, id + 1, size⟩ newest gdiff).map
        fun attr => (attr.1.type, attr.2) := by
  induction newest generalizing gdiff with
  | nil => rfl
  | cons attr older ih =>
      obtain ⟨tag, data⟩ := attr
      have hids : ∀ gdiff : ℤ, ((id : ℤ) - (gdiff - 1)) = (((id + 1 : ℕ) : ℤ) - gdiff) := by
        intro gdiff
        push_cast
        ring
      rw [getsliceGo, getsliceGo]
      dsimp only
      rw [hids gdiff]
      generalize (true && tag.type1 == tySplice &&
        decide ((tag.id : ℤ) ≤ ((id + 1 : ℕ) : ℤ) - gdiff)) = passed
      have hnext : (if passed = true then gdiff - 1 + tag.splice else gdiff - 1) =
          (if passed = true then gdiff + tag.splice else gdiff) - 1 := by
        split <;> ring
      rw [hnext, hids]
      generalize (if passed = true then gdiff + tag.splice else gdiff) = next
      by_cases hcreate : (passed && tag.type == tyCreate &&
          (tag.id : ℤ) == ((id + 1 : ℕ) : ℤ) - gdiff && tag.size == 0) = true
      · rw [if_pos hcreate, if_pos hcreate]
      · rw [if_neg hcreate, if_neg hcreate]
        by_cases hmatch : tag.type &&& gmask = type &&& gmask ∧
            (true = true → (tag.id : ℤ) = ((id + 1 : ℕ) : ℤ) - next)
        · rw [if_pos hmatch, if_pos hmatch]
          cases tag.isdelete with
          | true => rfl
          | false =>
              have hid := hmatch.2 rfl
              simp only [Bool.false_eq_true, if_false, Option.map_some]
              rw [Tag.shift_of_nonneg (by omega), Tag.shift_of_nonneg (by omega)]
        · rw [if_neg hmatch, if_neg hmatch]
          exact ih next
/-- Only the type and the data of a struct tell its blocks. -/
theorem structBlocks_congr {found found' : Option Attr}
    (hsame : found.map (fun attr => (attr.1.type, attr.2)) =
      found'.map fun attr => (attr.1.type, attr.2)) :
    found.elim [] (structBlocks lfs) = found'.elim [] (structBlocks lfs) := by
  cases found with
  | none =>
      cases found' with
      | none => rfl
      | some attr' => cases hsame
  | some attr =>
      cases found' with
      | none => cases hsame
      | some attr' =>
          obtain ⟨htype, hdata⟩ := Prod.mk.inj (Option.some.inj hsame)
          rw [Option.elim_some, Option.elim_some, structBlocks, structBlocks,
            show attr.1.type3 = attr'.1.type3 from htype, hdata]

/-- What the lookup of entry `id` leads to. -/
theorem lookup_blocks (lfs : Lfs) (dir : Mdir) (id : ℕ) :
    (lookupAttr lfs dir ⟨0x700, true⟩ ⟨tyStruct, id, 8⟩).elim [] (structBlocks lfs) =
      if lfs.gdisk.hasmovehere dir.pair = true then
        if lfs.gdisk.id = id then []
        else if lfs.gdisk.id < id then entryBlocks lfs dir (id + 1)
        else entryBlocks lfs dir id
      else entryBlocks lfs dir id := by
  rw [lookupAttr, getslice]
  by_cases hhere : lfs.gdisk.hasmovehere dir.pair = true
  · rw [if_pos ⟨hhere, rfl⟩, if_pos hhere]
    dsimp only
    by_cases hmoved : lfs.gdisk.id = id
    · rw [if_pos hmoved, if_pos hmoved]
      rfl
    · rw [if_neg hmoved, if_neg hmoved]
      by_cases hbehind : lfs.gdisk.id < id
      · rw [if_pos hbehind, if_pos hbehind]
        exact structBlocks_congr (getsliceGo_shift 0x700 tyStruct id 8 _ 0)
      · rw [if_neg hbehind, if_neg hbehind]
        rfl
  · rw [if_neg fun h => hhere h.1, if_neg hhere]
    rfl

/-- A struct that a lookup finds is the struct of some entry. -/
theorem entryStruct_of_lookup {id : ℕ} {attr : Attr}
    (hfound : lookupAttr lfs dir ⟨0x700, true⟩ ⟨tyStruct, id, 8⟩ = some attr) :
    ∃ id' attr', entryStruct lfs dir id' = some attr' ∧ attr'.1.type3 = attr.1.type3 ∧
      attr'.2 = attr.2 := by
  rw [lookupAttr, getslice] at hfound
  split_ifs at hfound with hhere hmoved hbehind
  · have hshift := getsliceGo_shift 0x700 tyStruct id 8 (readableLog lfs dir).reverse 0
    rw [show (0 : ℤ) - 1 = -1 from rfl, hfound, Option.map_some] at hshift
    obtain ⟨attr', hattr', hsame⟩ := Option.map_eq_some_iff.mp hshift.symm
    exact ⟨id + 1, attr', hattr', (Prod.mk.inj hsame).1, (Prod.mk.inj hsame).2⟩
  · exact ⟨id, attr, hfound, rfl, rfl⟩
  · exact ⟨id, attr, hfound, rfl, rfl⟩

/-- A walk that leaves out `moved` and is one ahead behind it misses the one behind `moved`. -/
theorem flatMap_skipping {β : Type} (items : ℕ → List β) (moved count : ℕ)
    (hend : ∀ i, count ≤ i → items i = []) :
    ∃ front back,
      ((List.range count).flatMap fun id =>
        if moved = id then [] else if moved < id then items (id + 1) else items id) =
          front ++ back ∧
      ((List.range count).filter fun id => some moved ≠ some id).flatMap items =
        front ++ items (moved + 1) ++ back := by
  have hbefore : ∀ n ≤ moved,
      ((List.range n).flatMap fun id =>
        if moved = id then [] else if moved < id then items (id + 1) else items id) =
          (List.range n).flatMap items ∧
      ((List.range n).filter fun id => some moved ≠ some id).flatMap items =
        (List.range n).flatMap items := by
    intro n hn
    constructor
    · apply List.flatMap_congr
      intro id hid
      have hlt : id < n := List.mem_range.mp hid
      rw [if_neg (by omega), if_neg (by omega)]
    · congr 1
      apply List.filter_eq_self.mpr
      intro id hid
      have hlt : id < n := List.mem_range.mp hid
      simp only [ne_eq, Option.some.injEq, decide_eq_true_eq]
      omega
  have hbehind : ∀ n, moved < n → ∃ back,
      ((List.range n).flatMap fun id =>
        if moved = id then [] else if moved < id then items (id + 1) else items id) =
          (List.range moved).flatMap items ++ back ∧
      ((List.range (n + 1)).filter fun id => some moved ≠ some id).flatMap items =
        (List.range moved).flatMap items ++ items (moved + 1) ++ back := by
    intro n hn
    induction n, hn using Nat.le_induction with
    | base =>
        obtain ⟨hvisited, hall⟩ := hbefore moved (le_refl _)
        refine ⟨[], ?_, ?_⟩
        · rw [List.range_succ, List.flatMap_append, hvisited]
          simp
        · rw [List.range_succ, List.range_succ, List.filter_append, List.filter_append,
            List.flatMap_append, List.flatMap_append, hall]
          simp
    | succ n hn ih =>
        obtain ⟨back, hvisited, hall⟩ := ih
        have hlt : moved < n := hn
        refine ⟨back ++ items (n + 1), ?_, ?_⟩
        · rw [List.range_succ, List.flatMap_append, hvisited, List.append_assoc]
          simp [hlt, hlt.ne]
        · rw [List.range_succ, List.filter_append, List.flatMap_append, hall]
          simp [show moved ≠ n + 1 by omega]
  obtain hle | hlt := le_or_gt count moved
  · obtain ⟨hvisited, hall⟩ := hbefore count hle
    refine ⟨(List.range count).flatMap items, [], ?_, ?_⟩
    · rw [hvisited, List.append_nil]
    · rw [hall, hend (moved + 1) (by omega), List.append_nil, List.append_nil]
  · obtain ⟨back, hvisited, hall⟩ := hbehind count hlt
    refine ⟨(List.range moved).flatMap items, back, hvisited, ?_⟩
    rw [← hall, List.range_succ, List.filter_append, List.flatMap_append]
    simp [hlt.ne, hend count (le_refl _)]

/-- What the traversal misses of a directory. -/
theorem visited_split
    (hid : ∀ id attr, entryStruct lfs dir id = some attr → id < dir.count) :
    ∃ front back, visitedBlocks lfs dir = front ++ back ∧
      committedBlocks lfs dir = front ++
        (if lfs.gdisk.hasmovehere dir.pair = true then entryBlocks lfs dir (lfs.gdisk.id + 1)
        else []) ++ back := by
  have hend : ∀ id, dir.count ≤ id → entryBlocks lfs dir id = [] := by
    intro id hle
    rw [entryBlocks]
    cases hstruct : entryStruct lfs dir id with
    | none => rfl
    | some attr => exact absurd (hid id attr hstruct) (not_lt.mpr hle)
  simp only [visitedBlocks, committedBlocks, movedId, lookup_blocks]
  by_cases hhere : lfs.gdisk.hasmovehere dir.pair = true
  · simp only [hhere, if_true]
    exact flatMap_skipping (entryBlocks lfs dir) lfs.gdisk.id dir.count hend
  · refine ⟨(List.range dir.count).flatMap (entryBlocks lfs dir), [], ?_, ?_⟩
    · simp [hhere]
    · simp [hhere]

/-! ## The walk -/

variable {α : Type} {step : α → Block → Except Error α} {base : Lfs}

theorem onDevice_of_inRange {pair : Pair} (hrange : outOfRange base.blockCount pair = false) :
    OnDevice base pair.1 ∧ OnDevice base pair.2 := by
  have hblocks : base.blockCount = 0 ∨ pair.1 < base.blockCount ∧ pair.2 < base.blockCount := by
    simpa [outOfRange, or_iff_not_imp_left] using hrange
  constructor
  · exact fun h => hblocks.elim h.1 fun hlt => absurd hlt.1 (not_lt.mpr h.2)
  · exact fun h => hblocks.elim h.1 fun hlt => absurd hlt.2 (not_lt.mpr h.2)

/-- A fetch of a pair on the device. -/
theorem delivers_lfsDirFetch {tail : Pair} (hrange : outOfRange base.blockCount tail = false)
    (hlocate : (locate base.disk tail).map (mdirOf base.disk) = some dir) :
    Delivers base (lfsDirFetch tail) dir := by
  obtain ⟨found, hfound, hdir⟩ := Option.map_eq_some_iff.mp hlocate
  have hdevice := (onDevice_of_inRange hrange).1
  obtain ⟨fetched, hfetched, hfetched_dir⟩ : ∃ fetched,
      fetchmatch base.disk base.blockCount base.gdisk (fun _ => none) tail = .ok fetched ∧
        fetched.dir = mdirOf base.disk found := by
    refine ⟨_, by rw [fetchmatch, if_neg (by simp [hrange]), hfound], rfl⟩
  have hmatch : Delivers base (lfsDirFetchmatch (fun _ => none) tail) fetched := by
    apply Delivers.get_bind
    intro lfs hreads
    rw [hreads.eq]
    dsimp only
    rw [hfetched, if_neg (by simp [hrange])]
    exact (delivers_readBlock hdevice).bind (Delivers.pure _)
  rw [← hdir, ← hfetched_dir]
  exact hmatch.bind (Delivers.pure _)

theorem finds_readBytes (base : Lfs) : Finds base readBytes (base.bytesThrough none) :=
  fun _ _ _ _ hdevice _ => delivers_readBytes hdevice

theorem finds_lfsBdRead (base : Lfs) (pcache : Option LfsCache) :
    Finds base (lfsBdRead pcache) (base.bytesThrough pcache) :=
  fun _ _ _ _ hdevice hinside => delivers_lfsBdRead hdevice hinside

theorem calls_lfsCtzTraverse (hblock : 128 ≤ base.cfg.blockSize) {head : Block} {size : ℕ}
    (hintact : base.CtzIntact none head size) :
    Calls step base (lfsCtzTraverse (callback step) head size)
      (ctzBlocks (base.bytesThrough none) base.cfg.blockSize head size) := by
  have hwalk : lfsCtzTraverse (callback step) head size =
      ctzTraverse (callback step) readBytes head size :=
    funext fun acc => lfsCtzTraverse_eq (callback step) head size acc
  rw [hwalk]
  exact calls_ctzTraverse (finds_readBytes base) hblock hintact

/-- The blocks of one entry. -/
theorem calls_traverseEntry (hblock : 128 ≤ base.cfg.blockSize)
    (hdevice : OnDevice base dir.pair.1)
    (hfile : ∀ id attr, entryStruct base dir id = some attr → attr.1.type3 = tyCtzstruct →
      base.CtzIntact none attr.2.toPair.1 attr.2.toPair.2) (id : ℕ) :
    Calls step base (fun acc => traverseEntry (callback step) true dir acc id)
      ((lookupAttr base dir ⟨0x700, true⟩ ⟨tyStruct, id, 8⟩).elim [] (structBlocks base)) := by
  intro acc lfs hreads
  have hlookup : lookupAttr lfs dir ⟨0x700, true⟩ ⟨tyStruct, id, 8⟩ =
      lookupAttr base dir ⟨0x700, true⟩ ⟨tyStruct, id, 8⟩ := by
    rw [hreads.eq]
    rfl
  have hdevice' : OnDevice lfs dir.pair.1 := by
    rw [hreads.eq]
    exact hdevice
  change Outcome (traverseEntry (callback step) true dir acc id) _ _ lfs
  rw [traverseEntry, outcome_bind]
  apply (outcome_lfsDirGet dir _ _ lfs).tryError
  · intro attr middle h
    obtain ⟨hfound, hreads'⟩ := h
    rw [hlookup] at hfound
    have hstruct : Calls step base (fun acc =>
        if attr.1.type3 = tyCtzstruct then
          lfsCtzTraverse (callback step) attr.2.toPair.1 attr.2.toPair.2 acc
        else if true = true ∧ attr.1.type3 = tyDirstruct then do
          let acc ← callback step acc attr.2.toPair.1
          callback step acc attr.2.toPair.2
        else pure acc) (structBlocks base attr) := by
      rw [structBlocks]
      by_cases hctz : attr.1.type3 = tyCtzstruct
      · obtain ⟨id', attr', hattr', htype, hdata⟩ := entryStruct_of_lookup hfound
        simp only [if_pos hctz]
        apply calls_lfsCtzTraverse hblock
        rw [← hdata]
        exact hfile id' attr' hattr' (htype.trans hctz)
      · by_cases hdir : attr.1.type3 = tyDirstruct
        · simp only [if_neg hctz, if_pos hdir, true_and]
          exact (Calls.one _).bind (Calls.one _)
        · simp only [if_neg hctz, hdir, and_false, if_false]
          exact Calls.pure
    rw [hfound]
    exact hstruct acc middle (hreads.trans hreads')
  · intro e middle h
    obtain ⟨hreads', hfailure⟩ := h
    apply hfailure.elim
    · intro h
      obtain ⟨he, hnone⟩ := h
      cases he
      rw [hlookup] at hnone
      rw [hnone]
      exact ⟨hreads.trans hreads', rfl⟩
    · intro hfails
      apply hfails.elim
      · exact fun h => absurd hdevice' h.2
      · intro h
        obtain ⟨he, hanswered⟩ := h
        cases he
        exact ⟨hreads.trans hreads', Or.inl ⟨rfl, fun h => hanswered (hreads.answered h)⟩⟩
  · intro fault middle hfault h
    obtain ⟨-, hfailure⟩ := h
    apply hfailure.elim
    · exact fun h => absurd h.1 (hfault _)
    · exact fun h => h.elim (fun h => absurd h.1 (hfault _)) fun h => absurd h.1 (hfault _)

/-- What the traversal calls back for along the list of pairs. -/
def visitedTails (lfs : Lfs) (tails : List (Pair × Mdir)) : List Block :=
  tails.flatMap fun entry => [entry.1.1, entry.1.2] ++ visitedBlocks lfs entry.2

/-- A pair on the list, with the part of the traversal that is needed of it. -/
structure Visitable (lfs : Lfs) (dir : Mdir) : Prop where
  device : OnDevice lfs dir.pair.1
  file : ∀ id attr, entryStruct lfs dir id = some attr → attr.1.type3 = tyCtzstruct →
    lfs.CtzIntact none attr.2.toPair.1 attr.2.toPair.2

theorem TailList.onDevice {tail : Pair} (hlist : TailList base tail tails)
    {entry : Pair × Mdir} (hentry : entry ∈ tails) : OnDevice base entry.2.pair.1 := by
  induction tails generalizing tail with
  | nil => cases hentry
  | cons first rest ih =>
      obtain ⟨pair, dir⟩ := first
      obtain ⟨-, -, hrange, hlocate, hrest⟩ := hlist
      rw [List.mem_cons] at hentry
      apply hentry.elim
      · rintro rfl
        obtain ⟨found, hfound, rfl⟩ := Option.map_eq_some_iff.mp hlocate
        have hdevice := onDevice_of_inRange hrange
        apply (locate_eq_or_swap hfound).elim
        · rintro rfl
          exact hdevice.1
        · rintro rfl
          exact hdevice.2
      · exact ih hrest

/-- The walk makes a turn for every pair on the list. -/
theorem TailList.detects (hdiffer : PairsDiffer base.disk base.blockCount) {k : ℕ} {tail : Pair}
    {tortoise : Tortoise} (hpass : passAt base.disk base.blockCount k = some (tail, tortoise))
    {pair : Pair} (hlist : TailList base tail ((pair, dir) :: tails)) :
    ∃ moved, lfsTortoiseDetectcycles tail tortoise = some moved ∧
      passAt base.disk base.blockCount (k + 1) = some (dir.tail, moved) := by
  obtain ⟨hnull, -, hrange, hlocate, -⟩ := hlist
  have hapart := passAt_apart hdiffer hpass hnull
  have hnext : nextTail base.disk base.blockCount tail = some dir.tail := by
    obtain ⟨found, hfound, hdir⟩ := Option.map_eq_some_iff.mp hlocate
    exact nextTail_eq_some.mpr ⟨hnull, hrange, found, hfound, by rw [hdir]⟩
  cases hdetect : lfsTortoiseDetectcycles tail tortoise with
  | none =>
      rw [lfsTortoiseDetectcycles, if_neg (by simp [hapart])] at hdetect
      split at hdetect <;> cases hdetect
  | some moved => exact ⟨moved, rfl, passAt_succ hpass hdetect hnext⟩

theorem TailList.passes (hdiffer : PairsDiffer base.disk base.blockCount) {k : ℕ} {tail : Pair}
    {tortoise : Tortoise} (hpass : passAt base.disk base.blockCount k = some (tail, tortoise))
    (hlist : TailList base tail tails) :
    passAt base.disk base.blockCount (k + tails.length) ≠ none := by
  induction tails generalizing k tail tortoise with
  | nil =>
      rw [List.length_nil, Nat.add_zero, hpass]
      exact Option.some_ne_none _
  | cons entry rest ih =>
      obtain ⟨pair, dir⟩ := entry
      obtain ⟨moved, -, hnext⟩ := hlist.detects hdiffer hpass
      have hrest := ih hnext hlist.2.2.2.2
      rwa [List.length_cons, Nat.add_comm rest.length, ← Nat.add_assoc]

/-- The traversal has turns for all pairs. -/
theorem TailList.length_lt (hdiffer : PairsDiffer base.disk base.blockCount)
    (hpos : 0 < base.blockCount) (hlt : base.blockCount < 2 ^ 32)
    (hlist : TailList base (0, 1) tails) : tails.length < walkFuel base.blockCount := by
  have hpasses := hlist.passes hdiffer (show passAt _ _ 0 = _ from rfl)
  have hstops : passAt base.disk base.blockCount (5 * (base.blockCount + 1) + 1) = none :=
    passAt_stops hpos.ne' hlt
  have hshort : ¬5 * (base.blockCount + 1) + 1 ≤ 0 + tails.length :=
    fun hle => hpasses (passAt_none_of_le hle hstops)
  rw [walkFuel]
  nlinarith

theorem calls_traverseTails (hdiffer : PairsDiffer base.disk base.blockCount)
    (hblock : 128 ≤ base.cfg.blockSize) {fuel k : ℕ} {tail : Pair} {tortoise : Tortoise}
    (hpass : passAt base.disk base.blockCount k = some (tail, tortoise))
    (hlist : TailList base tail tails) (hvisit : ∀ entry ∈ tails, Visitable base entry.2)
    (hfuel : tails.length < fuel) :
    Calls step base (traverseTails (callback step) true fuel tail tortoise)
      (visitedTails base tails) := by
  induction tails generalizing fuel k tail tortoise with
  | nil =>
      obtain ⟨fuel, rfl⟩ : ∃ n, fuel = n + 1 := Nat.exists_eq_add_one.mpr (by simpa using hfuel)
      have hnull : lfsPairIsnull tail = true := hlist
      intro acc lfs hreads
      rw [traverseTails, if_pos hnull]
      exact ⟨hreads, rfl⟩
  | cons entry rest ih =>
      obtain ⟨pair, dir⟩ := entry
      obtain ⟨fuel, rfl⟩ : ∃ n, fuel = n + 1 := Nat.exists_eq_add_one.mpr (by omega)
      obtain ⟨hdevice, hfile⟩ := hvisit (pair, dir) List.mem_cons_self
      obtain ⟨moved, hdetect, hnext⟩ := hlist.detects hdiffer hpass
      obtain ⟨hnull, hpair, hrange, hlocate, hrest⟩ := hlist
      have htails := ih hnext hrest (fun other hmem => hvisit other (List.mem_cons_of_mem _ hmem))
        (show rest.length < fuel by simpa using hfuel)
      have hentries : Calls step base
          (fun acc => (List.range dir.count).foldlM (traverseEntry (callback step) true dir) acc)
          (visitedBlocks base dir) :=
        Calls.foldlM _ fun id _ => calls_traverseEntry hblock hdevice hfile id
      have hturn : Calls step base (fun acc => do
          let acc ← callback step acc tail.1
          let acc ← callback step acc tail.2
          let dir ← lfsDirFetch tail
          let acc ← (List.range dir.count).foldlM (traverseEntry (callback step) true dir) acc
          traverseTails (callback step) true fuel dir.tail moved acc)
          ([tail.1] ++ ([tail.2] ++ (visitedBlocks base dir ++ visitedTails base rest))) :=
        (Calls.one tail.1).bind ((Calls.one tail.2).bind
          (Calls.read_bind (delivers_lfsDirFetch hrange hlocate) (hentries.bind htails)))
      intro acc lfs hreads
      rw [traverseTails, if_neg (by simp [hnull]), hdetect]
      rw [visitedTails, List.flatMap_cons, hpair]
      exact hturn acc lfs hreads

/-- The blocks of one open file. -/
theorem calls_traverseFileThrough {bdReads : Handle → BdRead FsM}
    (hblock : 128 ≤ base.cfg.blockSize) {file : Handle}
    (hfinds : Finds base (bdReads file) (base.bytesThrough (caches file)))
    (hdirty : file.type = .reg → file.flags.inline = false → file.flags.dirty = true →
      base.CtzIntact (caches file) file.ctz.head file.ctz.size)
    (hwriting : file.type = .reg → file.flags.inline = false → file.flags.writing = true →
      base.CtzIntact (caches file) file.block file.pos) :
    Calls step base (fun acc => traverseFileThrough (callback step) bdReads acc file)
      (pendingBlocks base caches file) := by
  simp only [traverseFileThrough, pendingBlocks]
  by_cases htype : file.type = .reg
  · simp only [htype, ne_eq, not_true, if_false]
    have hfirst : Calls step base (fun acc =>
        if file.flags.dirty = true ∧ ¬file.flags.inline = true then
          ctzTraverse (callback step) (bdReads file) file.ctz.head file.ctz.size acc
        else pure acc)
        (if file.flags.dirty = true ∧ ¬file.flags.inline = true then
          ctzBlocks (base.bytesThrough (caches file)) base.cfg.blockSize file.ctz.head
            file.ctz.size
        else []) :=
      Calls.ite fun hpending => calls_ctzTraverse hfinds hblock
        (hdirty htype (by simpa using hpending.2) hpending.1)
    have hsecond : Calls step base (fun acc =>
        if file.flags.writing = true ∧ ¬file.flags.inline = true then
          ctzTraverse (callback step) (bdReads file) file.block file.pos acc
        else pure acc)
        (if file.flags.writing = true ∧ ¬file.flags.inline = true then
          ctzBlocks (base.bytesThrough (caches file)) base.cfg.blockSize file.block file.pos
        else []) :=
      Calls.ite fun hpending => calls_ctzTraverse hfinds hblock
        (hwriting htype (by simpa using hpending.2) hpending.1)
    intro acc lfs hreads
    have hboth := (hfirst.bind hsecond) acc lfs hreads
    by_cases hpending : file.flags.dirty = true ∧ ¬file.flags.inline = true
    · simp only [if_pos hpending] at hboth ⊢
      exact hboth
    · simp only [if_neg hpending] at hboth ⊢
      exact hboth
  · simp only [ne_eq, htype, not_false_eq_true, if_true]
    exact Calls.pure

/-- What a traversal calls back for. -/
theorem calls_traverseThrough {bdReads : Handle → BdRead FsM}
    (hfinds : ∀ file, Finds base (bdReads file) (base.bytesThrough (caches file)))
    (hform : Traversable base caches tails) :
    Calls step base (traverseThrough (callback step) bdReads true)
      (visitedTails base tails ++ base.mlist.flatMap (pendingBlocks base caches)) := by
  have htails : Calls step base (traverseTails (callback step) true (tailFuel base) (0, 1) {})
      (visitedTails base tails) := by
    apply calls_traverseTails hform.differ hform.blockSize_ge (show passAt _ _ 0 = _ from rfl)
      hform.list
    · exact fun entry hentry => ⟨hform.list.onDevice hentry, hform.file entry hentry⟩
    · exact hform.list.length_lt hform.differ hform.blockCount_pos hform.blockCount_lt
  have hfiles : Calls step base (fun acc =>
      base.mlist.foldlM (traverseFileThrough (callback step) bdReads) acc)
      (base.mlist.flatMap (pendingBlocks base caches)) :=
    Calls.foldlM _ fun file hfile =>
      calls_traverseFileThrough hform.blockSize_ge (hfinds file) (hform.dirty file hfile)
        (hform.writing file hfile)
  intro acc lfs hreads
  have hmlist : lfs.mlist = base.mlist := by rw [hreads.eq]
  have hfuel : tailFuel lfs = tailFuel base := by
    rw [hreads.eq]
    rfl
  rw [traverseThrough, outcome_bind, outcome_get, hmlist, hfuel]
  exact (htails.bind hfiles) acc lfs hreads

theorem calls_fsTraverse (hform : Traversable base caches tails) :
    Calls step base (fsTraverse (callback step) caches true)
      (visitedTails base tails ++ base.mlist.flatMap (pendingBlocks base caches)) :=
  calls_traverseThrough (fun file => finds_lfsBdRead base (caches file)) hform

/-! ## What is reported -/

/-- A callback that lists the blocks. -/
def listStep (blocks : List Block) (block : Block) : Except Error (List Block) :=
  .ok (blocks ++ [block])

theorem foldlM_listStep (blocks acc : List Block) :
    blocks.foldlM listStep acc = .ok (acc ++ blocks) := by
  induction blocks generalizing acc with
  | nil =>
      rw [List.append_nil]
      rfl
  | cons block rest ih =>
      rw [List.foldlM_cons]
      change rest.foldlM listStep (acc ++ [block]) = _
      rw [ih, List.append_assoc]
      rfl

/-- On a device that answers, a walk calls back for one list of blocks only. -/
theorem Calls.unique {walk : List Block → FsM (List Block)} {blocks blocks' : List Block}
    (hanswered : Answered base) (hcalls : Calls listStep base walk blocks)
    (hcalls' : Calls listStep base walk blocks') : blocks = blocks' := by
  have hboth := (hcalls [] base (Reads.refl base)).and (hcalls' [] base (Reads.refl base))
  simp only [foldlM_listStep, List.nil_append] at hboth
  unfold Outcome at hboth
  cases hrun : walk [] base with
  | ok acc lfs' =>
      rw [hrun] at hboth
      obtain ⟨⟨-, hacc⟩, -, hacc'⟩ := hboth
      rw [Except.ok.inj hacc, Except.ok.inj hacc']
  | error failure lfs' =>
      rw [hrun] at hboth
      obtain ⟨⟨-, hfails⟩, -⟩ := hboth
      apply hfails.elim
      · exact fun h => absurd hanswered h.2
      · rintro ⟨e, -, he⟩
        cases he

theorem TailList.script {tail : Pair} (hlist : TailList lfs tail tails) (script : List Event)
    (window : Lookahead) :
    TailList { lfs with script := script, lookahead := window } tail tails := by
  induction tails generalizing tail with
  | nil => exact hlist
  | cons entry rest ih =>
      obtain ⟨hnull, hpair, hrange, hlocate, hrest⟩ := hlist
      exact ⟨hnull, hpair, hrange, hlocate, ih hrest⟩

/-- The lists do not depend on the accesses to come and on the window. -/
theorem Traversable.script (hform : Traversable lfs caches tails) (script : List Event)
    (window : Lookahead) :
    Traversable { lfs with script := script, lookahead := window } caches tails where
  blockCount_pos := hform.blockCount_pos
  blockCount_lt := hform.blockCount_lt
  blockSize_ge := hform.blockSize_ge
  list := hform.list.script script window
  differ := hform.differ
  id_lt := hform.id_lt
  file entry hentry id attr hstruct htype :=
    let h := hform.file entry hentry id attr hstruct htype
    ⟨h.size_lt, h.list, h.device⟩
  dirty file hfile htype hinline hdirty :=
    let h := hform.dirty file hfile htype hinline hdirty
    ⟨h.size_lt, h.list, h.device⟩
  writing file hfile htype hinline hwriting :=
    let h := hform.writing file hfile htype hinline hwriting
    ⟨h.size_lt, h.list, h.device⟩

/-- A directory loses what the pending move hides, and nothing else. -/
theorem visitedBlocks_length
    (hid : ∀ id attr, entryStruct lfs dir id = some attr → id < dir.count) :
    (visitedBlocks lfs dir).length ≤ (committedBlocks lfs dir).length ∧
      (HidesEntry lfs dir → (visitedBlocks lfs dir).length < (committedBlocks lfs dir).length) ∧
      (¬HidesEntry lfs dir → visitedBlocks lfs dir = committedBlocks lfs dir) := by
  obtain ⟨front, back, hvisited, hcommitted⟩ := visited_split hid
  rw [hvisited, hcommitted]
  by_cases hhere : lfs.gdisk.hasmovehere dir.pair = true
  · rw [if_pos hhere]
    simp only [List.length_append]
    refine ⟨by omega, ?_, ?_⟩
    · intro hhides
      have hpos := List.length_pos_iff.mpr hhides.2
      omega
    · intro hhides
      have hempty : entryBlocks lfs dir (lfs.gdisk.id + 1) = [] :=
        not_not.mp fun h => hhides ⟨hhere, h⟩
      rw [hempty, List.append_nil]
  · rw [if_neg hhere, List.append_nil]
    exact ⟨le_refl _, fun hhides => absurd hhides.1 hhere, fun _ => rfl⟩

/-- The traversal of a list of pairs misses blocks as soon as one pair hides some. -/
theorem visitedTails_length
    (hid : ∀ entry ∈ tails, ∀ id attr, entryStruct lfs entry.2 id = some attr →
      id < entry.2.count) :
    let committed := tails.flatMap fun entry =>
      [entry.1.1, entry.1.2] ++ committedBlocks lfs entry.2
    (visitedTails lfs tails).length ≤ committed.length ∧
      ((∃ entry ∈ tails, HidesEntry lfs entry.2) →
        (visitedTails lfs tails).length < committed.length) ∧
      ((∀ entry ∈ tails, ¬HidesEntry lfs entry.2) → visitedTails lfs tails = committed) := by
  induction tails with
  | nil => simp [visitedTails]
  | cons entry rest ih =>
      obtain ⟨hle, hlt, heq⟩ := visitedBlocks_length (hid entry List.mem_cons_self)
      obtain ⟨hrest_le, hrest_lt, hrest_eq⟩ :=
        ih fun other hmem => hid other (List.mem_cons_of_mem _ hmem)
      dsimp only at hrest_le hrest_lt hrest_eq ⊢
      rw [visitedTails] at hrest_le hrest_lt hrest_eq ⊢
      simp only [List.flatMap_cons, List.length_append]
      refine ⟨by omega, ?_, ?_⟩
      · rintro ⟨other, hmem, hhides⟩
        rw [List.mem_cons] at hmem
        apply hmem.elim
        · rintro rfl
          have := hlt hhides
          omega
        · intro hmem
          have := hrest_lt ⟨other, hmem, hhides⟩
          omega
      · intro hnone
        rw [heq (hnone entry List.mem_cons_self),
          hrest_eq fun other hmem => hnone other (List.mem_cons_of_mem _ hmem)]

theorem reportsInUse_of_not_hides (hform : Traversable lfs caches tails)
    (hnone : ∀ entry ∈ tails, ¬HidesEntry lfs entry.2) : ReportsInUse lfs caches tails := by
  intro α step script
  have hcalls : Calls step { lfs with script := script } _ _ :=
    calls_fsTraverse (hform.script script lfs.lookahead)
  have hvisited := (visitedTails_length hform.id_lt).2.2 hnone
  rw [blocksInUse, ← hvisited]
  exact hcalls

theorem not_reportsInUse_of_hides (hform : Traversable lfs caches tails)
    {entry : Pair × Mdir} (hentry : entry ∈ tails) (hhides : HidesEntry lfs entry.2) :
    ¬ReportsInUse lfs caches tails := by
  intro hreports
  have hcalls := hreports (List Block) listStep []
  have hvisits : Calls listStep { lfs with script := [] } _ _ :=
    calls_fsTraverse (hform.script [] lfs.lookahead)
  have hsame := hcalls.unique (fun event hevent => by cases hevent) hvisits
  have hlength := congrArg List.length hsame
  have hlt := (visitedTails_length hform.id_lt).2.1 ⟨entry, hentry, hhides⟩
  rw [blocksInUse, List.length_append, List.length_append] at hlength
  have hscript : visitedTails { lfs with script := [] } tails = visitedTails lfs tails := rfl
  have hpending : ({ lfs with script := [] } : Lfs).mlist.flatMap
      (pendingBlocks { lfs with script := [] } caches) =
        lfs.mlist.flatMap (pendingBlocks lfs caches) := rfl
  rw [hscript, hpending] at hlength
  omega

/-- What the allocator marks as used, where nothing is left in the caches. -/
theorem reported_of_traversable (hform : Traversable lfs (fun _ => none) tails)
    (hnone : ∀ entry ∈ tails, ¬HidesEntry lfs entry.2) :
    reported lfs = some (blocksInUse lfs (fun _ => none) tails) := by
  have hcalls : Calls listStep lfs.bare
      (traverseThrough (callback listStep) (fun _ => readBytes) true)
      (visitedTails lfs.bare tails ++
        lfs.bare.mlist.flatMap (pendingBlocks lfs.bare fun _ => none)) :=
    calls_traverseThrough (fun _ => finds_readBytes _) (hform.script [] {})
  have hblocks : visitedTails lfs.bare tails ++
      lfs.bare.mlist.flatMap (pendingBlocks lfs.bare fun _ => none) =
        blocksInUse lfs (fun _ => none) tails := by
    rw [blocksInUse, ← (visitedTails_length hform.id_lt).2.2 hnone]
    rfl
  have hrun := hcalls [] lfs.bare (Reads.refl _)
  rw [hblocks, foldlM_listStep, List.nil_append] at hrun
  rw [reported]
  have hlist : listBlock = callback listStep := rfl
  rw [hlist, lfsFsTraverse_eq]
  unfold Outcome at hrun
  cases hwalk : traverseThrough (callback listStep) (fun _ => readBytes) true [] lfs.bare with
  | ok blocks lfs' =>
      rw [hwalk] at hrun
      rw [Except.ok.inj hrun.2]
  | error failure lfs' =>
      rw [hwalk] at hrun
      apply hrun.2.elim
      · exact fun h => absurd (fun event hevent => by cases hevent) h.2
      · rintro ⟨e, -, he⟩
        cases he

/-- A traversal reports the blocks in use, each as often as it has an owner, exactly where no
pending move hides the entry behind the one it takes. -/
theorem fsTraverse_reports_iff (hform : Traversable lfs caches tails) :
    ReportsInUse lfs caches tails ↔ ∀ entry ∈ tails, ¬HidesEntry lfs entry.2 := by
  constructor
  · intro hreports entry hentry hhides
    exact not_reportsInUse_of_hides hform hentry hhides hreports
  · exact reportsInUse_of_not_hides hform

/-! ## A move that hides a file -/

/-- A log without splices answers with one of its own tags. -/
theorem getsliceGo_mem {gmask : ℕ} {gtag : Tag} {newest : List Attr} {attr : Attr}
    (hsplice : ∀ attr ∈ newest, attr.1.type1 ≠ tySplice)
    (hfound : getsliceGo ⟨gmask, true⟩ gtag newest 0 = some attr) :
    attr ∈ newest ∧ attr.1.id = gtag.id ∧ attr.1.type &&& gmask = gtag.type &&& gmask := by
  induction newest with
  | nil => cases hfound
  | cons first older ih =>
      obtain ⟨tag, data⟩ := first
      have htag : (tag.type1 == tySplice) = false := by
        simpa using hsplice (tag, data) List.mem_cons_self
      rw [getsliceGo] at hfound
      simp only [htag, Bool.and_false, Bool.false_and, Bool.false_eq_true, if_false] at hfound
      split_ifs at hfound with hmatch hdelete
      · obtain rfl : attr = (tag, data) := by
          rw [Tag.shift_zero] at hfound
          exact (Option.some.inj hfound).symm
        have hid : (tag.id : ℤ) = gtag.id - 0 := hmatch.2 trivial
        exact ⟨List.mem_cons_self, by dsimp only; omega, hmatch.1⟩
      · obtain ⟨hmem, hmatches⟩ :=
          ih (fun other hmem => hsplice other (List.mem_cons_of_mem _ hmem)) hfound
        exact ⟨List.mem_cons_of_mem _ hmem, hmatches⟩

/-- Files "a" and "b" in the root, and a directory that "a" moves to. -/
def movingDisk : Block → BlockImage
  | 0 =>
      { rev := 1
        commits := [{
          tags := [(⟨tySuperblock, 0, 8⟩, .bytes magic), (⟨tyReg, 1, 1⟩, .bytes [97]),
            (⟨tyCtzstruct, 1, 8⟩, .pair (8, 100)), (⟨tyReg, 2, 1⟩, .bytes [98]),
            (⟨tyCtzstruct, 2, 8⟩, .pair (9, 100)), (tailTag false, .pair (2, 3))]
          off := 96 }] }
  | 2 =>
      { rev := 1
        commits := [{
          tags := [(⟨tyReg, 0, 1⟩, .bytes [97]), (⟨tyCtzstruct, 0, 8⟩, .pair (8, 100)),
            (tailTag false, .pair (blockNull, blockNull))]
          off := 96 }] }
  | _ => {}

/-- A file that is being written behind its first block. -/
def growingFile : Handle where
  key := 1
  type := .reg
  m := { pair := (2, 3) }
  ctz := ⟨10, 512⟩
  flags := { write := true, dirty := true, writing := true }
  block := 11
  pos := 600

/-- The pointer of the second block is in the cache. -/
def growingCache (_ : Handle) : Option LfsCache :=
  some { block := 11, off := 0, size := 8, buffer := wordBytes 10 ++ [1, 2, 3, 4] }

def movingFilesystem (gdisk : Gstate) : Lfs :=
  { blankDevice defaultConfig with
    blockCount := 128
    disk := movingDisk
    gdisk := gdisk
    mlist := [growingFile] }

def movingTails : List (Pair × Mdir) :=
  [((0, 1), mdirOf movingDisk (0, 1)), ((2, 3), mdirOf movingDisk (2, 3))]

/-- "a" is in its new directory, and not yet removed from the root. -/
def pendingMove : Gstate := { type := tyDelete, id := 1, pair := (0, 1) }

theorem pairsDiffer_moving : PairsDiffer movingDisk 128 := by
  intro k l tail tail' hlt htail htail' hnull
  have hend : tailAt movingDisk 128 3 = none := by decide +kernel
  have hl : l < 3 := by
    by_contra h
    rw [tailAt_none_of_le (by omega) hend] at htail'
    cases htail'
  interval_cases l <;> interval_cases k <;> cases htail <;> cases htail' <;> revert hnull <;> decide

/-- The tags of both directories: no splices, and structs of small files. -/
theorem movingTags : ∀ entry ∈ movingTails,
    ∀ attr ∈ (readableLog (movingFilesystem {}) entry.2).reverse, attr.1.type1 ≠ tySplice ∧
      (attr.1.type1 = tyStruct → attr.1.id < entry.2.count ∧
        attr.2.toPair.1 < 128 ∧ attr.2.toPair.2 = 100) := by
  decide +kernel

theorem smallFile_intact (gdisk : Gstate) {head : Block} (hhead : head < 128) :
    (movingFilesystem gdisk).CtzIntact none head 100 := by
  have hlast : (lfsCtzIndex (movingFilesystem gdisk).cfg.blockSize (100 - 1)).1 = 0 := by
    change (lfsCtzIndex 512 99).1 = 0
    decide
  constructor
  · norm_num
  · rw [hlast]
    exact ⟨fun i hi hpos => absurd hpos (by omega)⟩
  · rw [ctzBlocks, if_neg (by norm_num), hlast]
    intro block hblock h
    obtain rfl : block = head := List.mem_singleton.mp hblock
    have hle : 128 ≤ block := h.2
    exact absurd hhead (not_lt.mpr hle)

theorem growingFile_intact (gdisk : Gstate) :
    (movingFilesystem gdisk).CtzIntact (growingCache growingFile) 10 512 ∧
      (movingFilesystem gdisk).CtzIntact (growingCache growingFile) 11 600 := by
  have hblocks : ctzBlocks ((movingFilesystem {}).bytesThrough (growingCache growingFile)) 512 10
      512 = [10] ∧
      ctzBlocks ((movingFilesystem {}).bytesThrough (growingCache growingFile)) 512 11 600 =
        [11, 10] := by
    decide +kernel
  have hindex : (lfsCtzIndex 512 511).1 = 0 ∧ (lfsCtzIndex 512 599).1 = 1 := by decide +kernel
  have hdevice : ∀ blocks : List Block, (∀ block ∈ blocks, block < 128) →
      ∀ block ∈ blocks, OnDevice (movingFilesystem gdisk) block := by
    intro blocks hlt block hblock h
    have hle : 128 ≤ block := h.2
    exact absurd (hlt block hblock) (not_lt.mpr hle)
  constructor
  · constructor
    · norm_num
    · change CtzList _ (ctzBlock _ 10 (lfsCtzIndex 512 511).1) (lfsCtzIndex 512 511).1
      rw [hindex.1]
      exact ⟨fun i hi hpos => absurd hpos (by omega)⟩
    · apply hdevice
      change ∀ block ∈ ctzBlocks ((movingFilesystem {}).bytesThrough (growingCache growingFile))
        512 10 512, block < 128
      rw [hblocks.1]
      decide
  · constructor
    · norm_num
    · change CtzList _ (ctzBlock _ 11 (lfsCtzIndex 512 599).1) (lfsCtzIndex 512 599).1
      rw [hindex.2]
      constructor
      intro i hi hpos k hk
      obtain rfl : i = 1 := by omega
      obtain rfl : k = 0 := Nat.le_zero.mp hk
      rfl
    · apply hdevice
      change ∀ block ∈ ctzBlocks ((movingFilesystem {}).bytesThrough (growingCache growingFile))
        512 11 600, block < 128
      rw [hblocks.2]
      decide

theorem movingFilesystem_traversable (gdisk : Gstate) :
    Traversable (movingFilesystem gdisk) growingCache movingTails := by
  have hfiles : ∀ entry ∈ movingTails, ∀ id attr,
      entryStruct (movingFilesystem gdisk) entry.2 id = some attr → id < entry.2.count ∧
        (movingFilesystem gdisk).CtzIntact none attr.2.toPair.1 attr.2.toPair.2 := by
    intro entry hentry id attr hstruct
    obtain ⟨hmem, hid, htype⟩ :=
      getsliceGo_mem (fun attr hattr => (movingTags entry hentry attr hattr).1) hstruct
    have hid' : attr.1.id = id := hid
    have hstruct : attr.1.type1 = tyStruct :=
      htype.trans (show tyStruct &&& 0x700 = tyStruct by decide)
    obtain ⟨hlt, hhead, hsize⟩ := (movingTags entry hentry attr hmem).2 hstruct
    rw [hsize, ← hid']
    exact ⟨hlt, smallFile_intact gdisk hhead⟩
  constructor
  · exact Nat.succ_pos _
  · change 128 < 2 ^ 32
    norm_num
  · change 128 ≤ 512
    norm_num
  · exact ⟨rfl, rfl, rfl, rfl, rfl, rfl, rfl, rfl, rfl⟩
  · exact pairsDiffer_moving
  · exact fun entry hentry id attr hstruct => (hfiles entry hentry id attr hstruct).1
  · exact fun entry hentry id attr hstruct _ => (hfiles entry hentry id attr hstruct).2
  · intro file hfile _ _ _
    obtain rfl : file = growingFile := List.mem_singleton.mp hfile
    exact (growingFile_intact gdisk).1
  · intro file hfile _ _ _
    obtain rfl : file = growingFile := List.mem_singleton.mp hfile
    exact (growingFile_intact gdisk).2

/-- Without a pending move the blocks of all files are reported, with those that only the cache
of the open file leads to. -/
theorem fsTraverse_reports_settled :
    ReportsInUse (movingFilesystem {}) growingCache movingTails ∧
      blocksInUse (movingFilesystem {}) growingCache movingTails =
        [0, 1, 8, 9, 2, 3, 8, 10, 11, 10] := by
  constructor
  · apply (fsTraverse_reports_iff (movingFilesystem_traversable {})).mpr
    intro entry _ hhides
    have hmove : ¬({} : Gstate).hasmove = true := by decide
    exact hmove (Bool.and_eq_true_iff.mp hhides.1).1
  · decide +kernel

/-- During the move of "a" the block of "b" is in use and not reported. -/
theorem pendingMove_hides_file :
    Traversable (movingFilesystem pendingMove) growingCache movingTails ∧
      9 ∈ blocksInUse (movingFilesystem pendingMove) growingCache movingTails ∧
      ¬ReportsInUse (movingFilesystem pendingMove) growingCache movingTails := by
  have hform := movingFilesystem_traversable pendingMove
  refine ⟨hform, by decide +kernel, ?_⟩
  apply not_reportsInUse_of_hides hform (show _ ∈ movingTails from List.mem_cons_self)
  have hblocks : entryBlocks (movingFilesystem pendingMove) (mdirOf movingDisk (0, 1)) 2 = [9] := by
    decide +kernel
  constructor
  · decide +kernel
  · exact fun h => by cases hblocks.symm.trans h

end Littlefs
