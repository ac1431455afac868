import Littlefs.Replay

/-!
# Compaction preserves the table

The traversal of a compaction passes on the tags that survive everything after
them.  Read as edits these are the survivors of the log, so a block rewritten
from them replays to the same entries.
-/

namespace Littlefs

open Edits

/-! ## The filter tracks an entry -/

/-- The filter compares types under a mask of the later tag: two types agree
under it when they fill the same slot. -/
theorem slotOf_eq_iff {left right : ℕ} (hleft : left < 0x800) (hright : right < 0x800) :
    slotOf left = slotOf right ↔
      left &&& (if left &&& 0x100 ≠ 0 then 0x7ff else 0x700) =
        right &&& (if left &&& 0x100 ≠ 0 then 0x7ff else 0x700) := by
  unfold slotOf
  have hmask : ∀ type : ℕ, (type &&& 0x700) &&& 0x100 = type &&& 0x100 :=
    fun type => (and_type1 type 0x100 rfl).symm
  by_cases hl : left &&& 0x100 = 0 <;> by_cases hr : right &&& 0x100 = 0
  · simp [hl, hr]
  · have hne : left &&& 0x700 ≠ right := by
      intro h
      rw [← h, hmask] at hr
      exact hr hl
    have hne' : left &&& 0x700 ≠ right &&& 0x700 := by
      intro h
      have hbits := congrArg (· &&& 0x100) h
      simp only [hmask] at hbits
      omega
    simp_all
  · have hne : left ≠ right &&& 0x700 := by
      intro h
      rw [h, hmask] at hl
      exact hl hr
    have hne' : left ≠ right := by
      rintro rfl
      exact hl hr
    simp [hl, hr, hne, hne', and_type_of_lt hleft, and_type_of_lt hright]
  · simp [hl, hr, and_type_of_lt hleft, and_type_of_lt hright]

theorem slotOf_and (type bit : ℕ) (hbit : 0x700 &&& bit = bit) :
    slotOf type &&& bit = type &&& bit := by
  unfold slotOf
  split_ifs
  · rfl
  · exact (and_type1 type bit hbit).symm

/-- The tags that set a slot. -/
structure SlotTag (tag : Tag) : Prop where
  wf : TagWf tag
  put : tag.type &&& 0x400 = 0
  live : tag.isdelete = false

/-- The tags that the filter follows from edit to edit. -/
structure Followed (tag : Tag) : Prop where
  type_lt : tag.type < 0x800
  put : tag.type &&& 0x400 = 0
  live : tag.isdelete = false

theorem SlotTag.followed {tag : Tag} (hslot : SlotTag tag) : Followed tag :=
  ⟨hslot.wf.type_lt, hslot.put, hslot.live⟩

theorem Followed.move {tag : Tag} (hfollowed : Followed tag) (id : ℕ) :
    Followed { tag with id := id } :=
  ⟨hfollowed.type_lt, hfollowed.put, hfollowed.live⟩

theorem lfsDirTraverseFilter_eq_track {filtertag : Tag} (hputs : Followed filtertag) (attr : Attr)
    (hattr : TagWf attr.1) :
    lfsDirTraverseFilter filtertag attr.1 =
      ((editOf attr).track filtertag.id (slotOf filtertag.type)).map
        fun id => { filtertag with id := id } := by
  obtain ⟨tag, data⟩ := attr
  change TagWf tag at hattr
  have hslot := slotOf_eq_iff hattr.type_lt hputs.type_lt
  have hlive : filtertag.isdelete = false := hputs.live
  have hhigher : tag.type &&& 0x400 ≠ 0 → slotOf tag.type ≠ slotOf filtertag.type := by
    intro hhigh heq
    have hbits := congrArg (· &&& 0x400) heq
    simp only [slotOf_and _ 0x400 rfl, hputs.put] at hbits
    exact hhigh hbits
  unfold lfsDirTraverseFilter
  simp only [← hslot, hlive, Bool.false_eq_true, false_or]
  rcases hattr.cases with ⟨hcreate, -⟩ | hdelete | hput | ⟨hhigh, hsplice⟩
  · have hne := hhigher (by rw [hcreate]; decide)
    have hncreate : tag.type ≠ tyDelete := by rw [hcreate]; decide
    have htype1 : tag.type1 = tySplice := by rw [Tag.type1, hcreate]; decide
    rw [editOf_create (tag, data) hcreate, Edit.track]
    by_cases hle : tag.id ≤ filtertag.id
    · have hshift : filtertag.shift 1 = { filtertag with id := filtertag.id + 1 } := by
        rw [Tag.shift_of_nonneg (by omega)]
        congr 1
      simp [hne, hncreate, htype1, hle, Tag.splice_create tag hcreate, hshift]
    · simp [hne, hncreate, hle]
  · have hne := hhigher (by rw [hdelete]; decide)
    have htype1 : tag.type1 = tySplice := by rw [Tag.type1, hdelete]; decide
    rw [editOf_delete (tag, data) hdelete, Edit.track]
    rcases Nat.lt_trichotomy tag.id filtertag.id with hlt | heq | hgt
    · have hshift : filtertag.shift (-1) = { filtertag with id := filtertag.id - 1 } := by
        rw [Tag.shift_of_nonneg (by omega)]
        congr 1
        omega
      simp [hne, htype1, hlt, hlt.ne, hlt.le, Tag.splice_delete tag hdelete, hshift]
    · simp [hdelete, heq]
    · simp [hne, hgt.ne', hgt.not_ge, hgt.not_gt]
  · have htype1 : tag.type1 ≠ tySplice := type1_ne_of_put hput
    have hndelete : tag.type ≠ tyDelete := by
      intro h
      rw [h] at hput
      exact absurd hput (by decide)
    rw [editOf_put (tag, data) hput, Edit.track]
    by_cases hcell : tag.id = filtertag.id ∧ slotOf tag.type = slotOf filtertag.type
    · simp [hcell]
    · have hcell' : ¬(slotOf tag.type = slotOf filtertag.type ∧ tag.id = filtertag.id) :=
        fun h => hcell ⟨h.2, h.1⟩
      simp only [hcell', htype1, hndelete, false_and, or_self, if_false, if_neg hcell,
        Option.map_some]
  · have hne := hhigher hhigh
    have htype1 : tag.type1 ≠ tySplice := hsplice
    have hndelete : tag.type ≠ tyDelete := by
      intro h
      rw [h] at hsplice
      exact hsplice (by decide)
    rw [editOf_skip (tag, data) hhigh hsplice, Edit.track]
    simp [hne, htype1, hndelete]

/-! ## Attributes as edits -/

/-- The tags an entry of an attribute list stands for, and their edits. -/
def mattrEdits (disk : Block → BlockImage) (mattr : Mattr) : List (Edit ℕ Cell) :=
  (processTag disk 0 mattr.tag mattr.buffer).map editOf

def editsOf (disk : Block → BlockImage) (mattrs : List Mattr) : List (Edit ℕ Cell) :=
  mattrs.flatMap (mattrEdits disk)

@[simp]
theorem editsOf_nil (disk : Block → BlockImage) : editsOf disk [] = [] := rfl

theorem editsOf_cons (disk : Block → BlockImage) (mattr : Mattr) (mattrs : List Mattr) :
    editsOf disk (mattr :: mattrs) = mattrEdits disk mattr ++ editsOf disk mattrs :=
  List.flatMap_cons

theorem editsOf_append (disk : Block → BlockImage) (mattrs more : List Mattr) :
    editsOf disk (mattrs ++ more) = editsOf disk mattrs ++ editsOf disk more :=
  List.flatMap_append

/-- The attributes of a file that can be committed: sizes short of the value
that marks a deletion, and no type given twice with different data. -/
structure UserAttrsWf (list : List UserAttr) : Prop where
  type_lt : ∀ attr ∈ list, attr.type < 0x100
  length_lt : ∀ attr ∈ list, attr.buffer.length < 0x3ff
  agree : ∀ left ∈ list, ∀ right ∈ list, left.type = right.type → left.buffer = right.buffer

/-- Attribute lists of tags with their data, as they go to disk. -/
inductive Plain : Mattr → Prop
  | noop {tag : Tag} {buffer : Buffer} (htype : tag.type = fromNoop) : Plain ⟨tag, buffer⟩
  | data {tag : Tag} {payload : Payload} (hwf : TagWf tag) : Plain ⟨tag, .data payload⟩

theorem plain_diskMattr {attr : Attr} (hwf : TagWf attr.1) : Plain (diskMattr attr) :=
  Plain.data hwf

theorem mattrEdits_data (disk : Block → BlockImage) {tag : Tag} (payload : Payload)
    (hwf : TagWf tag) : mattrEdits disk ⟨tag, .data payload⟩ = [editOf (tag, payload)] := by
  simp [mattrEdits, processTag, Tag.type3, hwf.type_ne, dispatchTag]

theorem mattrEdits_noop (disk : Block → BlockImage) {tag : Tag} (buffer : Buffer)
    (htype : tag.type = fromNoop) : mattrEdits disk ⟨tag, buffer⟩ = [] := by
  simp [mattrEdits, processTag, Tag.type3, htype]

theorem plain_checksumMattr : Plain checksumMattr := Plain.data (by decide)

theorem plain_mdirMattrs {disk : Block → BlockImage} {dir : Mdir}
    (hwf : LogWf (mdirLog disk dir)) : ∀ mattr ∈ mdirMattrs disk dir, Plain mattr := by
  intro mattr hmattr
  obtain ⟨commit, hcommit, hmem⟩ := List.mem_flatMap.mp hmattr
  apply (List.mem_append.mp hmem).elim
  · intro htag
    obtain ⟨attr, hattr, rfl⟩ := List.mem_map.mp htag
    exact plain_diskMattr (hwf attr (List.mem_flatMap.mpr ⟨commit, hcommit, hattr⟩))
  · intro hchecksum
    rw [List.mem_singleton.mp hchecksum]
    exact plain_checksumMattr

theorem editsOf_diskMattr (disk : Block → BlockImage) {tags : List Attr} (hwf : LogWf tags) :
    editsOf disk (tags.map diskMattr) = tags.map editOf := by
  induction tags with
  | nil => rfl
  | cons attr tags ih =>
      obtain ⟨hattr, htags⟩ := hwf.cons
      rw [List.map_cons, editsOf_cons, ih htags, diskMattr, mattrEdits_data disk attr.2 hattr]
      rfl

theorem editsOf_checksumMattr (disk : Block → BlockImage) :
    editsOf disk [checksumMattr] = [.skip] := by
  rw [editsOf_cons, checksumMattr, mattrEdits_data disk _ (by decide)]
  rfl

/-- The checksums between the commits edit nothing. -/
theorem replay_mdirMattrs (disk : Block → BlockImage) {dir : Mdir}
    (hwf : LogWf (mdirLog disk dir)) (table : Table ℕ Cell) :
    replay table (editsOf disk (mdirMattrs disk dir)) =
      replay table ((mdirLog disk dir).map editOf) := by
  unfold mdirLog BlockImage.log at hwf ⊢
  unfold mdirMattrs
  generalize (disk dir.pair.1).commits.takeWhile _ = commits at hwf ⊢
  induction commits generalizing table with
  | nil => rfl
  | cons commit commits ih =>
      have htags : LogWf commit.tags := fun attr hattr =>
        hwf attr (List.mem_flatMap.mpr ⟨commit, List.mem_cons_self, hattr⟩)
      have hrest : LogWf (commits.flatMap Commit.tags) := by
        intro attr hattr
        obtain ⟨other, hother, hmem⟩ := List.mem_flatMap.mp hattr
        exact hwf attr (List.mem_flatMap.mpr ⟨other, List.mem_cons_of_mem _ hother, hmem⟩)
      rw [List.flatMap_cons, List.flatMap_cons, editsOf_append, editsOf_append,
        editsOf_diskMattr disk htags, editsOf_checksumMattr, List.map_append, replay_append,
        replay_append, replay_append, ih _ hrest]
      rfl

/-- A checksum comes last. -/
theorem editsOf_mdirMattrs_end (disk : Block → BlockImage) (dir : Mdir) :
    editsOf disk (mdirMattrs disk dir) = [] ∨
      ∃ older, editsOf disk (mdirMattrs disk dir) = older ++ [.skip] := by
  unfold mdirMattrs
  generalize (disk dir.pair.1).commits.takeWhile _ = commits
  induction commits using List.reverseRecOn with
  | nil => exact Or.inl rfl
  | append_singleton commits commit _ =>
      right
      rw [List.flatMap_append, List.flatMap_singleton, ← List.append_assoc, editsOf_append,
        editsOf_checksumMattr]
      exact ⟨_, rfl⟩

theorem not_move_of_wf {tag : Tag} (hwf : TagWf tag) : tag.type ≠ fromMove ∧
    tag.type ≠ fromUserattrs := by
  constructor <;>
  · intro h
    have := hwf.not_from
    rw [h] at this
    exact this (by decide)

/-- The filter changes nothing but the id. -/
theorem lfsDirTraverseFilter_type {filtertag tag result : Tag} (hwf : TagWf tag)
    (hresult : lfsDirTraverseFilter filtertag tag = some result) :
    result.type = filtertag.type := by
  unfold lfsDirTraverseFilter at hresult
  generalize (if tag.type &&& 0x100 ≠ 0 then 0x7ff else 0x700) = mask at hresult
  dsimp only at hresult
  split at hresult
  · cases hresult
  · rename_i hkeep
    split at hresult
    · rename_i hsplice
      cases hresult
      have hne : tag.type = tyDelete → tag.id ≠ filtertag.id :=
        fun hdelete hid => hkeep (Or.inr (Or.inr ⟨hdelete, hid⟩))
      have hle := hsplice.2
      rcases hwf.splice hsplice.1 with ⟨hcreate, -⟩ | hdelete
      · rw [Tag.splice_create tag hcreate, Tag.shift_of_nonneg (by omega)]
      · have hne := hne hdelete
        rw [Tag.splice_delete tag hdelete, Tag.shift_of_nonneg (by omega)]
    · cases hresult
      rfl

theorem filterRest_noop (filtertag : Tag) {tag : Tag} (buffer : Buffer) (rest : List Mattr)
    (htype : tag.type = fromNoop) :
    filterRest filtertag (⟨tag, buffer⟩ :: rest) = filterRest filtertag rest := by
  rw [filterRest]
  simp [Tag.type3, htype]

theorem filterRest_data (filtertag : Tag) {tag : Tag} (payload : Payload) (rest : List Mattr)
    (hwf : TagWf tag) :
    filterRest filtertag (⟨tag, .data payload⟩ :: rest) =
      (lfsDirTraverseFilter filtertag tag).bind fun filtertag => filterRest filtertag rest := by
  have hfrom := not_move_of_wf hwf
  rw [filterRest, if_neg (by rintro (h | h); exacts [hwf.type_ne h, hfrom.1 h])]
  dsimp only
  cases lfsDirTraverseFilter filtertag tag <;> rfl

theorem filterRest_move (filtertag : Tag) {tag : Tag} (buffer : Buffer) (rest : List Mattr)
    (htype : tag.type = fromMove) :
    filterRest filtertag (⟨tag, buffer⟩ :: rest) = filterRest filtertag rest := by
  rw [filterRest]
  simp [Tag.type3, htype]

/-- What running `tag` through `rest` gives. -/
structure Filters (disk : Block → BlockImage) (tag : Tag) (rest : List Mattr) : Prop where
  type : ∀ result, filterRest tag rest = some result → result.type = tag.type
  follows : Followed tag → filterRest tag rest =
    (trackAll (slotOf tag.type) (editsOf disk rest) tag.id).map fun id => { tag with id := id }
  removal : tag.isdelete = true →
    filterRest tag rest = if editsOf disk rest = [] then some tag else none

theorem filters_nil (disk : Block → BlockImage) (tag : Tag) : Filters disk tag [] where
  type _ hresult := by
    cases hresult
    rfl
  follows _ := rfl
  removal _ := rfl

theorem filters_data {disk : Block → BlockImage} {filtertag tag : Tag} (payload : Payload)
    {rest : List Mattr} (hwf : TagWf tag)
    (hrest : ∀ result, lfsDirTraverseFilter filtertag tag = some result →
      Filters disk result rest) :
    Filters disk filtertag (⟨tag, .data payload⟩ :: rest) := by
  constructor
  · intro result hresult
    rw [filterRest_data _ _ _ hwf] at hresult
    obtain ⟨middle, hfilter, hmiddle⟩ := Option.bind_eq_some_iff.mp hresult
    rw [(hrest middle hfilter).type result hmiddle, lfsDirTraverseFilter_type hwf hfilter]
  · intro hfollowed
    have htracked := lfsDirTraverseFilter_eq_track hfollowed (tag, payload) hwf
    rw [filterRest_data _ _ _ hwf, editsOf_cons, mattrEdits_data disk payload hwf,
      List.singleton_append, trackAll]
    cases htrack : (editOf (tag, payload)).track filtertag.id (slotOf filtertag.type) with
    | none =>
        rw [htrack] at htracked
        rw [htracked]
        rfl
    | some id =>
        rw [htrack] at htracked
        rw [htracked]
        exact (hrest _ htracked).follows (hfollowed.move id)
  · intro hremoval
    rw [filterRest_data _ _ _ hwf, editsOf_cons, mattrEdits_data disk payload hwf,
      List.singleton_append, if_neg (List.cons_ne_nil _ _)]
    simp [lfsDirTraverseFilter, hremoval]

theorem filters_cons {disk : Block → BlockImage} {mattr : Mattr} {rest : List Mattr}
    (hmattr : Plain mattr) (hrest : ∀ tag, Filters disk tag rest) (filtertag : Tag) :
    Filters disk filtertag (mattr :: rest) := by
  cases hmattr with
  | noop htype =>
      constructor
      · rw [filterRest_noop _ _ _ htype]
        exact (hrest filtertag).type
      · rw [filterRest_noop _ _ _ htype, editsOf_cons, mattrEdits_noop disk _ htype]
        exact (hrest filtertag).follows
      · rw [filterRest_noop _ _ _ htype, editsOf_cons, mattrEdits_noop disk _ htype]
        exact (hrest filtertag).removal
  | data hwf => exact filters_data _ hwf fun result _ => hrest result

theorem filters_plain (disk : Block → BlockImage) {rest : List Mattr}
    (hplain : ∀ mattr ∈ rest, Plain mattr) (tag : Tag) : Filters disk tag rest := by
  induction rest generalizing tag with
  | nil => exact filters_nil disk tag
  | cons mattr rest ih =>
      obtain ⟨hmattr, hrest⟩ := List.forall_mem_cons.mp hplain
      exact filters_cons hmattr (fun tag => ih hrest tag) tag

/-! ## The traversal keeps the survivors -/

def cellAttr (cell : ℕ × ℕ × Cell) : Attr := cell.2.2.at cell.1

theorem processTag_noop (disk : Block → BlockImage) (diff : ℤ) {tag : Tag} (buffer : Buffer)
    (htype : tag.type = fromNoop) : processTag disk diff tag buffer = [] := by
  simp [processTag, Tag.type3, htype]

theorem processTag_data (disk : Block → BlockImage) (diff : ℤ) {tag : Tag} (payload : Payload)
    (htype : tag.type ≠ fromNoop) :
    processTag disk diff tag (.data payload) = [(tag.shift diff, payload)] := by
  simp [processTag, Tag.type3, htype, dispatchTag]

theorem processTag_move (disk : Block → BlockImage) (diff : ℤ) {tag : Tag} (source : Mdir)
    (htype : tag.type = fromMove) :
    processTag disk diff tag (.mdir source) = traverseMove disk source tag.size tag.id diff := by
  have hnoop : fromMove ≠ fromNoop := by decide
  simp [processTag, Tag.type3, htype, hnoop]

theorem processTag_userattrs (disk : Block → BlockImage) (diff : ℤ) {tag : Tag}
    (list : List UserAttr) (htype : tag.type = fromUserattrs) :
    processTag disk diff tag (.attrs list) =
      list.map fun attr => (userattrTag tag diff attr, .bytes attr.buffer) := by
  have hnoop : fromUserattrs ≠ fromNoop := by decide
  simp [processTag, Tag.type3, htype, hnoop]

/-- An entry with its id replaced. -/
def placed (place : ℕ → ℕ) (attr : Attr) : Attr := ({ attr.1 with id := place attr.1.id }, attr.2)

/-- A traversal of `[first, last)` copies the tags that the mask selects, and puts
the one with id `first + index` at `place index`. -/
structure Copies (tmask ttag first last : ℕ) (process : Tag → Buffer → List Attr)
    (place : ℕ → ℕ) : Prop where
  low : ∀ type, type &&& tmask = ttag &&& tmask → type &&& 0x400 = 0
  noop : ∀ tag buffer, tag.type = fromNoop → tag.type &&& tmask = ttag &&& tmask →
    process tag buffer = []
  data : ∀ (tag : Tag) payload, tag.type ≠ fromNoop → first ≤ tag.id → tag.id < last →
    process tag (.data payload) = [({ tag with id := place (tag.id - first) }, payload)]

/-- A compaction counts the ids from `first`. -/
theorem copies_processTag (disk : Block → BlockImage) (first last : ℕ) :
    Copies 0x400 tyName first last (processTag disk (-(first : ℤ))) id where
  low _ h := h
  noop tag buffer htype _ := processTag_noop disk _ buffer htype
  data tag payload htype hfirst _ := by
    have hid : ((tag.id : ℤ) + -(first : ℤ)).toNat = tag.id - first := by omega
    rw [processTag_data disk _ payload htype, Tag.shift_of_nonneg (by omega), hid]
    rfl

/-- The removal mark a traversal may end with: it comes last in the log as well. -/
def Removal (first : ℕ) (edits : List (Edit ℕ Cell)) (attr : Attr) : Prop :=
  ∃ older index, edits = older ++ [.put index (slotOf attr.1.type) none] ∧ first ≤ index ∧
    attr.1.id = index - first ∧ attr.1.isdelete = true ∧ TagWf attr.1 ∧
      attr.1.type &&& 0x400 = 0

theorem Removal.cons {first : ℕ} {edits : List (Edit ℕ Cell)} {attr : Attr}
    (hremoval : Removal first edits attr) (edit : Edit ℕ Cell) :
    Removal first (edit :: edits) attr := by
  obtain ⟨older, index, hedits, hattr⟩ := hremoval
  exact ⟨edit :: older, index, by rw [hedits, List.cons_append], hattr⟩

theorem Removal.append {first : ℕ} {edits : List (Edit ℕ Cell)} {attr : Attr}
    (hremoval : Removal first edits attr) (more : List (Edit ℕ Cell)) :
    Removal first (more ++ edits) attr := by
  obtain ⟨older, index, hedits, hattr⟩ := hremoval
  exact ⟨more ++ older, index, by rw [hedits, List.append_assoc], hattr⟩

/-- The survivors of the range that a mask selects. -/
def selected (tmask ttag first last : ℕ) (edits : List (Edit ℕ Cell)) : List (ℕ × ℕ × Cell) :=
  (window first last edits).filter fun cell => cell.2.2.type &&& tmask = ttag &&& tmask

theorem selected_cons_put (tmask ttag first last index key : ℕ) (cell : Cell)
    (edits : List (Edit ℕ Cell)) :
    selected tmask ttag first last (.put index key (some cell) :: edits) =
      ((trackAll key edits index).elim [] fun index =>
          if (first ≤ index ∧ index < last) ∧ cell.type &&& tmask = ttag &&& tmask then
            [(index - first, key, cell)]
          else []) ++ selected tmask ttag first last edits := by
  rw [selected, window_cons_put, List.filter_append, ← selected]
  congr 1
  cases trackAll key edits index with
  | none => rfl
  | some index =>
      dsimp only [Option.elim_some]
      by_cases hrange : first ≤ index ∧ index < last
      · rw [if_pos hrange, List.filter_cons, List.filter_nil]
        simp [hrange]
      · rw [if_neg hrange, if_neg fun h => hrange h.1, List.filter_nil]

/-- What a traversal writes: the survivors, and the removal marks at the end. -/
def Keeps (disk : Block → BlockImage) (tmask ttag first last : ℕ)
    (process : Tag → Buffer → List Attr) (place : ℕ → ℕ) (mattrs : List Mattr) : Prop :=
  ∃ removals, traverseFiltered tmask ttag first last process mattrs =
      ((selected tmask ttag first last (editsOf disk mattrs)).map cellAttr ++ removals).map
        (placed place) ∧
    ∀ attr ∈ removals, Removal first (editsOf disk mattrs) attr

section

variable {disk : Block → BlockImage} {tmask ttag first last : ℕ}
  {process : Tag → Buffer → List Attr} {place : ℕ → ℕ} {rest : List Mattr}

theorem keeps_nil : Keeps disk tmask ttag first last process place [] :=
  ⟨[], rfl, fun _ h => absurd h List.not_mem_nil⟩

/-- A tag whose edit puts nothing writes nothing. -/
theorem Keeps.skip {mattr : Mattr} {edit : Edit ℕ Cell}
    (hrest : Keeps disk tmask ttag first last process place rest)
    (hedits : mattrEdits disk mattr = [edit])
    (hno : ∀ index key value, ¬edit.Puts index key value)
    (hwritten : traverseFiltered tmask ttag first last process (mattr :: rest) =
      traverseFiltered tmask ttag first last process rest) :
    Keeps disk tmask ttag first last process place (mattr :: rest) := by
  obtain ⟨removals, hout, hremovals⟩ := hrest
  refine ⟨removals, ?_, fun attr hattr => ?_⟩
  · rw [hwritten, hout, editsOf_cons, hedits, List.singleton_append, selected, selected,
      window_cons_of_no_put first last _ hno]
  · rw [editsOf_cons, hedits]
    exact (hremovals attr hattr).cons edit

theorem Keeps.cons_put (hcopies : Copies tmask ttag first last process place) {tag : Tag}
    {payload : Payload} (hwf : TagWf tag) (hput : tag.type &&& 0x400 = 0)
    (hlive : tag.isdelete = false) (hfilters : Filters disk tag rest)
    (hrest : Keeps disk tmask ttag first last process place rest) :
    Keeps disk tmask ttag first last process place (⟨tag, .data payload⟩ :: rest) := by
  obtain ⟨removals, hout, hremovals⟩ := hrest
  have hedit : editOf (tag, payload) =
      .put tag.id (slotOf tag.type) (some ⟨tag.type, tag.size, payload⟩) := by
    rw [editOf_put (tag, payload) hput]
    simp [hlive]
  refine ⟨removals, ?_, fun attr hattr => ?_⟩
  · rw [traverseFiltered, hout, editsOf_cons, mattrEdits_data disk payload hwf,
      List.singleton_append, hedit, selected_cons_put]
    simp only [List.map_append, List.append_assoc]
    congr 1
    rw [hfilters.follows ⟨hwf.type_lt, hput, hlive⟩]
    by_cases hselect : tag.type &&& tmask = ttag &&& tmask
    · rw [if_pos hselect]
      cases trackAll (slotOf tag.type) (editsOf disk rest) tag.id with
      | none => rfl
      | some index =>
          dsimp only [Option.map_some, Option.elim_some]
          by_cases hrange : first ≤ index ∧ index < last
          · rw [if_pos hrange, if_pos ⟨hrange, hselect⟩,
              hcopies.data { tag with id := index } payload hwf.type_ne hrange.1 hrange.2]
            rfl
          · rw [if_neg hrange, if_neg fun h => hrange h.1]
            rfl
    · rw [if_neg hselect]
      cases trackAll (slotOf tag.type) (editsOf disk rest) tag.id with
      | none => rfl
      | some index =>
          dsimp only [Option.elim_some]
          rw [if_neg fun h => hselect h.2]
          rfl
  · rw [editsOf_cons, mattrEdits_data disk payload hwf]
    exact (hremovals attr hattr).cons _

theorem Keeps.cons_removal (hcopies : Copies tmask ttag first last process place) {tag : Tag}
    {payload : Payload} (hwf : TagWf tag) (hput : tag.type &&& 0x400 = 0)
    (hremoval : tag.isdelete = true) (hfilters : Filters disk tag rest)
    (hrest : Keeps disk tmask ttag first last process place rest) :
    Keeps disk tmask ttag first last process place (⟨tag, .data payload⟩ :: rest) := by
  have hedit : editOf (tag, payload) = .put tag.id (slotOf tag.type) none := by
    rw [editOf_put (tag, payload) hput]
    simp [hremoval]
  have hedits : mattrEdits disk ⟨tag, .data payload⟩ = [.put tag.id (slotOf tag.type) none] := by
    rw [mattrEdits_data disk payload hwf, hedit]
  have hno : ∀ index key (value : Cell),
      ¬(Edit.put tag.id (slotOf tag.type) none : Edit ℕ Cell).Puts index key value :=
    fun _ _ _ h => by cases h
  by_cases hlast : tag.type &&& tmask = ttag &&& tmask ∧ editsOf disk rest = [] ∧
      first ≤ tag.id ∧ tag.id < last
  · obtain ⟨hselect, hend, hfirst, hlt⟩ := hlast
    obtain ⟨removals, hout, hremovals⟩ := hrest
    have hnone : removals = [] := by
      apply List.eq_nil_iff_forall_not_mem.mpr
      intro attr hattr
      obtain ⟨older, index, hedits, -⟩ := hremovals attr hattr
      rw [hend] at hedits
      exact List.append_ne_nil_of_right_ne_nil older (List.cons_ne_nil _ _) hedits.symm
    refine ⟨[({ tag with id := tag.id - first }, payload)], ?_, ?_⟩
    · rw [traverseFiltered, hout, hnone, if_pos hselect, hfilters.removal hremoval, if_pos hend,
        editsOf_cons, hedits, hend, List.singleton_append, selected, selected,
        window_cons_of_no_put first last _ hno]
      dsimp only
      rw [if_pos ⟨hfirst, hlt⟩, hcopies.data tag payload hwf.type_ne hfirst hlt]
      rfl
    · intro attr hattr
      rw [List.mem_singleton.mp hattr, editsOf_cons, hedits, hend]
      exact ⟨[], tag.id, rfl, hfirst, rfl, hremoval,
        ⟨hwf.type_lt, hwf.type_ne, hwf.not_from, hwf.removal, hwf.splice⟩, hput⟩
  · apply hrest.skip hedits hno
    rw [traverseFiltered, hfilters.removal hremoval]
    split
    · rename_i hselect
      split
      · rfl
      · rename_i result hresult
        split at hresult
        · rename_i hend
          cases hresult
          rw [if_neg fun hrange => hlast ⟨hselect, hend, hrange⟩, List.nil_append]
        · cases hresult
    · rfl

/-- One more tag in front of a traversal. -/
theorem Keeps.cons (hcopies : Copies tmask ttag first last process place) {mattr : Mattr}
    (hmattr : Plain mattr) (hfilters : mattr.tag.type &&& 0x400 = 0 → Filters disk mattr.tag rest)
    (hrest : Keeps disk tmask ttag first last process place rest) :
    Keeps disk tmask ttag first last process place (mattr :: rest) := by
  cases hmattr with
  | @noop tag buffer htype =>
      have hfilters := hfilters (by rw [htype]; rfl)
      obtain ⟨removals, hout, hremovals⟩ := hrest
      refine ⟨removals, ?_, ?_⟩
      · rw [traverseFiltered, hout, editsOf_cons, mattrEdits_noop disk _ htype]
        split
        · rename_i hselect
          cases hresult : filterRest tag rest with
          | none => rfl
          | some result =>
              have htype' := (hfilters.type result hresult).trans htype
              have hselect' : result.type &&& tmask = ttag &&& tmask := by
                rw [hfilters.type result hresult]
                exact hselect
              dsimp only
              rw [hcopies.noop result buffer htype' hselect', ite_self]
              rfl
        · rfl
      · rw [editsOf_cons, mattrEdits_noop disk _ htype]
        exact hremovals
  | @data tag payload hwf =>
      by_cases hput : tag.type &&& 0x400 = 0
      · cases hremoval : tag.isdelete with
        | false => exact hrest.cons_put hcopies hwf hput hremoval (hfilters hput)
        | true => exact hrest.cons_removal hcopies hwf hput hremoval (hfilters hput)
      · apply hrest.skip (mattrEdits_data disk payload hwf)
        · intro index key value hputs
          rcases hwf.cases with ⟨hcreate, -⟩ | hdelete | h | ⟨hhigh, hsplice⟩
          · rw [editOf_create (tag, payload) hcreate] at hputs
            cases hputs
          · rw [editOf_delete (tag, payload) hdelete] at hputs
            cases hputs
          · exact hput h
          · rw [editOf_skip (tag, payload) hhigh hsplice] at hputs
            cases hputs
        · have hmask : ¬(tag.type &&& tmask = ttag &&& tmask) := fun h => hput (hcopies.low _ h)
          rw [traverseFiltered, if_neg hmask, List.nil_append]

theorem keeps_plain (hcopies : Copies tmask ttag first last process place)
    (hplain : ∀ mattr ∈ rest, Plain mattr) :
    Keeps disk tmask ttag first last process place rest := by
  induction rest with
  | nil => exact keeps_nil
  | cons mattr rest ih =>
      obtain ⟨hmattr, hrest⟩ := List.forall_mem_cons.mp hplain
      exact (ih hrest).cons hcopies hmattr fun _ => filters_plain disk hrest _

end

/-! ## The table of a compacted block -/

theorem Cell.at_editOf {cell : Cell} (index : ℕ) (hput : cell.type &&& 0x400 = 0)
    (hlive : cell.size ≠ 0x3ff) :
    editOf (cell.at index) = .put index (slotOf cell.type) (some cell) := by
  rw [editOf_put (cell.at index) hput]
  simp [Cell.at, Tag.isdelete, hlive]

/-- Every value goes to the slot of its tag. -/
def Slotted (edits : List (Edit ℕ Cell)) : Prop :=
  ∀ index key cell, Edit.put index key (some cell) ∈ edits →
    key = slotOf cell.type ∧ ∀ id, SlotTag ⟨cell.type, id, cell.size⟩

theorem Slotted.append {edits more : List (Edit ℕ Cell)} (hedits : Slotted edits)
    (hmore : Slotted more) : Slotted (edits ++ more) := fun index key cell hmem =>
  (List.mem_append.mp hmem).elim (hedits index key cell) (hmore index key cell)

theorem slotted_mattrEdits (disk : Block → BlockImage) {mattr : Mattr} (hmattr : Plain mattr) :
    Slotted (mattrEdits disk mattr) := by
  intro index key cell hmem
  cases hmattr with
  | noop htype =>
      rw [mattrEdits_noop disk _ htype] at hmem
      cases hmem
  | @data tag payload hwf =>
      rw [mattrEdits_data disk payload hwf, List.mem_singleton] at hmem
      rcases hwf.cases with ⟨hcreate, -⟩ | hdelete | hput | ⟨hhigh, hsplice⟩
      · rw [editOf_create (tag, payload) hcreate] at hmem
        cases hmem
      · rw [editOf_delete (tag, payload) hdelete] at hmem
        cases hmem
      · rw [editOf_put (tag, payload) hput] at hmem
        cases hremoval : tag.isdelete with
        | true => simp [hremoval] at hmem
        | false =>
            simp only [hremoval, Bool.false_eq_true, if_false, Edit.put.injEq,
              Option.some.injEq] at hmem
            obtain ⟨rfl, rfl, rfl⟩ := hmem
            exact ⟨rfl, fun id => ⟨⟨hwf.type_lt, hwf.type_ne, hwf.not_from, hwf.removal,
              hwf.splice⟩, hput, hremoval⟩⟩
      · rw [editOf_skip (tag, payload) hhigh hsplice] at hmem
        cases hmem

theorem slotted_plain (disk : Block → BlockImage) {mattrs : List Mattr}
    (hplain : ∀ mattr ∈ mattrs, Plain mattr) : Slotted (editsOf disk mattrs) := by
  induction mattrs with
  | nil => exact fun _ _ _ h => absurd h List.not_mem_nil
  | cons mattr mattrs ih =>
      obtain ⟨hmattr, hmattrs⟩ := List.forall_mem_cons.mp hplain
      rw [editsOf_cons]
      exact (slotted_mattrEdits disk hmattr).append (ih hmattrs)

theorem slotted_log {log : List Attr} (hlog : LogWf log) : Slotted (log.map editOf) := by
  have hplain : ∀ mattr ∈ log.map diskMattr, Plain mattr := by
    intro mattr hmattr
    obtain ⟨attr, hattr, rfl⟩ := List.mem_map.mp hmattr
    exact plain_diskMattr (hlog attr hattr)
  have hslotted := slotted_plain (fun _ => {}) hplain
  rw [editsOf_diskMattr _ hlog] at hslotted
  exact hslotted

theorem Slotted.map_editOf {edits : List (Edit ℕ Cell)} (hslotted : Slotted edits)
    (first last : ℕ) : ((window first last edits).map cellAttr).map editOf =
      (window first last edits).map toPut := by
  rw [List.map_map]
  apply List.map_congr_left
  intro entry hmem
  obtain ⟨index, key, cell⟩ := entry
  obtain ⟨j, hput⟩ := exists_put_of_mem_window hmem
  obtain ⟨rfl, hslot⟩ := hslotted j key cell hput
  have hlive : cell.size ≠ 0x3ff := by
    have := (hslot 0).live
    simpa [Tag.isdelete] using this
  exact Cell.at_editOf index (hslot 0).put hlive

/-- Names, structs and attributes are all that a log puts. -/
theorem Slotted.selected_eq {edits : List (Edit ℕ Cell)} (hslotted : Slotted edits)
    (first last : ℕ) : selected 0x400 tyName first last edits = window first last edits := by
  apply List.filter_eq_self.mpr
  intro entry hmem
  obtain ⟨index, key, cell⟩ := entry
  obtain ⟨j, hput⟩ := exists_put_of_mem_window hmem
  exact decide_eq_true ((hslotted j key cell hput).2 0).put

/-- Replaying removal marks of empty slots changes nothing. -/
theorem replay_removals {table : Table ℕ Cell} {removals : List Attr}
    (hremovals : ∀ attr ∈ removals, editOf attr = .put attr.1.id (slotOf attr.1.type) none ∧
      table attr.1.id (slotOf attr.1.type) = none) :
    replay table (removals.map editOf) = table := by
  induction removals with
  | nil => rfl
  | cons attr removals ih =>
      obtain ⟨⟨hedit, hempty⟩, hrest⟩ := List.forall_mem_cons.mp hremovals
      have happly : (editOf attr).apply table = table := by
        rw [hedit]
        funext i key
        simp only [Edit.apply]
        split_ifs with h
        · rw [h.1, h.2, hempty]
        · rfl
      rw [List.map_cons, replay_cons, happly, ih hrest]

theorem Removal.editOf {first : ℕ} {edits : List (Edit ℕ Cell)} {attr : Attr}
    (hremoval : Removal first edits attr) :
    editOf attr = .put attr.1.id (slotOf attr.1.type) none := by
  obtain ⟨-, -, -, -, -, hdelete, -, hput⟩ := hremoval
  rw [editOf_put attr hput, if_pos hdelete]

theorem Removal.replay_eq_none {first : ℕ} {edits : List (Edit ℕ Cell)} {attr : Attr}
    (hremoval : Removal first edits attr) :
    replay blank edits (first + attr.1.id) (slotOf attr.1.type) = none := by
  obtain ⟨older, index, rfl, hfirst, hid, -, -, -⟩ := hremoval
  have hindex : first + (index - first) = index := by omega
  rw [replay_append, replay_cons, replay_nil, Edit.apply, hid, hindex]
  exact if_pos ⟨rfl, rfl⟩

section

variable {disk : Block → BlockImage} {first last : ℕ} {process : Tag → Buffer → List Attr}
  {mattrs : List Mattr}

theorem Keeps.eq (hkeeps : Keeps disk 0x400 tyName first last process id mattrs)
    (hslotted : Slotted (editsOf disk mattrs)) :
    ∃ removals, traverseFiltered 0x400 tyName first last process mattrs =
        (window first last (editsOf disk mattrs)).map cellAttr ++ removals ∧
      ∀ attr ∈ removals, Removal first (editsOf disk mattrs) attr := by
  obtain ⟨removals, hout, hremovals⟩ := hkeeps
  have hplaced : placed id = id := rfl
  refine ⟨removals, ?_, hremovals⟩
  rw [hout, hslotted.selected_eq, hplaced, List.map_id]

/-- What the compaction of `[first, last)` writes replays to those entries. -/
theorem Keeps.tableOf (hkeeps : Keeps disk 0x400 tyName first last process id mattrs)
    (hslotted : Slotted (editsOf disk mattrs)) (index slot : ℕ) :
    tableOf (traverseFiltered 0x400 tyName first last process mattrs) index slot =
      if first + index < last then
        replay blank (editsOf disk mattrs) (first + index) slot
      else none := by
  obtain ⟨removals, hout, hremovals⟩ := hkeeps.eq hslotted
  have hcells := replay_window first last (editsOf disk mattrs)
  rw [hout, Littlefs.tableOf, List.map_append, replay_append, hslotted.map_editOf, replay_removals,
    hcells]
  intro attr hattr
  have hremoval := hremovals attr hattr
  refine ⟨hremoval.editOf, ?_⟩
  rw [hcells, hremoval.replay_eq_none, ite_self]

theorem Keeps.logWf (hkeeps : Keeps disk 0x400 tyName first last process id mattrs)
    (hslotted : Slotted (editsOf disk mattrs)) :
    LogWf (traverseFiltered 0x400 tyName first last process mattrs) := by
  obtain ⟨removals, hout, hremovals⟩ := hkeeps.eq hslotted
  rw [hout]
  intro attr hattr
  apply (List.mem_append.mp hattr).elim
  · intro hcell
    obtain ⟨⟨index, key, cell⟩, hmem, rfl⟩ := List.mem_map.mp hcell
    obtain ⟨j, hput⟩ := exists_put_of_mem_window hmem
    exact ((hslotted j key cell hput).2 index).wf
  · intro hremoval
    obtain ⟨-, -, -, -, -, -, hwf, -⟩ := hremovals attr hremoval
    exact hwf

end

end Littlefs
