import Littlefs.Compaction

/-!
# Moved entries in a traversal

`LFS_FROM_MOVE` stands for the struct and the attributes of an entry of another
directory.  The filter of `lfs_dir_traverse` passes over it: the entry it fills
was created just before, so no earlier tag belongs to it.
-/

namespace Littlefs

open Edits

/-! ## The tags of the moved entry -/

/-- The struct and the attributes of entry `fromid`. -/
def movedCells (disk : Block → BlockImage) (source : Mdir) (fromid : ℕ) : List (ℕ × Cell) :=
  (selected 0x600 tyStruct fromid (fromid + 1) (editsOf disk (mdirMattrs disk source))).map Prod.snd

section

variable {disk : Block → BlockImage} {source : Mdir} {fromid : ℕ}

theorem copies_dispatchTag {toid place : ℕ} {diff : ℤ} (hplace : (place : ℤ) = toid + diff) :
    Copies 0x600 tyStruct fromid (fromid + 1) (dispatchTag ((toid : ℤ) - fromid + diff))
      (fun _ => place) where
  low type h := by
    have hbits := congrArg (· &&& 0x400) h
    simp only [Nat.and_assoc] at hbits
    exact hbits
  noop tag buffer htype h := by
    rw [htype] at h
    exact absurd h (by decide)
  data tag payload _ hfirst hlast := by
    have hid : ((tag.id : ℤ) + ((toid : ℤ) - fromid + diff)).toNat = place := by omega
    rw [dispatchTag, Tag.shift_of_nonneg (by omega), hid]

/-- The checksum behind the last tag drops the removal marks. -/
theorem removal_mdirMattrs {attr : Attr}
    (hremoval : Removal fromid (editsOf disk (mdirMattrs disk source)) attr) : False := by
  obtain ⟨older, index, hedits, -⟩ := hremoval
  rcases editsOf_mdirMattrs_end disk source with hnil | ⟨others, hskip⟩
  · rw [hnil] at hedits
    exact List.append_ne_nil_of_right_ne_nil older (List.cons_ne_nil _ _) hedits.symm
  · rw [hskip] at hedits
    have hlast := (List.append_inj' hedits rfl).2
    cases hlast

theorem traverseMove_eq (hsource : LogWf (mdirLog disk source)) {toid place : ℕ} {diff : ℤ}
    (hplace : (place : ℤ) = toid + diff) :
    traverseMove disk source fromid toid diff =
      (movedCells disk source fromid).map fun cell => cell.2.at place := by
  have hkeeps : Keeps disk 0x600 tyStruct fromid (fromid + 1)
      (dispatchTag ((toid : ℤ) - fromid + diff)) (fun _ => place) (mdirMattrs disk source) :=
    keeps_plain (copies_dispatchTag hplace) (plain_mdirMattrs hsource)
  obtain ⟨removals, hout, hremovals⟩ := hkeeps
  have hnone : removals = [] := List.eq_nil_iff_forall_not_mem.mpr fun attr hattr =>
    removal_mdirMattrs (hremovals attr hattr)
  rw [traverseMove, hout, hnone, List.append_nil, movedCells, List.map_map, List.map_map]
  rfl

theorem mem_movedCells (hsource : LogWf (mdirLog disk source)) (key : ℕ) (cell : Cell) :
    (key, cell) ∈ movedCells disk source fromid ↔
      tableOf (mdirLog disk source) fromid key = some cell ∧ cell.type &&& 0x600 = tyStruct := by
  have htable : replay blank (editsOf disk (mdirMattrs disk source)) =
      tableOf (mdirLog disk source) := replay_mdirMattrs disk hsource blank
  rw [movedCells, List.mem_map]
  constructor
  · intro hmem
    obtain ⟨⟨index, key', cell'⟩, hentry, heq⟩ := hmem
    cases heq
    obtain ⟨hwindow, hselect⟩ := List.mem_filter.mp hentry
    obtain ⟨hlt, hreplay⟩ := (mem_window _ _ _ _ _ _).mp hwindow
    have hindex : fromid + index = fromid := by omega
    rw [hindex, htable] at hreplay
    exact ⟨hreplay, of_decide_eq_true hselect⟩
  · intro hmem
    refine ⟨(0, key, cell), List.mem_filter.mpr ⟨?_, decide_eq_true hmem.2⟩, rfl⟩
    rw [mem_window, htable]
    exact ⟨Nat.lt_succ_self _, hmem.1⟩

theorem movedCells_apart :
    (movedCells disk source fromid).Pairwise fun left right => left.1 ≠ right.1 := by
  have hwindow := window_apart fromid (fromid + 1) (editsOf disk (mdirMattrs disk source))
  have hfirst : ∀ entry ∈ selected 0x600 tyStruct fromid (fromid + 1)
      (editsOf disk (mdirMattrs disk source)), entry.1 = 0 := by
    intro entry hentry
    obtain ⟨index, key, cell⟩ := entry
    obtain ⟨hlt, -⟩ := (mem_window _ _ _ _ _ _).mp (List.mem_of_mem_filter hentry)
    change index = 0
    omega
  have hselected : (selected 0x600 tyStruct fromid (fromid + 1)
      (editsOf disk (mdirMattrs disk source))).Pairwise OtherCell := List.Pairwise.filter _ hwindow
  rw [movedCells, List.pairwise_map]
  apply hselected.imp_of_mem
  intro left right hleft hright hapart
  exact hapart ((hfirst left hleft).trans (hfirst right hright).symm)

/-- The moved values go to the slots of their tags. -/
theorem slotted_movedCells (hsource : LogWf (mdirLog disk source)) {key : ℕ} {cell : Cell}
    (hmem : (key, cell) ∈ movedCells disk source fromid) :
    key = slotOf cell.type ∧ ∀ id, SlotTag ⟨cell.type, id, cell.size⟩ := by
  obtain ⟨entry, hentry, heq⟩ := List.mem_map.mp hmem
  obtain ⟨index, key', cell'⟩ := entry
  cases heq
  obtain ⟨j, hput⟩ := exists_put_of_mem_window (List.mem_of_mem_filter hentry)
  exact slotted_plain disk (plain_mdirMattrs hsource) j key cell hput

theorem mattrEdits_move (hsource : LogWf (mdirLog disk source)) {id : ℕ} :
    mattrEdits disk ⟨⟨fromMove, id, fromid⟩, .mdir source⟩ =
      ((movedCells disk source fromid).map (Prod.mk id)).map toPut := by
  have hplace : (id : ℤ) = id + 0 := by omega
  rw [mattrEdits, processTag_move _ _ _ rfl, traverseMove_eq hsource hplace, List.map_map,
    List.map_map]
  apply List.map_congr_left
  intro entry hmem
  obtain ⟨key, cell⟩ := entry
  obtain ⟨rfl, hslot⟩ := slotted_movedCells hsource hmem
  have hlive : cell.size ≠ 0x3ff := by
    have := (hslot 0).live
    simpa [Tag.isdelete] using this
  exact Cell.at_editOf id (hslot 0).put hlive

/-- A moved value is a struct or an attribute. -/
theorem and_of_mem_movedCells (hsource : LogWf (mdirLog disk source)) {entry : ℕ × Cell}
    (hmem : entry ∈ movedCells disk source fromid) : entry.1 &&& 0x600 = tyStruct := by
  obtain ⟨key, cell⟩ := entry
  obtain ⟨rfl, -⟩ := slotted_movedCells hsource hmem
  have htype := ((mem_movedCells hsource _ _).mp hmem).2
  change slotOf cell.type &&& 0x600 = tyStruct
  rw [slotOf_and _ _ rfl]
  exact htype

end

/-! ## Lists with moves -/

/-- The name of a new entry. -/
structure NameTag (id : ℕ) (tag : Tag) : Prop where
  wf : TagWf tag
  name : tag.type &&& 0x700 = tyName
  id_eq : tag.id = id

/-- Attribute lists in which a move comes right after the entry it fills, and
leaves nothing of it to later attributes. -/
inductive Written (disk : Block → BlockImage) : List Mattr → Prop
  | nil : Written disk []
  | plain {mattr : Mattr} {rest : List Mattr} (hmattr : Plain mattr) (hrest : Written disk rest) :
      Written disk (mattr :: rest)
  | move {id fromid : ℕ} {name : Tag} {created payload : Payload} {source : Mdir}
      {rest : List Mattr} (hname : NameTag id name) (hsource : LogWf (mdirLog disk source))
      (hfrom : fromid ≠ 0x3ff) (hlater : ∀ mattr ∈ rest, mattr.tag.type &&& 0x600 ≠ tyStruct)
      (hrest : Written disk rest) :
      Written disk (⟨⟨tyCreate, id, 0⟩, .data created⟩ :: ⟨name, .data payload⟩ ::
        ⟨⟨fromMove, id, fromid⟩, .mdir source⟩ :: rest)

theorem Written.of_plain {disk : Block → BlockImage} {mattrs rest : List Mattr}
    (hplain : ∀ mattr ∈ mattrs, Plain mattr) (hrest : Written disk rest) :
    Written disk (mattrs ++ rest) := by
  induction mattrs with
  | nil => exact hrest
  | cons mattr mattrs ih =>
      obtain ⟨hmattr, hmattrs⟩ := List.forall_mem_cons.mp hplain
      exact .plain hmattr (ih hmattrs)

theorem NameTag.put {id : ℕ} {tag : Tag} (hname : NameTag id tag) : tag.type &&& 0x400 = 0 := by
  rw [and_type1 _ 0x400 rfl, hname.name]
  rfl

theorem NameTag.live {id : ℕ} {tag : Tag} (hname : NameTag id tag) : tag.isdelete = false := by
  cases hdelete : tag.isdelete with
  | false => rfl
  | true =>
      have htype := hname.wf.removal hdelete
      rw [hname.name] at htype
      cases htype

theorem NameTag.slot {id : ℕ} {tag : Tag} (hname : NameTag id tag) :
    slotOf tag.type = nameSlot := by
  have hbit : tag.type &&& 0x100 = 0 := by
    rw [and_type1 _ 0x100 rfl, hname.name]
    rfl
  rw [slotOf, if_neg (not_not_intro hbit), hname.name]
  rfl

theorem NameTag.edit {id : ℕ} {tag : Tag} (hname : NameTag id tag) (payload : Payload) :
    editOf (tag, payload) = .put id nameSlot (some ⟨tag.type, tag.size, payload⟩) := by
  rw [editOf_put (tag, payload) hname.put, hname.slot, hname.id_eq, hname.live]
  rfl

theorem tagWf_create (id : ℕ) : TagWf ⟨tyCreate, id, 0⟩ where
  type_lt := show tyCreate < 0x800 by decide
  type_ne := show tyCreate ≠ fromNoop by decide
  not_from := show tyCreate &&& 0x700 ≠ 0x100 by decide
  removal h := by cases h
  splice _ := Or.inl ⟨rfl, rfl⟩

section

variable {disk : Block → BlockImage} {source : Mdir} {id fromid : ℕ} {name : Tag}
  {created payload : Payload} {rest : List Mattr}

/-- The move passes the values of other entries, and other values of its own. -/
theorem trackAll_move (hsource : LogWf (mdirLog disk source)) {key index : ℕ}
    (hmiss : index = id → key &&& 0x600 ≠ tyStruct) :
    trackAll key (mattrEdits disk ⟨⟨fromMove, id, fromid⟩, .mdir source⟩) index = some index := by
  rw [mattrEdits_move hsource, trackAll_map_toPut, if_neg]
  intro hany
  obtain ⟨entry, hentry, heq⟩ := List.any_eq_true.mp hany
  obtain ⟨moved, hmoved, rfl⟩ := List.mem_map.mp hentry
  obtain ⟨hindex, hkey⟩ := of_decide_eq_true heq
  apply hmiss hindex.symm
  rw [← hkey]
  exact and_of_mem_movedCells hsource hmoved

theorem filters_move (hsource : LogWf (mdirLog disk source)) {filtertag : Tag}
    (hlive : filtertag.isdelete = false)
    (hmiss : filtertag.id = id → filtertag.type &&& 0x600 ≠ tyStruct)
    (hrest : Filters disk filtertag rest) :
    Filters disk filtertag (⟨⟨fromMove, id, fromid⟩, .mdir source⟩ :: rest) := by
  constructor
  · rw [filterRest_move _ _ _ rfl]
    exact hrest.type
  · intro hfollowed
    rw [filterRest_move _ _ _ rfl, editsOf_cons, trackAll_append, trackAll_move hsource]
    · exact hrest.follows hfollowed
    · rw [slotOf_and _ _ rfl]
      exact hmiss
  · intro hremoval
    rw [hlive] at hremoval
    cases hremoval

/-- No tag in front belongs to an entry that is created. -/
theorem lfsDirTraverseFilter_create {filtertag result : Tag}
    (hresult : lfsDirTraverseFilter filtertag ⟨tyCreate, id, 0⟩ = some result) :
    result.id ≠ id ∧ result.isdelete = false := by
  have hsplice : (⟨tyCreate, id, 0⟩ : Tag).type1 = tySplice := show tyCreate &&& 0x700 = _ by decide
  have hone : (⟨tyCreate, id, 0⟩ : Tag).splice = 1 := Tag.splice_create _ rfl
  unfold lfsDirTraverseFilter at hresult
  generalize (if (⟨tyCreate, id, 0⟩ : Tag).type &&& 0x100 ≠ 0 then 0x7ff else 0x700) =
    mask at hresult
  dsimp only at hresult
  split at hresult
  · cases hresult
  · rename_i hkeep
    have hlive : filtertag.isdelete = false := by
      apply Bool.eq_false_iff.mpr
      exact fun h => hkeep (Or.inr (Or.inl h))
    split at hresult
    · rename_i hle
      rw [hone, Tag.shift_of_nonneg (by omega)] at hresult
      cases hresult
      have hle' : id ≤ filtertag.id := hle.2
      exact ⟨by dsimp only; omega, hlive⟩
    · rename_i hgt
      cases hresult
      have hlt : ¬id ≤ filtertag.id := fun h => hgt ⟨hsplice, h⟩
      exact ⟨by omega, hlive⟩

theorem filters_created (hname : NameTag id name) (hsource : LogWf (mdirLog disk source))
    (hrest : ∀ tag, Filters disk tag rest) (filtertag : Tag) :
    Filters disk filtertag (⟨⟨tyCreate, id, 0⟩, .data created⟩ :: ⟨name, .data payload⟩ ::
      ⟨⟨fromMove, id, fromid⟩, .mdir source⟩ :: rest) := by
  apply filters_data created (tagWf_create id)
  intro result hcreate
  obtain ⟨hne, hlive⟩ := lfsDirTraverseFilter_create hcreate
  apply filters_data payload hname.wf
  intro result' hfilter
  have hsame : result' = result := by
    have hsplice : ¬(name.type1 = tySplice ∧ name.id ≤ result.id) := fun h =>
      type1_ne_of_put hname.put h.1
    unfold lfsDirTraverseFilter at hfilter
    generalize (if name.type &&& 0x100 ≠ 0 then 0x7ff else 0x700) = mask at hfilter
    dsimp only at hfilter
    rw [if_neg hsplice] at hfilter
    split at hfilter
    · cases hfilter
    · exact (Option.some.inj hfilter).symm
  rw [hsame]
  exact filters_move hsource hlive (fun h => absurd h hne) (hrest result)

theorem Written.filters (hwritten : Written disk rest) (tag : Tag) : Filters disk tag rest := by
  induction hwritten generalizing tag with
  | nil => exact filters_nil disk tag
  | plain hmattr _ ih => exact filters_cons hmattr ih tag
  | move hname hsource _ _ _ ih => exact filters_created hname hsource ih tag

theorem slotted_move (hsource : LogWf (mdirLog disk source)) :
    Slotted (mattrEdits disk ⟨⟨fromMove, id, fromid⟩, .mdir source⟩) := by
  intro index key cell hmem
  rw [mattrEdits_move hsource] at hmem
  obtain ⟨entry, hentry, heq⟩ := List.mem_map.mp hmem
  obtain ⟨moved, hmoved, rfl⟩ := List.mem_map.mp hentry
  cases heq
  exact slotted_movedCells hsource hmoved

theorem Written.slotted (hwritten : Written disk rest) : Slotted (editsOf disk rest) := by
  induction hwritten with
  | nil => exact fun _ _ _ h => absurd h List.not_mem_nil
  | plain hmattr _ ih =>
      rw [editsOf_cons]
      exact (slotted_mattrEdits disk hmattr).append ih
  | @move id _ _ created payload _ _ hname hsource _ _ _ ih =>
      rw [editsOf_cons, editsOf_cons, editsOf_cons]
      apply (slotted_mattrEdits disk (.data (tagWf_create id))).append
      apply (slotted_mattrEdits disk (.data hname.wf)).append
      exact (slotted_move hsource).append ih

/-! ## Nothing behind a move belongs to its entry -/

theorem track_of_ne {attr : Attr} (hattr : TagWf attr.1) {key index : ℕ}
    (hne : attr.1.type &&& 0x400 = 0 → slotOf attr.1.type ≠ key) :
    (editOf attr).track index key = (editOf attr).track index fromMove := by
  rcases hattr.cases with ⟨hcreate, -⟩ | hdelete | hput | ⟨hhigh, hsplice⟩
  · rw [editOf_create attr hcreate]
    rfl
  · rw [editOf_delete attr hdelete]
    rfl
  · have hfrom : slotOf attr.1.type ≠ fromMove := by
      intro h
      have hbits := congrArg (· &&& 0x700) h
      simp only [slotOf_and _ 0x700 rfl] at hbits
      exact hattr.not_from hbits
    rw [editOf_put attr hput, Edit.track, Edit.track, if_neg fun h => hne hput h.2,
      if_neg fun h => hfrom h.2]
  · rw [editOf_skip attr hhigh hsplice]
    rfl

/-- The values of an entry stay together behind the last tag that sets one of them. -/
theorem Written.trackAll_eq (hwritten : Written disk rest)
    (hlater : ∀ mattr ∈ rest, mattr.tag.type &&& 0x600 ≠ tyStruct) {key : ℕ}
    (hkey : key &&& 0x600 = tyStruct) (index : ℕ) :
    trackAll key (editsOf disk rest) index = trackAll fromMove (editsOf disk rest) index := by
  induction hwritten generalizing index with
  | nil => rfl
  | @plain mattr rest hmattr _ ih =>
      obtain ⟨hhead, htail⟩ := List.forall_mem_cons.mp hlater
      rw [editsOf_cons]
      cases hmattr with
      | noop htype =>
          rw [mattrEdits_noop disk _ htype]
          exact ih htail index
      | @data tag payload hwf =>
          have hne : slotOf tag.type ≠ key := by
            intro h
            have hbits := congrArg (· &&& 0x600) h
            simp only [slotOf_and _ 0x600 rfl, hkey] at hbits
            exact hhead hbits
          have hstep : (editOf (tag, payload)).track index key =
              (editOf (tag, payload)).track index fromMove := track_of_ne hwf fun _ => hne
          rw [mattrEdits_data disk payload hwf, List.singleton_append, trackAll, trackAll, hstep]
          congr 1
          funext next
          exact ih htail next
  | @move id fromid name created payload source rest hname hsource hfrom _ _ ih =>
      have htail : ∀ mattr ∈ rest, mattr.tag.type &&& 0x600 ≠ tyStruct := fun mattr hmem =>
        hlater mattr (List.mem_cons_of_mem _ (List.mem_cons_of_mem _ (List.mem_cons_of_mem _ hmem)))
      rw [editsOf_cons, editsOf_cons, editsOf_cons, mattrEdits_data disk created (tagWf_create id),
        mattrEdits_data disk payload hname.wf, List.singleton_append, List.singleton_append,
        hname.edit, editOf_create _ rfl]
      have hblock : ∀ key, trackAll key (.insert id :: .put id nameSlot
          (some ⟨name.type, name.size, payload⟩) ::
            (mattrEdits disk ⟨⟨fromMove, id, fromid⟩, .mdir source⟩ ++ editsOf disk rest)) index =
          trackAll key (editsOf disk rest) (if id ≤ index then index + 1 else index) := by
        intro key
        have hne : (if id ≤ index then index + 1 else index) ≠ id := by
          split_ifs <;> omega
        rw [trackAll, Edit.track, Option.bind_some, trackAll, Edit.track,
          if_neg fun h => hne h.1.symm,
          Option.bind_some, trackAll_append, trackAll_move hsource fun h => absurd h hne,
          Option.bind_some]
      rw [hblock, hblock]
      exact ih htail _

/-! ## The compaction -/

theorem keeps_move (hsource : LogWf (mdirLog disk source)) (hfrom : fromid ≠ 0x3ff)
    (hwritten : Written disk rest) (hlater : ∀ mattr ∈ rest, mattr.tag.type &&& 0x600 ≠ tyStruct)
    {first last : ℕ}
    (hrest : Keeps disk 0x400 tyName first last (processTag disk (-(first : ℤ)))
      (fun id => id) rest) :
    Keeps disk 0x400 tyName first last (processTag disk (-(first : ℤ))) (fun id => id)
      (⟨⟨fromMove, id, fromid⟩, .mdir source⟩ :: rest) := by
  obtain ⟨removals, hout, hremovals⟩ := hrest
  have hslotted := (slotted_move hsource : Slotted
    (mattrEdits disk ⟨⟨fromMove, id, fromid⟩, .mdir source⟩)).append hwritten.slotted
  have hfollowed : Followed ⟨fromMove, id, fromid⟩ :=
    ⟨show fromMove < 0x800 by decide, show fromMove &&& 0x400 = 0 by decide, by
      simpa [Tag.isdelete] using hfrom⟩
  have hslot : slotOf fromMove = fromMove := by decide
  have hselect : fromMove &&& 0x400 = tyName &&& 0x400 := by decide
  have hplaced : placed (fun id => id) = fun attr => attr := rfl
  have hmoved : ∀ cell ∈ movedCells disk source fromid,
      trackAll cell.1 (editsOf disk rest) id = trackAll fromMove (editsOf disk rest) id :=
    fun cell hcell => hwritten.trackAll_eq hlater (and_of_mem_movedCells hsource hcell) id
  refine ⟨removals, ?_, fun attr hattr => ?_⟩
  · rw [traverseFiltered, hout, editsOf_cons, hslotted.selected_eq, hwritten.slotted.selected_eq,
      mattrEdits_move hsource, window_append_record first last id movedCells_apart hmoved,
      hplaced, List.map_id', List.map_id', List.map_append, List.append_assoc]
    congr 1
    rw [if_pos hselect, (hwritten.filters _).follows hfollowed, hslot]
    cases trackAll fromMove (editsOf disk rest) id with
    | none => rfl
    | some index =>
        dsimp only [Option.map_some, Option.elim_some]
        split_ifs with hrange
        · have hplace : ((index - first : ℕ) : ℤ) = index + -(first : ℤ) := by omega
          rw [processTag_move _ _ _ rfl, traverseMove_eq hsource hplace, List.map_map]
          rfl
        · rfl
  · rw [editsOf_cons]
    exact (hremovals attr hattr).append _

theorem Written.keeps (hwritten : Written disk rest) (first last : ℕ) :
    Keeps disk 0x400 tyName first last (processTag disk (-(first : ℤ))) (fun id => id) rest := by
  have hcopies := copies_processTag disk first last
  induction hwritten with
  | nil => exact keeps_nil
  | plain hmattr hrest ih => exact ih.cons hcopies hmattr fun _ => hrest.filters _
  | @move id fromid name created payload source rest hname hsource hfrom hlater hrest ih =>
      have hmove : Keeps disk 0x400 tyName first last _ _
          (⟨⟨fromMove, id, fromid⟩, .mdir source⟩ :: rest) :=
        keeps_move hsource hfrom hrest hlater ih
      have hnameSlot : name.type &&& 0x600 ≠ tyStruct := by
        intro h
        have hbits := congrArg (· &&& 0x200) h
        simp only [Nat.and_assoc] at hbits
        rw [and_type1 _ _ rfl, hname.name] at hbits
        exact absurd hbits (by decide)
      have hnamed := hmove.cons hcopies (.data hname.wf : Plain ⟨name, .data payload⟩) fun _ =>
        filters_move hsource hname.live (fun _ => hnameSlot) (hrest.filters name)
      apply hnamed.cons hcopies (.data (tagWf_create id))
      intro hlow
      exact absurd hlow (show tyCreate &&& 0x400 ≠ 0 by decide)

/-- The entries of `[first, last)`, counted from `first`. -/
def Table.window (first last : ℕ) (table : Table ℕ Cell) : Table ℕ Cell := fun index slot =>
  if first + index < last then table (first + index) slot else none

variable {attrs : List Mattr}

theorem written_traverseCompact (hlog : LogWf (mdirLog disk source)) (hattrs : Written disk attrs) :
    Written disk (mdirMattrs disk source ++ attrs) :=
  .of_plain (plain_mdirMattrs hlog) hattrs

theorem tableOf_traverseCompact (hlog : LogWf (mdirLog disk source)) (hattrs : Written disk attrs)
    (first last : ℕ) : tableOf (traverseCompact disk source attrs first last) =
      Table.window first last (replay (tableOf (mdirLog disk source)) (editsOf disk attrs)) := by
  have hwritten := written_traverseCompact hlog hattrs
  funext index slot
  rw [traverseCompact]
  apply ((hwritten.keeps first last).tableOf hwritten.slotted index slot).trans
  rw [editsOf_append, replay_append, replay_mdirMattrs disk hlog]
  rfl

theorem logWf_traverseCompact (hlog : LogWf (mdirLog disk source)) (hattrs : Written disk attrs)
    (first last : ℕ) : LogWf (traverseCompact disk source attrs first last) := by
  have hwritten := written_traverseCompact hlog hattrs
  exact (hwritten.keeps first last).logWf hwritten.slotted

end

end Littlefs
