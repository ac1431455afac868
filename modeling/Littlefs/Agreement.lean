import Littlefs.Conserved
import Littlefs.Moving

/-!
# Appending and compacting mean the same

Both ways of a commit leave the entries of the directory with the attributes
applied in order.  The append writes the attributes behind the old tags, which a
lookup searches backwards; the compaction writes each live value once.
-/

namespace Littlefs

open Edits Program

/-! ## The lists of the callers -/

/-- A hard tail leads to a pair, and the end of the list is written one way. -/
def TailWf (split : Bool) (tail : Pair) : Prop :=
  lfsPairIsnull tail = true → tail = (blockNull, blockNull) ∧ split = false

/-- The attribute lists that the callers of a commit build for a directory of
`count` entries, `LFS_FROM_USERATTRS` aside: an entry is created together with its
name, and filled by a move right away or not at all. -/
inductive Listed (disk : Block → BlockImage) : ℕ → List Mattr → Prop
  | nil {count : ℕ} : Listed disk count []
  | noop {count : ℕ} {tag : Tag} {buffer : Buffer} {rest : List Mattr}
      (htype : tag.type = fromNoop) (hrest : Listed disk count rest) :
      Listed disk count (⟨tag, buffer⟩ :: rest)
  | create {count id : ℕ} {name : Tag} {created payload : Payload} {rest : List Mattr}
      (hid : id ≤ count) (hname : NameTag id name) (hrest : Listed disk (count + 1) rest) :
      Listed disk count (⟨⟨tyCreate, id, 0⟩, .data created⟩ :: ⟨name, .data payload⟩ :: rest)
  | move {count id fromid : ℕ} {name : Tag} {created payload : Payload} {source : Mdir}
      {rest : List Mattr} (hid : id ≤ count) (hname : NameTag id name)
      (hsource : LogWf (mdirLog disk source)) (hfrom : fromid ≠ 0x3ff)
      (hlater : ∀ mattr ∈ rest, mattr.tag.type &&& 0x600 ≠ tyStruct)
      (hrest : Listed disk (count + 1) rest) :
      Listed disk count (⟨⟨tyCreate, id, 0⟩, .data created⟩ :: ⟨name, .data payload⟩ ::
        ⟨⟨fromMove, id, fromid⟩, .mdir source⟩ :: rest)
  | delete {count id : ℕ} {payload : Payload} {rest : List Mattr} (hid : id < count)
      (hrest : Listed disk (count - 1) rest) :
      Listed disk count (⟨⟨tyDelete, id, 0⟩, .data payload⟩ :: rest)
  | put {count : ℕ} {tag : Tag} {payload : Payload} {rest : List Mattr} (hwf : TagWf tag)
      (hkind : tag.type &&& 0x600 = tyStruct) (hid : tag.id < count)
      (hrest : Listed disk count rest) : Listed disk count (⟨tag, .data payload⟩ :: rest)
  | tail {count : ℕ} {split : Bool} {tail : Pair} {rest : List Mattr} (htail : TailWf split tail)
      (hrest : Listed disk count rest) :
      Listed disk count (⟨tailTag split, .data (.pair tail)⟩ :: rest)

theorem tagWf_delete (id : ℕ) : TagWf ⟨tyDelete, id, 0⟩ where
  type_lt := show tyDelete < 0x800 by decide
  type_ne := show tyDelete ≠ fromNoop by decide
  not_from := show tyDelete &&& 0x700 ≠ 0x100 by decide
  removal h := by cases h
  splice _ := Or.inr rfl

theorem tagWf_tailTag (split : Bool) : TagWf (tailTag split) := by
  cases split <;> decide

section

variable {disk : Block → BlockImage} {count : ℕ} {attrs : List Mattr}

theorem Listed.written (hlisted : Listed disk count attrs) : Written disk attrs := by
  induction hlisted with
  | nil => exact .nil
  | noop htype _ ih => exact .plain (.noop htype) ih
  | @create _ id _ _ _ _ _ hname _ ih =>
      exact .plain (.data (tagWf_create id)) (.plain (.data hname.wf) ih)
  | move _ hname hsource hfrom hlater _ ih => exact .move hname hsource hfrom hlater ih
  | @delete _ id _ _ _ _ ih => exact .plain (.data (tagWf_delete id)) ih
  | put hwf _ _ _ ih => exact .plain (.data hwf) ih
  | @tail _ split _ _ _ _ ih => exact .plain (.data (tagWf_tailTag split)) ih

/-! ## What the lists mean -/

/-- What one attribute does to the entries of a directory. -/
def applyEntry (disk : Block → BlockImage) (table : Table ℕ Cell) (mattr : Mattr) : Table ℕ Cell :=
  if mattr.tag.type = fromNoop then table
  else
    match mattr.buffer with
    | .data payload => (editOf (mattr.tag, payload)).apply table
    | .mdir source => fun id slot =>
        if id = mattr.tag.id ∧ slot &&& 0x600 = tyStruct then
          tableOf (mdirLog disk source) mattr.tag.size slot
        else table id slot
    | .attrs list => list.foldl (fun table attr =>
        (Edit.put mattr.tag.id (tyUserattr + attr.type)
          (some ⟨tyUserattr + attr.type, attr.buffer.length,
              .bytes attr.buffer⟩)).apply table) table

theorem applyEntry_noop (disk : Block → BlockImage) (table : Table ℕ Cell) {tag : Tag}
    (buffer : Buffer) (htype : tag.type = fromNoop) :
    applyEntry disk table ⟨tag, buffer⟩ = table := by
  rw [applyEntry, if_pos htype]

theorem applyEntry_data (disk : Block → BlockImage) (table : Table ℕ Cell) {tag : Tag}
    (payload : Payload) (hwf : TagWf tag) :
    applyEntry disk table ⟨tag, .data payload⟩ = (editOf (tag, payload)).apply table := by
  rw [applyEntry, if_neg hwf.type_ne]

theorem replay_mattrEdits_data (disk : Block → BlockImage) (table : Table ℕ Cell) {tag : Tag}
    (payload : Payload) (hwf : TagWf tag) :
    replay table (mattrEdits disk ⟨tag, .data payload⟩) =
      applyEntry disk table ⟨tag, .data payload⟩ := by
  rw [mattrEdits_data disk payload hwf, applyEntry_data disk table payload hwf]
  rfl

/-- The value of a slot has a tag of the slot. -/
theorem slotOf_of_tableOf {log : List Attr} (hlog : LogWf log) {id slot : ℕ} {cell : Cell}
    (hcell : tableOf log id slot = some cell) : slot = slotOf cell.type := by
  obtain ⟨j, hput⟩ := exists_put_of_mem_survivors ((replay_blank_eq_some _ _ _ _).mp hcell)
  exact (slotted_log hlog j slot cell hput).1

/-- A move fills the entry, which has a name only. -/
theorem replay_mattrEdits_move {source : Mdir} (hsource : LogWf (mdirLog disk source))
    {id fromid : ℕ} {table : Table ℕ Cell}
    (hblank : ∀ slot, slot &&& 0x600 = tyStruct → table id slot = none) :
    replay table (mattrEdits disk ⟨⟨fromMove, id, fromid⟩, .mdir source⟩) =
      applyEntry disk table ⟨⟨fromMove, id, fromid⟩, .mdir source⟩ := by
  have hagree : Agree ((movedCells disk source fromid).map (Prod.mk id)) := by
    intro index key left right hleft hright
    obtain ⟨left', hleft', heq⟩ := List.mem_map.mp hleft
    cases heq
    obtain ⟨right', hright', heq⟩ := List.mem_map.mp hright
    cases heq
    have hl := ((mem_movedCells hsource _ _).mp hleft').1
    have hr := ((mem_movedCells hsource _ _).mp hright').1
    exact Option.some.inj (hl.symm.trans hr)
  have hmoved : ∀ index key cell,
      (index, key, cell) ∈ (movedCells disk source fromid).map (Prod.mk id) ↔
        index = id ∧ key &&& 0x600 = tyStruct ∧
          tableOf (mdirLog disk source) fromid key = some cell := by
    intro index key cell
    constructor
    · intro hmem
      obtain ⟨moved, hmem', heq⟩ := List.mem_map.mp hmem
      cases heq
      exact ⟨rfl, and_of_mem_movedCells hsource hmem', ((mem_movedCells hsource _ _).mp hmem').1⟩
    · intro hcell
      obtain ⟨rfl, hkey, hcell⟩ := hcell
      have htype : cell.type &&& 0x600 = tyStruct := by
        rw [slotOf_of_tableOf hsource hcell, slotOf_and _ _ rfl] at hkey
        exact hkey
      exact List.mem_map_of_mem ((mem_movedCells hsource _ _).mpr ⟨hcell, htype⟩)
  have hfrom : fromMove ≠ fromNoop := by decide
  have hspec : applyEntry disk table ⟨⟨fromMove, id, fromid⟩, .mdir source⟩ = fun index slot =>
      if index = id ∧ slot &&& 0x600 = tyStruct then tableOf (mdirLog disk source) fromid slot
      else table index slot := by
    rw [applyEntry, if_neg hfrom]
  rw [hspec, mattrEdits_move hsource]
  funext index slot
  apply Option.ext
  intro cell
  rw [replay_eq_some, mem_survivors_map_toPut hagree, hmoved]
  constructor
  · intro h
    apply h.elim
    · intro hold
      obtain ⟨j, hj, htrack⟩ := hold
      rw [trackAll_map_toPut] at htrack
      split at htrack
      · cases htrack
      · cases htrack
        rw [if_neg]
        · exact hj
        · intro hcell
          rw [hcell.1, hblank slot hcell.2] at hj
          cases hj
    · intro hnew
      rw [if_pos ⟨hnew.1, hnew.2.1⟩]
      exact hnew.2.2
  · intro h
    split at h
    · rename_i hcell
      exact Or.inr ⟨hcell.1, hcell.2, h⟩
    · rename_i hcell
      refine Or.inl ⟨index, h, ?_⟩
      rw [trackAll_map_toPut, if_neg]
      intro hany
      obtain ⟨entry, hentry, heq⟩ := List.any_eq_true.mp hany
      obtain ⟨hindex, hkey⟩ := of_decide_eq_true heq
      obtain ⟨index', key', cell'⟩ := entry
      obtain ⟨hid, hkind, -⟩ := (hmoved _ _ _).mp hentry
      exact hcell ⟨hindex.symm.trans hid, hkey ▸ hkind⟩

theorem Listed.replay (hlisted : Listed disk count attrs) (table : Table ℕ Cell) :
    replay table (editsOf disk attrs) = attrs.foldl (applyEntry disk) table := by
  induction hlisted generalizing table with
  | nil => rfl
  | noop htype _ ih =>
      rw [editsOf_cons, mattrEdits_noop disk _ htype, List.foldl_cons, applyEntry_noop _ _ _ htype]
      exact ih table
  | @create _ id _ _ _ _ _ hname _ ih =>
      rw [editsOf_cons, editsOf_cons, replay_append, replay_append,
        replay_mattrEdits_data disk table _ (tagWf_create id),
        replay_mattrEdits_data disk _ _ hname.wf, ih]
      rfl
  | @move _ id _ name created payload _ _ _ hname hsource _ _ _ ih =>
      have hblank : ∀ slot, slot &&& 0x600 = tyStruct →
          applyEntry disk (applyEntry disk table ⟨⟨tyCreate, id, 0⟩, .data created⟩)
            ⟨name, .data payload⟩ id slot = none := by
        intro slot hslot
        have hne : slot ≠ nameSlot := by
          intro h
          rw [h] at hslot
          cases hslot
        rw [applyEntry_data disk _ payload hname.wf, hname.edit,
          applyEntry_data disk table created (tagWf_create id), editOf_create _ rfl, Edit.apply_put,
          if_neg fun h => hne h.2, Edit.apply_insert, if_neg (Nat.lt_irrefl id), if_pos rfl]
      rw [editsOf_cons, editsOf_cons, editsOf_cons, replay_append, replay_append, replay_append,
        replay_mattrEdits_data disk table _ (tagWf_create id),
        replay_mattrEdits_data disk _ _ hname.wf, replay_mattrEdits_move hsource hblank, ih]
      rfl
  | @delete _ id _ _ _ _ ih =>
      rw [editsOf_cons, replay_append, replay_mattrEdits_data disk table _ (tagWf_delete id), ih]
      rfl
  | put hwf _ _ _ ih =>
      rw [editsOf_cons, replay_append, replay_mattrEdits_data disk table _ hwf, ih]
      rfl
  | @tail _ split _ _ _ _ ih =>
      rw [editsOf_cons, replay_append,
        replay_mattrEdits_data disk table _ (tagWf_tailTag split), ih]
      rfl

end

/-! ## Directories -/

/-- Every entry has a name, and there is nothing behind the last one. -/
structure Entries (count : ℕ) (table : Table ℕ Cell) : Prop where
  named : ∀ id < count, (table id nameSlot).isSome = true
  blank : ∀ id, count ≤ id → ∀ slot, table id slot = none

namespace Entries

variable {count id : ℕ} {table : Table ℕ Cell}

theorem create (hentries : Entries count table) (hid : id ≤ count) (cell : Cell) :
    Entries (count + 1)
      ((Edit.put id nameSlot (some cell)).apply ((Edit.insert id).apply table)) where
  named index hindex := by
    rw [Edit.apply_put, Edit.apply_insert]
    split_ifs with hcell hlt heq
    · rfl
    · exact hentries.named index (hlt.trans_le hid)
    · exact absurd ⟨heq, rfl⟩ hcell
    · exact hentries.named (index - 1) (by omega)
  blank index hindex slot := by
    have hcell : ¬(index = id ∧ slot = nameSlot) := fun h => by omega
    rw [Edit.apply_put, if_neg hcell, Edit.apply_insert, if_neg (by omega), if_neg (by omega)]
    exact hentries.blank (index - 1) (by omega) slot

theorem erase (hentries : Entries count table) (hid : id < count) :
    Entries (count - 1) ((Edit.erase id).apply table) where
  named index hindex := by
    rw [Edit.apply_erase]
    split_ifs with hlt
    · exact hentries.named index (hlt.trans hid)
    · exact hentries.named (index + 1) (by omega)
  blank index hindex slot := by
    rw [Edit.apply_erase, if_neg (by omega)]
    exact hentries.blank (index + 1) (by omega) slot

/-- Values of entries that exist may change, their names aside. -/
theorem update (hentries : Entries count table) {table' : Table ℕ Cell}
    (hname : ∀ id, table' id nameSlot = table id nameSlot)
    (hother : ∀ id, count ≤ id → ∀ slot, table' id slot = table id slot) :
    Entries count table' where
  named index hindex := by
    rw [hname]
    exact hentries.named index hindex
  blank index hindex slot := by
    rw [hother index hindex]
    exact hentries.blank index hindex slot

theorem put (hentries : Entries count table) {slot : ℕ} (hid : id < count) (hslot : slot ≠ nameSlot)
    (value : Option Cell) : Entries count ((Edit.put id slot value).apply table) := by
  apply hentries.update
  · intro index
    rw [Edit.apply_put, if_neg fun h => hslot h.2.symm]
  · intro index hindex slot'
    rw [Edit.apply_put, if_neg fun h => by omega]

theorem window (hentries : Entries count table) {first last : ℕ} (hlast : last ≤ count) :
    Entries (last - first) (Table.window first last table) where
  named index hindex := by
    rw [Table.window, if_pos (by omega)]
    exact hentries.named (first + index) (by omega)
  blank index hindex slot := by
    rw [Table.window, if_neg (by omega)]

/-- The window over all entries. -/
theorem window_all (hentries : Entries count table) : Table.window 0 count table = table := by
  funext index slot
  rw [Table.window, Nat.zero_add]
  split_ifs with hlt
  · rfl
  · exact (hentries.blank index (Nat.le_of_not_lt hlt) slot).symm

end Entries

/-- No name is set over another. -/
inductive NamedOnce : List Attr → Prop
  | nil : NamedOnce []
  | snoc {log : List Attr} {attr : Attr} (hlog : NamedOnce log)
      (hfresh : attr.1.type1 = tyName → tableOf log attr.1.id nameSlot = none) :
      NamedOnce (log ++ [attr])

theorem NamedOnce.append {log more : List Attr} (hlog : NamedOnce log)
    (hmore : ∀ attr ∈ more, attr.1.type1 ≠ tyName) : NamedOnce (log ++ more) := by
  induction more using List.reverseRecOn with
  | nil => rwa [List.append_nil]
  | append_singleton more attr ih =>
      rw [← List.append_assoc]
      apply NamedOnce.snoc (ih fun a ha => hmore a (List.mem_append_left _ ha))
      exact fun h => absurd h (hmore attr (List.mem_append_right _ (List.mem_singleton_self attr)))

/-- `log` is one of the directory `dir`, in good order. -/
structure Admits (log : List Attr) (dir : Mdir) : Prop where
  wf : LogWf log
  once : NamedOnce log
  count : (plainScan log).count = dir.count
  split : (plainScan log).split = dir.split
  tail : (plainScan log).tail = dir.tail
  tailWf : TailWf dir.split dir.tail
  entries : Entries dir.count (tableOf log)

theorem tableOf_append (log more : List Attr) :
    tableOf (log ++ more) = replay (tableOf log) (more.map editOf) := by
  rw [tableOf, List.map_append, replay_append]
  rfl

theorem tableOf_snoc (log : List Attr) (attr : Attr) :
    tableOf (log ++ [attr]) = (editOf attr).apply (tableOf log) :=
  tableOf_append log [attr]

/-! ### One attribute -/

/-- A scan takes nothing from structs and attributes. -/
theorem step_of_struct (scan : Scan) {attr : Attr} (hkind : attr.1.type &&& 0x600 = tyStruct) :
    Scan.step (fun _ => none) scan attr = scan := by
  have hbits : (attr.1.type &&& 0x700) &&& 0x600 = tyStruct := by
    rw [Nat.and_assoc]
    exact hkind
  have hname : attr.1.type1 ≠ tyName := fun h => by
    rw [Tag.type1] at h
    rw [h] at hbits
    exact absurd hbits (by decide)
  have hsplice : attr.1.type1 ≠ tySplice := fun h => by
    rw [Tag.type1] at h
    rw [h] at hbits
    exact absurd hbits (by decide)
  have htail : attr.1.type1 ≠ tyTail := fun h => by
    rw [Tag.type1] at h
    rw [h] at hbits
    exact absurd hbits (by decide)
  simp only [Scan.step, if_neg hname, if_neg hsplice, if_neg htail]

theorem type1_ne_of_struct {type : ℕ} (hkind : type &&& 0x600 = tyStruct) :
    type &&& 0x700 ≠ tyName := by
  intro h
  have hbits : (type &&& 0x700) &&& 0x600 = tyStruct := by
    rw [Nat.and_assoc]
    exact hkind
  rw [h] at hbits
  exact absurd hbits (by decide)

theorem plainScan_append_struct (log : List Attr) {more : List Attr}
    (hkind : ∀ attr ∈ more, attr.1.type &&& 0x600 = tyStruct) :
    plainScan (log ++ more) = plainScan log := by
  induction more using List.reverseRecOn with
  | nil => rw [List.append_nil]
  | append_singleton more attr ih =>
      rw [← List.append_assoc, plainScan_append_singleton,
        step_of_struct _ (hkind attr (List.mem_append_right _ (List.mem_singleton_self attr)))]
      exact ih fun a ha => hkind a (List.mem_append_left _ ha)

/-- Lists that only set structs and attributes of entries that exist. -/
theorem Admits.structs {log more : List Attr} {dir : Mdir} (hadmits : Admits log dir)
    (hwf : LogWf more) (hkind : ∀ attr ∈ more, attr.1.type &&& 0x600 = tyStruct)
    (hid : ∀ attr ∈ more, attr.1.id < dir.count) : Admits (log ++ more) dir := by
  have hscan := plainScan_append_struct log hkind
  have hentries : Entries dir.count (tableOf (log ++ more)) := by
    induction more using List.reverseRecOn with
    | nil => simpa using hadmits.entries
    | append_singleton more attr ih =>
        have hmem := List.mem_append_right more (List.mem_singleton_self attr)
        have hprefix := ih (fun a ha => hwf a (List.mem_append_left _ ha))
          (fun a ha => hkind a (List.mem_append_left _ ha))
          (fun a ha => hid a (List.mem_append_left _ ha))
          (plainScan_append_struct log fun a ha => hkind a (List.mem_append_left _ ha))
        have hput : attr.1.type &&& 0x400 = 0 := by
          have hbits := congrArg (· &&& 0x400) (hkind attr hmem)
          simp only [Nat.and_assoc] at hbits
          exact hbits
        have hslot : slotOf attr.1.type ≠ nameSlot := by
          intro h
          have hbits := slotOf_and attr.1.type 0x600 rfl
          rw [h, hkind attr hmem] at hbits
          cases hbits
        rw [← List.append_assoc, tableOf_snoc, editOf_put attr hput]
        exact hprefix.put (hid attr hmem) hslot _
  exact ⟨hadmits.wf.append hwf,
    hadmits.once.append fun attr hattr => type1_ne_of_struct (hkind attr hattr),
    hscan ▸ hadmits.count, hscan ▸ hadmits.split, hscan ▸ hadmits.tail, hadmits.tailWf, hentries⟩

theorem step_create (scan : Scan) (id : ℕ) (payload : Payload) :
    (Scan.step (fun _ => none) scan (⟨tyCreate, id, 0⟩, payload)).count = scan.count + 1 ∧
    (Scan.step (fun _ => none) scan (⟨tyCreate, id, 0⟩, payload)).split = scan.split ∧
    (Scan.step (fun _ => none) scan (⟨tyCreate, id, 0⟩, payload)).tail = scan.tail := by
  have hname : ¬tySplice = tyName := by decide
  have hsplice : (⟨tyCreate, id, 0⟩ : Tag).type1 = tySplice := show tyCreate &&& 0x700 = _ by decide
  have hone : (⟨tyCreate, id, 0⟩ : Tag).splice = 1 := Tag.splice_create _ rfl
  have hcount : ((scan.count : ℤ) + 1).toNat = scan.count + 1 := by omega
  simp only [Scan.step, hsplice, if_neg hname, if_true, Scan.splice, hone, hcount, and_self]

theorem step_delete (scan : Scan) (id : ℕ) (payload : Payload) :
    (Scan.step (fun _ => none) scan (⟨tyDelete, id, 0⟩, payload)).count = scan.count - 1 ∧
    (Scan.step (fun _ => none) scan (⟨tyDelete, id, 0⟩, payload)).split = scan.split ∧
    (Scan.step (fun _ => none) scan (⟨tyDelete, id, 0⟩, payload)).tail = scan.tail := by
  have hname : ¬tySplice = tyName := by decide
  have hsplice : (⟨tyDelete, id, 0⟩ : Tag).type1 = tySplice := show tyDelete &&& 0x700 = _ by decide
  have hone : (⟨tyDelete, id, 0⟩ : Tag).splice = -1 := Tag.splice_delete _ rfl
  have hcount : ((scan.count : ℤ) + -1).toNat = scan.count - 1 := by omega
  simp only [Scan.step, hsplice, if_neg hname, if_true, Scan.splice, hone, hcount, and_self]

/-- The name of an entry that exists already counts. -/
theorem step_name {id : ℕ} {name : Tag} (hname : NameTag id name) (payload : Payload) {scan : Scan}
    (hid : id < scan.count) : Scan.step (fun _ => none) scan (name, payload) = scan := by
  have htype : name.type1 = tyName := hname.name
  have hcount : ¬scan.count ≤ name.id := by
    rw [hname.id_eq]
    exact Nat.not_le_of_lt hid
  simp only [Scan.step, if_pos htype, if_neg hcount]

theorem Admits.create {log : List Attr} {dir : Mdir} {id : ℕ} {name : Tag}
    (hadmits : Admits log dir) (hid : id ≤ dir.count) (hname : NameTag id name)
    (created payload : Payload) :
    Admits (log ++ [(⟨tyCreate, id, 0⟩, created)] ++ [(name, payload)])
      { dir with count := dir.count + 1 } := by
  obtain ⟨hcount, hsplit, htail⟩ := step_create (plainScan log) id created
  have hblank : tableOf (log ++ [(⟨tyCreate, id, 0⟩, created)]) id nameSlot = none := by
    rw [tableOf_snoc, editOf_create _ rfl, Edit.apply_insert, if_neg (Nat.lt_irrefl id), if_pos rfl]
  have hscan : plainScan (log ++ [(⟨tyCreate, id, 0⟩, created)] ++ [(name, payload)]) =
      Scan.step (fun _ => none) (plainScan log) (⟨tyCreate, id, 0⟩, created) := by
    rw [plainScan_append_singleton, plainScan_append_singleton]
    apply step_name hname
    rw [hcount, hadmits.count]
    omega
  have hcreate : (⟨tyCreate, id, 0⟩ : Tag).type1 ≠ tyName := show tyCreate &&& 0x700 ≠ _ by decide
  refine ⟨?_, ?_, ?_, ?_, ?_, hadmits.tailWf, ?_⟩
  · apply (hadmits.wf.append _).append _
    · intro attr hattr
      rw [List.mem_singleton.mp hattr]
      exact tagWf_create id
    · intro attr hattr
      rw [List.mem_singleton.mp hattr]
      exact hname.wf
  · apply NamedOnce.snoc (.snoc hadmits.once fun h => absurd h hcreate)
    intro _
    dsimp only
    rw [hname.id_eq]
    exact hblank
  · rw [hscan, hcount, hadmits.count]
  · rw [hscan, hsplit, hadmits.split]
  · rw [hscan, htail, hadmits.tail]
  · rw [tableOf_snoc, tableOf_snoc, hname.edit, editOf_create _ rfl]
    exact hadmits.entries.create hid _

theorem Admits.delete {log : List Attr} {dir : Mdir} {id : ℕ} {payload : Payload}
    (hadmits : Admits log dir) (hid : id < dir.count) :
    Admits (log ++ [(⟨tyDelete, id, 0⟩, payload)]) { dir with count := dir.count - 1 } := by
  obtain ⟨hcount, hsplit, htail⟩ := step_delete (plainScan log) id payload
  have hdelete : (⟨tyDelete, id, 0⟩ : Tag).type1 ≠ tyName := show tyDelete &&& 0x700 ≠ _ by decide
  refine ⟨?_, .snoc hadmits.once fun h => absurd h hdelete, ?_, ?_, ?_, hadmits.tailWf, ?_⟩
  · apply hadmits.wf.append
    intro attr hattr
    rw [List.mem_singleton.mp hattr]
    exact tagWf_delete id
  · rw [plainScan_append_singleton, hcount, hadmits.count]
  · rw [plainScan_append_singleton, hsplit, hadmits.split]
  · rw [plainScan_append_singleton, htail, hadmits.tail]
  · rw [tableOf_snoc, editOf_delete _ rfl]
    exact hadmits.entries.erase hid

theorem editOf_tailTag (split : Bool) (payload : Payload) :
    editOf (tailTag split, payload) = .skip := by
  have hhigh : (tailTag split).type &&& 0x400 ≠ 0 := by cases split <;> decide
  have hsplice : (tailTag split).type &&& 0x700 ≠ 0x400 := by cases split <;> decide
  exact editOf_skip _ hhigh hsplice

theorem Admits.tails {log : List Attr} {dir : Mdir} {split : Bool} {tail : Pair}
    (hadmits : Admits log dir) (htail : TailWf split tail) :
    Admits (log ++ [(tailTag split, .pair tail)]) { dir with split := split, tail := tail } := by
  have hscan := plainScan_append_tail log split tail
  have hname : (tailTag split).type1 ≠ tyName := by
    rw [tailTag_type1]
    decide
  refine ⟨?_, .snoc hadmits.once fun h => absurd h hname, ?_, by rw [hscan], by rw [hscan],
    htail, ?_⟩
  · apply hadmits.wf.append
    intro attr hattr
    rw [List.mem_singleton.mp hattr]
    exact tagWf_tailTag split
  · rw [hscan]
    exact hadmits.count
  · rw [tableOf_snoc, editOf_tailTag]
    exact hadmits.entries

theorem Admits.gstate {log : List Attr} {dir : Mdir} (hadmits : Admits log dir) (delta : Gstate) :
    Admits (log ++ [(movestateTag, .gstate delta)]) dir := by
  have hscan := plainScan_append_movestateTag log delta
  have hname : movestateTag.type1 ≠ tyName := by decide
  have hhigh : movestateTag.type &&& 0x400 ≠ 0 := by decide
  have hsplice : movestateTag.type &&& 0x700 ≠ 0x400 := by decide
  have hedit : editOf (movestateTag, .gstate delta) = .skip := editOf_skip _ hhigh hsplice
  refine ⟨?_, .snoc hadmits.once fun h => absurd h hname, ?_, ?_, ?_, hadmits.tailWf, ?_⟩
  · apply hadmits.wf.append
    intro attr hattr
    rw [List.mem_singleton.mp hattr]
    exact show TagWf movestateTag by decide
  · rw [hscan]
    exact hadmits.count
  · rw [hscan]
    exact hadmits.split
  · rw [hscan]
    exact hadmits.tail
  · rw [tableOf_snoc, hedit]
    exact hadmits.entries

/-! ### A whole list -/

theorem applyMattr_low (dir : Mdir) {mattr : Mattr} (hlow : mattr.tag.type &&& 0x400 = 0) :
    applyMattr dir mattr = dir := by
  have hcreate : mattr.tag.type3 ≠ tyCreate := fun h => by
    rw [Tag.type3] at h
    rw [h] at hlow
    exact absurd hlow (by decide)
  have hdelete : mattr.tag.type3 ≠ tyDelete := fun h => by
    rw [Tag.type3] at h
    rw [h] at hlow
    exact absurd hlow (by decide)
  have htail : mattr.tag.type1 ≠ tyTail := fun h => by
    rw [Tag.type1] at h
    rw [and_type1 _ _ rfl, h] at hlow
    exact absurd hlow (by decide)
  rw [applyMattr, if_neg hcreate, if_neg hdelete, if_neg htail]

theorem applyMattr_create (dir : Mdir) (id : ℕ) (buffer : Buffer) :
    applyMattr dir ⟨⟨tyCreate, id, 0⟩, buffer⟩ = { dir with count := dir.count + 1 } :=
  if_pos rfl

theorem applyMattr_delete (dir : Mdir) (id : ℕ) (buffer : Buffer) :
    applyMattr dir ⟨⟨tyDelete, id, 0⟩, buffer⟩ = { dir with count := dir.count - 1 } := by
  have hcreate : (⟨tyDelete, id, 0⟩ : Tag).type3 ≠ tyCreate := show tyDelete ≠ tyCreate by decide
  have hdelete : (⟨tyDelete, id, 0⟩ : Tag).type3 = tyDelete := rfl
  rw [applyMattr, if_neg hcreate, if_pos hdelete]

theorem applyMattr_tails (dir : Mdir) (split : Bool) (tail : Pair) :
    applyMattr dir ⟨tailTag split, .data (.pair tail)⟩ =
      { dir with tail := tail, split := split } := by
  have hcreate : (tailTag split).type3 ≠ tyCreate := by cases split <;> decide
  have hdelete : (tailTag split).type3 ≠ tyDelete := by cases split <;> decide
  rw [applyMattr, if_neg hcreate, if_neg hdelete, if_pos (tailTag_type1 split), tailTag_split]
  rfl

section

variable {disk : Block → BlockImage}

theorem traverseAttrs_cons (mattr : Mattr) (attrs : List Mattr) :
    traverseAttrs disk (mattr :: attrs) =
      processTag disk 0 mattr.tag mattr.buffer ++ traverseAttrs disk attrs := List.flatMap_cons

theorem processTag_of_wf {tag : Tag} (payload : Payload) (hwf : TagWf tag) :
    processTag disk 0 tag (.data payload) = [(tag, payload)] := by
  rw [processTag_data disk _ payload hwf.type_ne, Tag.shift_zero]

/-- The tags of a moved entry. -/
theorem structs_traverseMove {source : Mdir} (hsource : LogWf (mdirLog disk source))
    {fromid toid : ℕ} {attr : Attr} (hattr : attr ∈ traverseMove disk source fromid toid 0) :
    TagWf attr.1 ∧ attr.1.type &&& 0x600 = tyStruct ∧ attr.1.id = toid := by
  have hplace : (toid : ℤ) = toid + 0 := by omega
  rw [traverseMove_eq hsource hplace] at hattr
  obtain ⟨⟨key, cell⟩, hmem, rfl⟩ := List.mem_map.mp hattr
  exact ⟨((slotted_movedCells hsource hmem).2 toid).wf,
    ((mem_movedCells hsource _ _).mp hmem).2, rfl⟩

/-- An append leaves a directory in good order. -/
theorem Listed.admits {attrs : List Mattr} {count : ℕ} (hlisted : Listed disk count attrs)
    {log : List Attr} {dir : Mdir} (hadmits : Admits log dir) (hcount : dir.count = count) :
    Admits (log ++ traverseAttrs disk attrs) (attrs.foldl applyMattr dir) := by
  induction hlisted generalizing log dir with
  | nil => simpa [traverseAttrs] using hadmits
  | @noop _ tag buffer _ htype _ ih =>
      have hlow : tag.type &&& 0x400 = 0 := by
        rw [htype]
        rfl
      rw [traverseAttrs_cons, processTag_noop disk _ _ htype, List.nil_append, List.foldl_cons,
        applyMattr_low dir hlow]
      exact ih hadmits hcount
  | @create _ id name created payload rest hid hname _ ih =>
      rw [traverseAttrs_cons, traverseAttrs_cons, processTag_of_wf created (tagWf_create id),
        processTag_of_wf payload hname.wf, List.foldl_cons, List.foldl_cons, applyMattr_create,
        applyMattr_low _ hname.put, ← List.append_assoc, ← List.append_assoc]
      exact ih (hadmits.create (hcount ▸ hid) hname _ _) (congrArg Nat.succ hcount)
  | @move _ id fromid name created payload source rest hid hname hsource _ _ _ ih =>
      have hfrom : fromMove &&& 0x400 = 0 := by decide
      have hput : (⟨name, .data payload⟩ : Mattr).tag.type &&& 0x400 = 0 := hname.put
      have hcreated := hadmits.create (hcount ▸ hid) hname created payload
      have hstructs : ∀ attr ∈ traverseMove disk source fromid id 0, TagWf attr.1 ∧
          attr.1.type &&& 0x600 = tyStruct ∧ attr.1.id = id := fun attr hattr =>
        structs_traverseMove hsource hattr
      rw [traverseAttrs_cons, traverseAttrs_cons, traverseAttrs_cons,
        processTag_of_wf created (tagWf_create id), processTag_of_wf payload hname.wf,
        processTag_move _ _ _ rfl, List.foldl_cons, List.foldl_cons, List.foldl_cons,
        applyMattr_create, applyMattr_low _ hput, applyMattr_low _ hfrom, ← List.append_assoc,
        ← List.append_assoc, ← List.append_assoc]
      apply ih _ (congrArg Nat.succ hcount)
      apply hcreated.structs fun attr hattr => (hstructs attr hattr).1
      · exact fun attr hattr => (hstructs attr hattr).2.1
      · intro attr hattr
        rw [(hstructs attr hattr).2.2]
        exact Nat.lt_succ_of_le (hcount ▸ hid)
  | @delete _ id payload _ hid _ ih =>
      rw [traverseAttrs_cons, processTag_of_wf payload (tagWf_delete id), List.foldl_cons,
        applyMattr_delete, ← List.append_assoc]
      exact ih (hadmits.delete (hcount ▸ hid)) (congrArg Nat.pred hcount)
  | @put _ tag payload rest hwf hkind hid _ ih =>
      have hlow : tag.type &&& 0x400 = 0 := by
        have hbits := congrArg (· &&& 0x400) hkind
        simp only [Nat.and_assoc] at hbits
        exact hbits
      rw [traverseAttrs_cons, processTag_of_wf payload hwf, List.foldl_cons,
        applyMattr_low dir hlow,
        ← List.append_assoc]
      apply ih _ hcount
      apply hadmits.structs
      · intro attr hattr
        rw [List.mem_singleton.mp hattr]
        exact hwf
      · intro attr hattr
        rw [List.mem_singleton.mp hattr]
        exact hkind
      · intro attr hattr
        rw [List.mem_singleton.mp hattr, hcount]
        exact hid
  | @tail _ split tail _ htail _ ih =>
      rw [traverseAttrs_cons, processTag_of_wf _ (tagWf_tailTag split), List.foldl_cons,
        applyMattr_tails, ← List.append_assoc]
      exact ih (hadmits.tails htail) hcount

end

/-! ### A compacted log -/

/-- A scan of names, structs and attributes counts the entries with a name. -/
theorem plainScan_count_low {log : List Attr} (hlow : Low log) (hwf : LogWf log) :
    (∀ id, (tableOf log id nameSlot).isSome = true → id < (plainScan log).count) ∧
      ((plainScan log).count = 0 ∨
        (tableOf log ((plainScan log).count - 1) nameSlot).isSome = true) := by
  induction log using List.reverseRecOn with
  | nil => exact ⟨fun _ h => (Bool.false_ne_true h).elim, Or.inl rfl⟩
  | append_singleton log attr ih =>
      obtain ⟨hbound, hlast⟩ := ih (fun a ha => hlow a (List.mem_append_left _ ha))
        (fun a ha => hwf a (List.mem_append_left _ ha))
      have hmem := List.mem_append_right log (List.mem_singleton_self attr)
      have hput := hlow attr hmem
      rw [plainScan_append_singleton, tableOf_snoc]
      by_cases htype : attr.1.type1 = tyName
      · have hname : NameTag attr.1.id attr.1 := ⟨hwf attr hmem, htype, rfl⟩
        have hcount : (Scan.step (fun _ => none) (plainScan log) attr).count =
            if (plainScan log).count ≤ attr.1.id then attr.1.id + 1 else (plainScan log).count := by
          simp only [Scan.step, if_pos htype]
          split_ifs <;> rfl
        have hedit := hname.edit attr.2
        rw [Prod.mk.eta] at hedit
        rw [hcount, hedit]
        simp only [Edit.apply_put, and_true]
        by_cases hle : (plainScan log).count ≤ attr.1.id
        · rw [if_pos hle]
          constructor
          · intro id hid
            by_cases heq : id = attr.1.id
            · rw [heq]
              exact Nat.lt_succ_self _
            · rw [if_neg heq] at hid
              exact (hbound id hid).trans_le (hle.trans (Nat.le_succ _))
          · right
            rw [Nat.add_sub_cancel, if_pos rfl]
            rfl
        · rw [if_neg hle]
          constructor
          · intro id hid
            by_cases heq : id = attr.1.id
            · rw [heq]
              exact Nat.lt_of_not_le hle
            · rw [if_neg heq] at hid
              exact hbound id hid
          · right
            split
            · rfl
            · exact hlast.resolve_left (by omega)
      · have hsplice : attr.1.type1 ≠ tySplice := type1_ne_of_put hput
        have htail : attr.1.type1 ≠ tyTail := by
          intro h
          rw [and_type1 attr.1.type 0x400 rfl] at hput
          rw [Tag.type1] at h
          rw [h] at hput
          exact absurd hput (by decide)
        have hslot : slotOf attr.1.type ≠ nameSlot := by
          intro h
          have hbits := slotOf_and attr.1.type 0x700 rfl
          rw [h] at hbits
          exact htype hbits.symm
        have hstep : Scan.step (fun _ => none) (plainScan log) attr = plainScan log := by
          simp only [Scan.step, if_neg htype, if_neg hsplice, if_neg htail]
        have hkeep : ∀ id, (editOf attr).apply (tableOf log) id nameSlot =
            tableOf log id nameSlot := by
          intro id
          rw [editOf_put attr hput, Edit.apply_put, if_neg fun h => hslot h.2.symm]
        simp only [hstep, hkeep]
        exact ⟨hbound, hlast⟩

theorem Entries.count_eq {count : ℕ} {log : List Attr} (hentries : Entries count (tableOf log))
    (hlow : Low log) (hwf : LogWf log) : (plainScan log).count = count := by
  obtain ⟨hbound, hlast⟩ := plainScan_count_low hlow hwf
  apply Nat.le_antisymm
  · apply hlast.elim
    · intro hzero
      omega
    · intro hsome
      by_contra hlt
      rw [hentries.blank _ (by omega)] at hsome
      cases hsome
  · by_contra hlt
    have hnamed := hentries.named (plainScan log).count (by omega)
    exact Nat.lt_irrefl _ (hbound _ hnamed)

/-- The survivors of a log set every name once. -/
theorem namedOnce_cells {cells : List (ℕ × ℕ × Cell)} (hapart : cells.Pairwise OtherCell)
    (hcells : ∀ entry ∈ cells, entry.2.1 = slotOf entry.2.2.type ∧
      ∀ id, SlotTag ⟨entry.2.2.type, id, entry.2.2.size⟩) : NamedOnce (cells.map cellAttr) := by
  induction cells using List.reverseRecOn with
  | nil => exact .nil
  | append_singleton cells entry ih =>
      rw [List.pairwise_append] at hapart
      obtain ⟨hcells', -, hlast⟩ := hapart
      have hprefix : ∀ other ∈ cells, other.2.1 = slotOf other.2.2.type ∧
          ∀ id, SlotTag ⟨other.2.2.type, id, other.2.2.size⟩ := fun other hother =>
        hcells other (List.mem_append_left _ hother)
      rw [List.map_append, List.map_singleton]
      apply NamedOnce.snoc (ih hcells' hprefix)
      intro htype
      have hname : slotOf entry.2.2.type = nameSlot := by
        have hbit : entry.2.2.type &&& 0x100 = 0 := by
          have hbits : entry.2.2.type &&& 0x700 = tyName := htype
          rw [and_type1 _ 0x100 rfl, hbits]
          rfl
        rw [slotOf, if_neg (not_not_intro hbit)]
        exact htype
      have hedits : (cells.map cellAttr).map editOf = cells.map toPut := by
        rw [List.map_map]
        apply List.map_congr_left
        intro other hother
        obtain ⟨hslot, hwf⟩ := hprefix other hother
        have hlive : other.2.2.size ≠ 0x3ff := by
          have := (hwf 0).live
          simpa [Tag.isdelete] using this
        have hedit := Cell.at_editOf other.1 (hwf 0).put hlive
        rw [← hslot] at hedit
        exact hedit
      rw [tableOf, hedits]
      by_contra hsome
      obtain ⟨cell, hcell⟩ := Option.ne_none_iff_exists'.mp hsome
      have hmem := (replay_map_toPut hcells' _ _ _).mp hcell
      have hne := hlast _ hmem entry (List.mem_singleton_self entry) rfl
      exact hne ((hcells entry (List.mem_append_right _ (List.mem_singleton_self entry))).1.trans
        hname).symm

section

variable {disk : Block → BlockImage} {source : Mdir} {attrs : List Mattr} {first last count : ℕ}

theorem namedOnce_traverseCompact (hlog : LogWf (mdirLog disk source))
    (hattrs : Written disk attrs) :
    NamedOnce (traverseCompact disk source attrs first last) := by
  have hwritten := written_traverseCompact hlog hattrs
  obtain ⟨removals, hout, hremovals⟩ := (hwritten.keeps first last).eq hwritten.slotted
  rw [traverseCompact, hout]
  apply (namedOnce_cells (window_apart _ _ _) _).append
  · intro attr hattr
    obtain ⟨-, -, -, -, -, hdelete, hwf, -⟩ := hremovals attr hattr
    rw [Tag.type1, hwf.removal hdelete]
    decide
  · intro entry hentry
    obtain ⟨index, key, cell⟩ := entry
    obtain ⟨j, hput⟩ := exists_put_of_mem_window hentry
    exact hwritten.slotted j key cell hput

theorem admits_traverseCompact (hlog : LogWf (mdirLog disk source)) (hattrs : Written disk attrs)
    (hlow : Low (traverseCompact disk source attrs first last))
    (hentries : Entries count (replay (tableOf (mdirLog disk source)) (editsOf disk attrs)))
    (hlast : last ≤ count) (dir : Mdir) : Admits (traverseCompact disk source attrs first last)
      { dir with count := last - first, split := false, tail := (blockNull, blockNull) } := by
  have hwf := logWf_traverseCompact hlog hattrs first last
  have hwindow : Entries (last - first)
      (tableOf (traverseCompact disk source attrs first last)) := by
    rw [tableOf_traverseCompact hlog hattrs]
    exact hentries.window hlast
  obtain ⟨htail, hsplit⟩ := plainScan_append_low [] hlow
  rw [List.nil_append] at htail hsplit
  exact ⟨hwf, namedOnce_traverseCompact hlog hattrs, hwindow.count_eq hlow hwf, hsplit, htail,
    fun _ => ⟨rfl, rfl⟩, hwindow⟩

/-- The log of a compacted block. -/
theorem admits_compactBody (hlog : LogWf (mdirLog disk source)) (hattrs : Written disk attrs)
    (hlow : Low (traverseCompact disk source attrs first last))
    (hentries : Entries count (replay (tableOf (mdirLog disk source)) (editsOf disk attrs)))
    (hlast : last ≤ count) {dir : Mdir} (htail : TailWf dir.split dir.tail) (delta : Gstate) :
    Admits (compactBody disk attrs source first last dir ++ gstateTags delta)
      { dir with count := last - first } := by
  have hbody : Admits (compactBody disk attrs source first last dir)
      { dir with count := last - first } := by
    have hadmits := admits_traverseCompact hlog hattrs hlow hentries hlast dir
    rw [compactBody]
    split
    · rename_i hnull
      obtain ⟨heq, hsplit⟩ := htail hnull
      rw [List.append_nil]
      have hdir : { dir with count := last - first } = { dir with
          count := last - first, split := false, tail := (blockNull, blockNull) } := by
        rw [← heq, ← hsplit]
      rw [hdir]
      exact hadmits
    · exact hadmits.tails htail
  unfold gstateTags
  split
  · rw [List.append_nil]
    exact hbody
  · exact hbody.gstate delta

/-- Tails and shares of the global state are no entries. -/
theorem tableOf_compactBody (dir : Mdir) (delta : Gstate) :
    tableOf (compactBody disk attrs source first last dir ++ gstateTags delta) =
      tableOf (traverseCompact disk source attrs first last) := by
  have hhigh : movestateTag.type &&& 0x400 ≠ 0 := by decide
  have hsplice : movestateTag.type &&& 0x700 ≠ 0x400 := by decide
  have hstate : ∀ log, tableOf (log ++ gstateTags delta) = tableOf log := by
    intro log
    unfold gstateTags
    split
    · rw [List.append_nil]
    · rw [tableOf_snoc, editOf_skip _ hhigh hsplice]
      rfl
  rw [hstate, compactBody]
  split
  · rw [List.append_nil]
  · rw [tableOf_snoc, editOf_tailTag]
    rfl

end

/-! ## Lookups -/

theorem aligned_name : Aligned 0x700 tyName nameSlot := by
  intro tag _
  have hname : tyName &&& 0x700 = 0 := rfl
  rw [hname]
  constructor
  · intro htype1
    have hbit : tag.type &&& 0x100 = 0 := by
      rw [and_type1 tag.type 0x100 rfl, htype1]
      rfl
    have hput : tag.type &&& 0x400 = 0 := by
      rw [and_type1 tag.type 0x400 rfl, htype1]
      rfl
    exact ⟨hput, by rw [slotOf, if_neg (not_not_intro hbit), htype1]; rfl⟩
  · intro h
    have hbits := slotOf_and tag.type 0x700 rfl
    rw [h.2] at hbits
    exact hbits.symm

/-- Names of files and directories, not the one of the superblock. -/
def isEntryName (cell : Cell) : Bool := cell.type &&& 0x780 = 0

/-- The tags that such a lookup does not take for another kind of name. -/
def keepsName (attr : Attr) : Bool := attr.1.type1 != tyName || attr.1.type &&& 0x780 == 0

theorem getsliceGo_filter_keepsName (id size : ℕ) (newest : List Attr) (gdiff : ℤ) :
    getsliceGo ⟨0x780, true⟩ ⟨tyName, id, size⟩ (newest.filter keepsName) gdiff =
      getsliceGo ⟨0x780, true⟩ ⟨tyName, id, size⟩ newest gdiff := by
  induction newest generalizing gdiff with
  | nil => rfl
  | cons attr older ih =>
      obtain ⟨tag, data⟩ := attr
      cases hkeep : keepsName (tag, data) with
      | true =>
          rw [List.filter_cons_of_pos hkeep, getsliceGo, getsliceGo]
          simp only [ih]
      | false =>
          simp only [keepsName, Bool.or_eq_false_iff, bne_eq_false_iff_eq, beq_eq_false_iff_ne]
            at hkeep
          have hsplice : ¬(tag.type1 == tySplice) = true := by
            rw [hkeep.1]
            decide
          have hmask : ¬(tag.type &&& 0x780 = tyName &&& 0x780) := hkeep.2
          rw [List.filter_cons_of_neg (by simp [keepsName, hkeep]), ih, getsliceGo]
          simp [hsplice, hmask]

theorem aligned_keepsName {log : List Attr} (hwf : LogWf log) :
    AlignedOn (log.filter keepsName) 0x780 tyName nameSlot := by
  intro attr hattr
  obtain ⟨hmem, hkeep⟩ := List.mem_filter.mp hattr
  have hname := aligned_name attr.1 (hwf attr hmem)
  constructor
  · intro hmask
    apply hname.mp
    have hbits := congrArg (· &&& 0x700) hmask
    simp only [Nat.and_assoc] at hbits
    exact hbits
  · intro h
    have htype : attr.1.type1 = tyName := hname.mpr h
    rw [keepsName, htype] at hkeep
    have hentry : attr.1.type &&& 0x780 = 0 := by simpa using hkeep
    exact hentry

theorem tableOf_filter_keepsName {log : List Attr} (hwf : LogWf log) (honce : NamedOnce log)
    (id : ℕ) : tableOf (log.filter keepsName) id nameSlot =
      (tableOf log id nameSlot).filter isEntryName := by
  induction honce generalizing id with
  | nil => rfl
  | @snoc log attr _ hfresh ih =>
      have hlog : LogWf log := fun a ha => hwf a (List.mem_append_left _ ha)
      have hattr := hwf attr (List.mem_append_right _ (List.mem_singleton_self attr))
      replace ih := ih hlog
      rw [List.filter_append, tableOf_snoc]
      cases hkeep : keepsName attr with
      | true =>
          rw [List.filter_cons_of_pos hkeep, List.filter_nil, tableOf_snoc]
          rcases hattr.cases with ⟨hcreate, -⟩ | hdelete | hput | ⟨hhigh, hsplice⟩
          · rw [editOf_create attr hcreate, Edit.apply_insert, Edit.apply_insert, ih, ih]
            split_ifs <;> rfl
          · rw [editOf_delete attr hdelete, Edit.apply_erase, Edit.apply_erase, ih, ih]
            split_ifs <;> rfl
          · rw [editOf_put attr hput, Edit.apply_put, Edit.apply_put, ih]
            by_cases hcell : id = attr.1.id ∧ nameSlot = slotOf attr.1.type
            · have htype : attr.1.type1 = tyName :=
                (aligned_name attr.1 hattr).mpr ⟨hput, hcell.2.symm⟩
              have hentry : attr.1.type &&& 0x780 = 0 := by
                rw [keepsName, htype] at hkeep
                simpa using hkeep
              have hname : NameTag attr.1.id attr.1 := ⟨hattr, htype, rfl⟩
              have hkept : isEntryName ⟨attr.1.type, attr.1.size, attr.2⟩ = true :=
                decide_eq_true hentry
              rw [if_pos hcell, if_pos hcell, hname.live, if_neg Bool.false_ne_true]
              exact (Option.filter_some_pos hkept).symm
            · rw [if_neg hcell, if_neg hcell]
          · rw [editOf_skip attr hhigh hsplice]
            exact ih id
      | false =>
          simp only [keepsName, Bool.or_eq_false_iff, bne_eq_false_iff_eq, beq_eq_false_iff_ne]
            at hkeep
          have hname : NameTag attr.1.id attr.1 := ⟨hattr, hkeep.1, rfl⟩
          have hedit := hname.edit attr.2
          rw [Prod.mk.eta] at hedit
          rw [List.filter_cons_of_neg (by simp [keepsName, hkeep]), List.filter_nil,
            List.append_nil,
            hedit, Edit.apply_put, ih]
          by_cases hid : id = attr.1.id
          · have hdropped : isEntryName ⟨attr.1.type, attr.1.size, attr.2⟩ = false :=
              decide_eq_false hkeep.2
            rw [if_pos ⟨hid, rfl⟩, hid, hfresh hkeep.1]
            exact (Option.filter_some_neg hdropped).symm
          · rw [if_neg fun h => hid h.1]

/-- A lookup of the names that `lfs_dir_getinfo` asks for. -/
theorem getsliceGo_name {log : List Attr} (hwf : LogWf log) (honce : NamedOnce log) (id size : ℕ) :
    getsliceGo ⟨0x780, true⟩ ⟨tyName, id, size⟩ log.reverse 0 =
      ((tableOf log id nameSlot).filter isEntryName).map fun cell => cell.at id := by
  have hfilter : LogWf (log.filter keepsName) := fun attr hattr =>
    hwf attr (List.mem_of_mem_filter hattr)
  have haligned := aligned_keepsName hwf
  rw [← getsliceGo_filter_keepsName, List.filter_reverse]
  rw [getsliceGo_eq_tableOf haligned hfilter, tableOf_filter_keepsName hwf honce]

/-- What the lookups of the source find in a directory. -/
structure Shows (disk : Block → BlockImage) (dir : Mdir) (table : Table ℕ Cell) : Prop where
  name : ∀ gdisk : Gstate, gdisk.hasmovehere dir.pair = false → ∀ id size,
    getslice gdisk dir (mdirLog disk dir) ⟨0x780, true⟩ ⟨tyName, id, size⟩ =
      ((table id nameSlot).filter isEntryName).map fun cell => cell.at id
  slot : ∀ gdisk : Gstate, gdisk.hasmovehere dir.pair = false → ∀ gmask gtag slot,
    Aligned gmask gtag.type slot → getslice gdisk dir (mdirLog disk dir) ⟨gmask, true⟩ gtag =
      (table gtag.id slot).map fun cell => cell.at gtag.id

theorem Admits.shows {disk : Block → BlockImage} {dir view : Mdir}
    (hadmits : Admits (mdirLog disk view) dir) : Shows disk view (tableOf (mdirLog disk view)) where
  name gdisk hmove id size := by
    rw [getslice, if_neg (by simp [hmove])]
    exact getsliceGo_name hadmits.wf hadmits.once id size
  slot gdisk hmove gmask gtag slot haligned := by
    rw [getslice, if_neg (by simp [hmove])]
    exact getsliceGo_eq_tableOf (haligned.on hadmits.wf) hadmits.wf

/-! ## Both ways of a commit -/

/-- A fetch of `pair` gives the count, the split flag and the tail of `dir`, and
the entries of `table`. -/
def Refetched (disk : Block → BlockImage) (pair : Pair) (dir : Mdir) (table : Table ℕ Cell) :
    Prop :=
  ∃ view, viewAt disk pair = some view ∧ view.count = dir.count ∧ view.split = dir.split ∧
    view.tail = dir.tail ∧ tableOf (mdirLog disk view) = table ∧ Shows disk view table ∧
      Admits (mdirLog disk view) view

theorem refetched_of_fits {disk : Block → BlockImage} {pair : Pair} {dir view : Mdir}
    {table : Table ℕ Cell} (hview : viewAt disk pair = some view)
    (hadmits : Admits (mdirLog disk view) dir) (htable : tableOf (mdirLog disk view) = table)
    (hcount : view.count = (plainScan (mdirLog disk view)).count)
    (hsplit : view.split = (plainScan (mdirLog disk view)).split)
    (htail : view.tail = (plainScan (mdirLog disk view)).tail) :
    Refetched disk pair dir table := by
  have hcount' := hcount.trans hadmits.count
  have hsplit' := hsplit.trans hadmits.split
  have htail' := htail.trans hadmits.tail
  refine ⟨view, hview, hcount', hsplit', htail', htable, htable ▸ hadmits.shows, hadmits.wf,
    hadmits.once,
    hcount.symm, hsplit.symm, htail.symm, ?_, ?_⟩
  · rw [hsplit', htail']
    exact hadmits.tailWf
  · rw [hcount']
    exact hadmits.entries

section

variable {used : List Block} {base lfs' : Lfs} {dir : Mdir} {attrs : List Mattr}

theorem Appended.refetched {result : Mdir} (hcommitting : Committing used base dir attrs)
    (hcurrent : Current base.disk dir) (hadmits : Admits (mdirLog base.disk dir) dir)
    (hlisted : Listed base.disk dir.count attrs)
    (happended : Appended base (attrs.foldl applyMattr dir) attrs result lfs') :
    Refetched lfs'.disk result.pair (attrs.foldl applyMattr dir)
      (attrs.foldl (applyEntry base.disk) (tableOf (mdirLog base.disk dir))) := by
  obtain ⟨hlog, htags⟩ := Appended.log hcommitting hcurrent happended
  have hview := Appended.view hcommitting hcurrent happended
  have hgrown := hlisted.admits hadmits rfl
  have hstate : Admits (mdirLog lfs'.disk (viewOf lfs'.disk dir.pair))
      (attrs.foldl applyMattr dir) ∧ tableOf (mdirLog lfs'.disk (viewOf lfs'.disk dir.pair)) =
        tableOf (mdirLog base.disk dir ++ traverseAttrs base.disk attrs) := by
    rw [hlog, ← List.append_assoc]
    unfold appendState
    split
    · rw [List.append_nil]
      exact ⟨hgrown, rfl⟩
    · have hhigh : movestateTag.type &&& 0x400 ≠ 0 := by decide
      have hsplice : movestateTag.type &&& 0x700 ≠ 0x400 := by decide
      refine ⟨hgrown.gstate _, ?_⟩
      rw [tableOf_snoc, editOf_skip _ hhigh hsplice]
      rfl
  have hedits : (traverseAttrs base.disk attrs).map editOf = editsOf base.disk attrs :=
    List.map_flatMap
  have htable : tableOf (mdirLog base.disk dir ++ traverseAttrs base.disk attrs) =
      attrs.foldl (applyEntry base.disk) (tableOf (mdirLog base.disk dir)) := by
    rw [tableOf_append, hedits, hlisted.replay]
  rw [happended.pair]
  apply refetched_of_fits hview hstate.1 (hstate.2.trans htable)
  · rw [← htags]
    rfl
  · rw [← htags]
    rfl
  · rw [← htags]
    rfl

/-- The sources of the moves are read alike. -/
def SameSources (disk disk' : Block → BlockImage) (attrs : List Mattr) : Prop :=
  ∀ mattr ∈ attrs, ∀ source, mattr.buffer = .mdir source →
    mdirLog disk' source = mdirLog disk source

theorem SameSources.tail {disk disk' : Block → BlockImage} {mattr : Mattr} {rest : List Mattr}
    (hsame : SameSources disk disk' (mattr :: rest)) : SameSources disk disk' rest :=
  fun other hother => hsame other (List.mem_cons_of_mem _ hother)

theorem Listed.congr {disk disk' : Block → BlockImage} {count : ℕ} {list : List Mattr}
    (hlisted : Listed disk count list) (hsame : SameSources disk disk' list) :
    Listed disk' count list := by
  induction hlisted with
  | nil => exact .nil
  | noop htype _ ih => exact .noop htype (ih hsame.tail)
  | create hid hname _ ih => exact .create hid hname (ih hsame.tail.tail)
  | move hid hname hsource hfrom hlater _ ih =>
      apply Listed.move hid hname _ hfrom hlater (ih hsame.tail.tail.tail)
      rw [hsame.tail.tail _ List.mem_cons_self _ rfl]
      exact hsource
  | delete hid _ ih => exact .delete hid (ih hsame.tail)
  | put hwf hkind hid _ ih => exact .put hwf hkind hid (ih hsame.tail)
  | tail htail _ ih => exact .tail htail (ih hsame.tail)

theorem foldl_applyEntry_congr {disk disk' : Block → BlockImage} {list : List Mattr}
    (hsame : SameSources disk disk' list) (table : Table ℕ Cell) :
    list.foldl (applyEntry disk') table = list.foldl (applyEntry disk) table := by
  induction list generalizing table with
  | nil => rfl
  | cons mattr rest ih =>
      have hhead : applyEntry disk' table mattr = applyEntry disk table mattr := by
        have hsource := hsame mattr List.mem_cons_self
        obtain ⟨tag, buffer⟩ := mattr
        cases buffer with
        | data payload => rfl
        | attrs list => rfl
        | mdir source =>
            unfold applyEntry
            dsimp only
            rw [hsource source rfl]
      rw [List.foldl_cons, List.foldl_cons, hhead]
      exact ih hsame.tail _

theorem Listed.entries {disk : Block → BlockImage} {log : List Attr} {list : List Mattr}
    {count : ℕ} (hlisted : Listed disk count list) (hadmits : Admits log dir)
        (hcount : dir.count = count) :
    Entries (list.foldl applyMattr dir).count (list.foldl (applyEntry disk) (tableOf log)) := by
  have hedits : (traverseAttrs disk list).map editOf = editsOf disk list := List.map_flatMap
  have hentries := (hlisted.admits hadmits hcount).entries
  rw [tableOf_append, hedits, hlisted.replay] at hentries
  exact hentries

theorem Compacted.refetched {mid : Lfs} {result : Mdir × CommitState} {first last : ℕ}
    (hcommitting : Committing used base dir attrs) (hadmits : Admits (mdirLog base.disk dir) dir)
    (hlisted : Listed base.disk dir.count attrs) (hfirst : first < 2 ^ 16)
    (hlast : last ≤ (attrs.foldl applyMattr dir).count)
    (hcompacted : Compacted used (some dir.pair.2) base attrs
      (attrs.foldl applyMattr dir) first last
      { attrs.foldl applyMattr dir with rev := dir.rev + 1 } result lfs' mid) :
    Refetched lfs'.disk result.1.pair { attrs.foldl applyMattr dir with count := last - first }
      (Table.window first last
        (attrs.foldl (applyEntry base.disk) (tableOf (mdirLog base.disk dir)))) := by
  have happly := foldl_applyMattr_eq attrs dir
  have hentries := hlisted.entries hadmits rfl
  have hgrown := hlisted.admits hadmits rfl
  have hown : ∀ block, Held used base block → block ≠ dir.pair.2 →
      mid.disk block = base.disk block := by
    intro block hheld hne
    exact hcompacted.aimed.working.same hheld fun h => hne (Option.some.inj h).symm
  have hsources : SameSources base.disk mid.disk attrs := by
    intro mattr hmattr source hsource
    obtain ⟨hheld, hne⟩ := hcommitting.sources mattr hmattr source hsource
    rw [mdirLog, mdirLog, hown _ hheld hne]
  have hlog : mdirLog mid.disk (attrs.foldl applyMattr dir) = mdirLog base.disk dir := by
    rw [happly, mdirLog, mdirLog, hown _ hcommitting.held hcommitting.ne]
  have hlisted' := hlisted.congr hsources
  have hwritten := hlisted'.written
  have hwf : LogWf (mdirLog mid.disk (attrs.foldl applyMattr dir)) := by
    rw [hlog]
    exact hadmits.wf
  have htable : replay (tableOf (mdirLog mid.disk (attrs.foldl applyMattr dir)))
      (editsOf mid.disk attrs) =
        attrs.foldl (applyEntry base.disk) (tableOf (mdirLog base.disk dir)) := by
    rw [hlog, hlisted'.replay, foldl_applyEntry_congr hsources]
  have hlow : Low (traverseCompact mid.disk (attrs.foldl applyMattr dir) attrs first last) := by
    have hlow : Low (traverseCompact mid.disk dir attrs first last) := hcommitting.low hown hfirst
    have hsame : mdirMattrs mid.disk (attrs.foldl applyMattr dir) = mdirMattrs mid.disk dir := by
      rw [happly]
      rfl
    rw [traverseCompact, hsame]
    exact hlow
  have hrev : (base.disk dir.pair.1).commits = [] ∨ (base.disk dir.pair.1).rev < dir.rev + 1 :=
    hcommitting.rev.imp id Nat.lt_succ_of_le
  have hlt : result.1.pair.1 < base.blockCount := by
    apply hcompacted.aimed.writable.elim
    · intro h
      rw [← Option.some.inj h]
      exact hcommitting.snd_lt
    · exact fun htaken => htaken.lt
  -- the compaction runs on a pair whose second block is its own
  generalize hstart : ({ attrs.foldl applyMattr dir with rev := dir.rev + 1 } : Mdir) = start
    at hcompacted
  have hpair : start.pair = dir.pair := by rw [← hstart, happly]
  have hstartRev : start.rev = dir.rev + 1 := by rw [← hstart]
  rw [← hpair] at hcompacted
  have hnull : lfsPairIsnull result.1.pair = false := by
    apply lfsPairIsnull_of_lt hcommitting.word hlt
    rw [hcompacted.pair_snd, hpair]
    exact hcommitting.fst_lt
  have hview := hcompacted.viewAt (by rw [hpair]; exact hcommitting.held)
    (by rw [hpair]; exact hcommitting.ne) (by rw [hpair, hstartRev]; exact hrev) hnull
  have hviewlog : mdirLog lfs'.disk (viewOf lfs'.disk result.1.pair) =
      mdirLog lfs'.disk result.1 := by
    rw [hcompacted.view]
    rfl
  have htails : TailWf start.split start.tail := by
    rw [← hstart]
    exact hgrown.tailWf
  have hbody := admits_compactBody hwf hwritten hlow (htable.symm ▸ hentries) hlast htails
    (deltaOf mid start (result.2 == .relocated))
  have hadmits' : Admits (mdirLog lfs'.disk (viewOf lfs'.disk result.1.pair))
      { start with count := last - first } := by
    rw [hviewlog, hcompacted.log]
    exact hbody
  have hentriesLog : tableOf (mdirLog lfs'.disk (viewOf lfs'.disk result.1.pair)) =
      Table.window first last
        (attrs.foldl (applyEntry base.disk) (tableOf (mdirLog base.disk dir))) := by
    rw [hviewlog, hcompacted.log, tableOf_compactBody, tableOf_traverseCompact hwf hwritten, htable]
  have hrefetched :=
    refetched_of_fits hview hadmits' hentriesLog (by rw [hviewlog, hcompacted.view])
    (by rw [hviewlog, hcompacted.view]) (by rw [hviewlog, hcompacted.view])
  obtain ⟨view, hread, hcount, hsplit, htail, hrest⟩ := hrefetched
  have hsplit' : start.split = (attrs.foldl applyMattr dir).split := by rw [← hstart]
  have htail' : start.tail = (attrs.foldl applyMattr dir).tail := by rw [← hstart]
  exact ⟨view, hread, hcount, hsplit.trans hsplit', htail.trans htail', hrest⟩

theorem lfsDirCompact_refetched {first last : ℕ} (hcommitting : Committing used base dir attrs)
    (hadmits : Admits (mdirLog base.disk dir) dir) (hlisted : Listed base.disk dir.count attrs)
    (hfirst : first < 2 ^ 16) (hlast : last ≤ (attrs.foldl applyMattr dir).count) :
    Outcome (lfsDirCompact (attrs.foldl applyMattr dir) attrs (attrs.foldl applyMattr dir)
        first last)
      (fun result lfs' => Refetched lfs'.disk result.1.pair
        { attrs.foldl applyMattr dir with count := last - first }
        (Table.window first last
          (attrs.foldl (applyEntry base.disk) (tableOf (mdirLog base.disk dir)))))
      (fun _ _ => True) base := by
  have happly := foldl_applyMattr_eq attrs dir
  have hpair : (attrs.foldl applyMattr dir).pair = dir.pair := by rw [happly]
  have hrev : (attrs.foldl applyMattr dir).rev = dir.rev := by rw [happly]
  have hinv := hcommitting.guarded.inv
  have haimed : Aimed used (some dir.pair.2) base (attrs.foldl applyMattr dir).pair.2 base := by
    rw [hpair]
    exact ⟨.start hinv _, Or.inl rfl⟩
  apply (lfsDirCompact_compacted hcommitting.guarded attrs (attrs.foldl applyMattr dir) first last
    hcommitting.cfg (attrs.foldl applyMattr dir) haimed).imp
  · intro result lfs' hresult
    obtain ⟨mid, hcompacted⟩ := hresult
    rw [hrev] at hcompacted
    exact Compacted.refetched hcommitting hadmits hlisted hfirst hlast hcompacted
  · exact fun _ _ _ => trivial

end

theorem listed_newFile : Listed freshlyMounted.disk mountedRoot.count newFile := by
  have hcount : mountedRoot.count = 1 := by decide +kernel
  rw [hcount]
  apply Listed.create (Nat.le_refl 1) ⟨by decide, by decide, rfl⟩
  exact .put (by decide) (by decide) (by decide) .nil

/-- A new device holds the entry of the superblock. -/
theorem admits_mountedRoot : Admits (mdirLog freshlyMounted.disk mountedRoot) mountedRoot := by
  obtain ⟨name, hname, struct, hwf, hkind, hid, hlog⟩ : ∃ name : Attr, NameTag 0 name.1 ∧
      ∃ struct : Attr, TagWf struct.1 ∧ struct.1.type &&& 0x600 = tyStruct ∧ struct.1.id = 0 ∧
        mdirLog freshlyMounted.disk mountedRoot = [name] ++ [struct] :=
    ⟨(⟨tySuperblock, 0, 8⟩, .bytes magic), ⟨by decide, by decide, rfl⟩, (superblockTag, .superblock
      { version := diskVersion, blockSize := 128, blockCount := 64, nameMax := 255,
        fileMax := 2147483647, attrMax := 1022 }), by decide, by decide, rfl, by decide +kernel⟩
  have hcount : mountedRoot.count = 1 := by decide +kernel
  have hsplit : mountedRoot.split = false := by decide +kernel
  have htail : mountedRoot.tail = (blockNull, blockNull) := by decide +kernel
  have htable : tableOf [name] = (Edit.put 0 nameSlot
      (some ⟨name.1.type, name.1.size, name.2⟩)).apply blank := by
    have hedit := hname.edit name.2
    rw [Prod.mk.eta] at hedit
    rw [tableOf, List.map_singleton, hedit]
    rfl
  have hentries : Entries mountedRoot.count (tableOf [name]) := by
    rw [htable, hcount]
    constructor
    · intro id hid
      rw [Edit.apply_put, if_pos ⟨by omega, rfl⟩]
      rfl
    · intro id hid slot
      rw [Edit.apply_put, if_neg fun h => by omega]
      rfl
  have honce : NamedOnce ([] ++ [name]) := .snoc .nil fun _ => rfl
  have hwfName : LogWf [name] := by
    intro attr hattr
    rw [List.mem_singleton.mp hattr]
    exact hname.wf
  have hscan : plainScan [name] = { count := 1 } := by
    have htype : name.1.type1 = tyName := hname.name
    rw [plainScan, scanLog, List.foldl_cons, List.foldl_nil]
    simp [Scan.step, htype, hname.id_eq]
  have hadmits : Admits [name] mountedRoot := by
    refine ⟨hwfName, honce, ?_, ?_, ?_, ?_, hentries⟩
    · rw [hscan, hcount]
    · rw [hscan, hsplit]
    · rw [hscan, htail]
    · rw [hsplit, htail]
      exact fun _ => ⟨rfl, rfl⟩
  rw [hlog]
  apply hadmits.structs
  · intro attr hattr
    rw [List.mem_singleton.mp hattr]
    exact hwf
  · intro attr hattr
    rw [List.mem_singleton.mp hattr]
    exact hkind
  · intro attr hattr
    rw [List.mem_singleton.mp hattr, hid, hcount]
    exact Nat.one_pos

end Littlefs
