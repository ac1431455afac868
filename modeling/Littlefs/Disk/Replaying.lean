import Littlefs.Disk.Writing
import Littlefs.Disk.RoundTrip
import Littlefs.Lib.Edits

/-!
# Looking a tag up in a log

What the tags of a log leave for every entry is their replay, from the first to the
last: a `CREATE` and a `DELETE` renumber the entries behind, and every other tag is
kept under its id and the bits of its type that a mask selects.  `lfs_dir_get` walks
from the last tag to the first and undoes the renumbering as it goes.
-/

namespace Littlefs.Disk

open Words Edits

variable {store : Store} {dir : LfsMdir} {bytes : ℕ → Octet} {block gmask gtag ptag ntag : Word}
  {off size fuel mask type id index : ℕ} {entry : TagData} {met log : List TagData}
  {place : Place} {commit : LogCommit} {commits : List LogCommit}

/-! ## Masks on tag words -/

theorem toNat_fields (word : Word) :
    word.toNat = word.toNat / 2 ^ 31 * 2 ^ 31 + (tagOf word).type * 2 ^ 20 +
      (tagOf word).id * 2 ^ 10 + (tagOf word).size := by
  simp only [tagOf]
  omega

theorem tagOf_type_lt (word : Word) : (tagOf word).type < 2 ^ 11 :=
  Nat.mod_lt _ (by norm_num)

theorem tagOf_id_lt (word : Word) : (tagOf word).id < 2 ^ 10 := Nat.mod_lt _ (by norm_num)

/-- A mask selects bits of the type and bits of the id. -/
theorem toNat_mktag_and (hmask : mask < 2 ^ 11) (hid : id < 2 ^ 10) (word : Word) :
    (mktag mask id 0 &&& word).toNat =
      (mask &&& (tagOf word).type) * 2 ^ 20 + (id &&& (tagOf word).id) * 2 ^ 10 := by
  rw [BitVec.toNat_and, toNat_mktag hmask hid (by norm_num)]
  have htop : (mask * 2 ^ 20 + id * 2 ^ 10 + 0 &&& word.toNat) / 2 ^ 20 =
      mask &&& (tagOf word).type := by
    rw [Nat.and_div_two_pow, show (mask * 2 ^ 20 + id * 2 ^ 10 + 0) / 2 ^ 20 = mask by omega]
    have hlow : mask % 2 ^ 11 = mask := Nat.mod_eq_of_lt hmask
    calc mask &&& word.toNat / 2 ^ 20
        = (mask &&& word.toNat / 2 ^ 20) % 2 ^ 11 := by
          rw [Nat.mod_eq_of_lt (lt_of_le_of_lt Nat.and_le_left hmask)]
      _ = mask &&& (tagOf word).type := by rw [Nat.and_mod_two_pow, hlow, tagOf]
  have hmiddle : (mask * 2 ^ 20 + id * 2 ^ 10 + 0 &&& word.toNat) / 2 ^ 10 % 2 ^ 10 =
      id &&& (tagOf word).id := by
    rw [Nat.and_div_two_pow, Nat.and_mod_two_pow, tagOf,
      show (mask * 2 ^ 20 + id * 2 ^ 10 + 0) / 2 ^ 10 % 2 ^ 10 = id by omega]
  have hlow : (mask * 2 ^ 20 + id * 2 ^ 10 + 0 &&& word.toNat) % 2 ^ 10 = 0 := by
    rw [Nat.and_mod_two_pow, show (mask * 2 ^ 20 + id * 2 ^ 10 + 0) % 2 ^ 10 = 0 by omega,
      Nat.zero_and]
  omega

theorem and_ten_bits (hindex : index < 2 ^ 10) : 0x3ff &&& index = index := by
  rw [Nat.and_comm]
  exact Nat.and_two_pow_sub_one_of_lt_two_pow hindex

/-- A mask with the id: the bits of the type agree and the ids are the same. -/
theorem and_mktag_iff (hmask : mask < 2 ^ 11) {word word' : Word} :
    mktag mask 0x3ff 0 &&& word = mktag mask 0x3ff 0 &&& word' ↔
      mask &&& (tagOf word).type = mask &&& (tagOf word').type ∧
        (tagOf word).id = (tagOf word').id := by
  have hid := tagOf_id_lt word
  have hid' := tagOf_id_lt word'
  have htype : mask &&& (tagOf word).type < 2 ^ 11 := lt_of_le_of_lt Nat.and_le_left hmask
  have htype' : mask &&& (tagOf word').type < 2 ^ 11 := lt_of_le_of_lt Nat.and_le_left hmask
  rw [← BitVec.toNat_inj, toNat_mktag_and hmask (by norm_num),
    toNat_mktag_and hmask (by norm_num), and_ten_bits hid, and_ten_bits hid']
  omega

/-- The tag of the creation of an entry. -/
theorem mktag_create_or {word : Word} :
    mktag tyCreate 0 0 ||| (mktag 0 0x3ff 0 &&& word) = mktag tyCreate (tagOf word).id 0 := by
  have hid := tagOf_id_lt word
  have hcreate : tyCreate < 2 ^ 11 := by decide
  apply BitVec.eq_of_toNat_eq
  rw [BitVec.toNat_or, toNat_mktag_and (by norm_num) (by norm_num), toNat_mktag hcreate hid
    (by norm_num), toNat_mktag hcreate (by norm_num) (by norm_num), and_ten_bits hid, Nat.zero_and]
  have hlow : (tagOf word).id * 2 ^ 10 < 2 ^ 20 := by omega
  have hor := Nat.shiftLeft_add_eq_or_of_lt hlow tyCreate
  rw [Nat.shiftLeft_eq] at hor
  simp only [Nat.zero_mul, Nat.zero_add, Nat.add_zero]
  exact hor.symm

/-- A creation behind is undone. -/
theorem mktag_sub_create (htype : type < 2 ^ 11) (hindex : index + 1 < 2 ^ 10)
    (hsize : size < 2 ^ 10) : mktag type (index + 1) size - mkdiff 1 = mktag type index size := by
  have hone : (mkdiff 1).toNat = 2 ^ 10 := by decide
  apply BitVec.eq_of_toNat_eq
  rw [BitVec.toNat_sub, hone, toNat_mktag htype hindex hsize, toNat_mktag htype (by omega) hsize]
  omega

/-- A deletion behind is undone. -/
theorem mktag_sub_delete (htype : type < 2 ^ 11) (hindex : index + 1 < 2 ^ 10)
    (hsize : size < 2 ^ 10) :
    mktag type index size - mkdiff (-1) = mktag type (index + 1) size := by
  have hone : (mkdiff (-1)).toNat = 2 ^ 32 - 2 ^ 10 := by decide
  apply BitVec.eq_of_toNat_eq
  rw [BitVec.toNat_sub, hone, toNat_mktag htype (by omega) hsize, toNat_mktag htype hindex hsize]
  omega

/-- The tag that is returned has the id that was asked for. -/
theorem tagOf_add_diff {gdiff : Word} (word : Word) (htype : type < 2 ^ 11) (hid : id < 2 ^ 10)
    (hindex : index < 2 ^ 10) (hsize : size < 2 ^ 10)
    (hdiff : mktag type id size - gdiff = mktag type index size) (hword : (tagOf word).id = index) :
    tagOf (word + gdiff) = { tagOf word with id := id } := by
  have hgdiff : gdiff = mktag type id size - mktag type index size := by
    rw [← hdiff]
    apply BitVec.eq_of_toNat_eq
    have hbound := gdiff.isLt
    have hbound' := (mktag type id size).isLt
    rw [BitVec.toNat_sub, BitVec.toNat_sub]
    omega
  have hnat : (word + gdiff).toNat = word.toNat - index * 2 ^ 10 + id * 2 ^ 10 := by
    have hfields := toNat_fields word
    have hbound := word.isLt
    rw [hgdiff, BitVec.toNat_add, BitVec.toNat_sub, toNat_mktag htype hid hsize,
      toNat_mktag htype hindex hsize]
    have htypes := tagOf_type_lt word
    have hsizes : (tagOf word).size < 2 ^ 10 := Nat.mod_lt _ (by norm_num)
    omega
  have hfields := toNat_fields word
  have htypes := tagOf_type_lt word
  have hsizes : (tagOf word).size < 2 ^ 10 := Nat.mod_lt _ (by norm_num)
  generalize tagOf word = fields at *
  rw [tagOf, hnat]
  have hbound := word.isLt
  obtain ⟨type', id', size'⟩ := fields
  simp only at hfields htypes hsizes hword ⊢
  rw [Tag.mk.injEq]
  omega

/-! ## Replay -/

/-- What a tag does to the entries, as far as `mask` tells types apart. -/
def entryEdit (mask : ℕ) (entry : TagData) : Edit ℕ TagData :=
  if (tagOf entry.1).type = tyCreate then
    .insert (tagOf entry.1).id
  else if (tagOf entry.1).type = tyDelete then
    .erase (tagOf entry.1).id
  else
    .put (tagOf entry.1).id (mask &&& (tagOf entry.1).type)
      (if (tagOf entry.1).isdelete then none else some entry)

/-- What the tags of a log leave for every id and every selection of types. -/
def replayed (mask : ℕ) (log : List TagData) : Table ℕ TagData :=
  replay blank (log.map (entryEdit mask))

/-- What the tags of a log leave for a type without an id. -/
def lastOf (type : ℕ) (log : List TagData) : Option TagData :=
  log.foldl (fun last entry =>
    if (tagOf entry.1).type = type then
      if (tagOf entry.1).isdelete then none else some entry
    else last) none

/-- A tag splices as `CREATE` without data or as `DELETE`, or not at all. -/
def ProperSplice (tag : Word) : Prop :=
  (tagOf tag).type1 = tySplice →
    (tagOf tag).type = tyCreate ∧ (tagOf tag).size = 0 ∨ (tagOf tag).type = tyDelete

instance (tag : Word) : Decidable (ProperSplice tag) := inferInstanceAs (Decidable (_ → _))

/-- The ids that the entry at `index` had, from the last tag of a log back to its
creation. -/
def pastIds : List TagData → ℕ → List ℕ
  | [], index => [index]
  | entry :: older, index =>
      index :: if (tagOf entry.1).type = tyCreate then
        if (tagOf entry.1).id = index then []
        else pastIds older (if (tagOf entry.1).id < index then index - 1 else index)
      else if (tagOf entry.1).type = tyDelete then
        pastIds older (if (tagOf entry.1).id ≤ index then index + 1 else index)
      else
        pastIds older index

/-- A log, its last tag first, that leaves `count` entries and never had more of them
than tags have ids. -/
def Peopled : List TagData → ℕ → Prop
  | [], count => count ≤ 2 ^ 10
  | entry :: older, count =>
      count ≤ 2 ^ 10 ∧
        if (tagOf entry.1).type = tyCreate then
          (tagOf entry.1).id < count ∧ Peopled older (count - 1)
        else if (tagOf entry.1).type = tyDelete then
          (tagOf entry.1).id ≤ count ∧ Peopled older (count + 1)
        else Peopled older count

/-- The entries of such a directory never had an id that no tag could name. -/
theorem Peopled.pastIds_lt {count : ℕ} (hpeopled : Peopled met count) (hindex : index < count) :
    ∀ old ∈ pastIds met index, old < 2 ^ 10 := by
  induction met generalizing index count with
  | nil =>
      intro old hold
      obtain rfl := List.mem_singleton.mp hold
      exact lt_of_lt_of_le hindex hpeopled
  | cons entry older ih =>
      obtain ⟨hcount, hrest⟩ := hpeopled
      intro old hold
      rw [pastIds] at hold
      obtain rfl | hbehind := List.mem_cons.mp hold
      · exact lt_of_lt_of_le hindex hcount
      · by_cases hcreate : (tagOf entry.1).type = tyCreate
        · rw [if_pos hcreate] at hbehind hrest
          obtain ⟨hid, holder⟩ := hrest
          by_cases hborn : (tagOf entry.1).id = index
          · rw [if_pos hborn] at hbehind
            exact absurd hbehind List.not_mem_nil
          · rw [if_neg hborn] at hbehind
            refine ih holder ?_ old hbehind
            split <;> omega
        · rw [if_neg hcreate] at hbehind hrest
          by_cases hdelete : (tagOf entry.1).type = tyDelete
          · rw [if_pos hdelete] at hbehind hrest
            refine ih hrest.2 ?_ old hbehind
            split <;> omega
          · rw [if_neg hdelete] at hbehind hrest
            exact ih hrest hindex old hbehind

/-- The answer of `lfs_dir_get` about what is found: the tag under the id asked for, and
its data, filled up with zeros or cut. -/
def found (id size : ℕ) : Option TagData → Except Fault (Tag × List Octet)
  | none => .error (.error .noEntry)
  | some (tag, data) => .ok ({ tagOf tag with id := id }, padded size data)

theorem type1_of_mask (hmask : mask &&& 0x700 = 0x700) {type type' : ℕ}
    (hsame : mask &&& type = mask &&& type') : type &&& 0x700 = type' &&& 0x700 := by
  have hpart : ∀ type : ℕ, (mask &&& type) &&& 0x700 = type &&& 0x700 := by
    intro type
    rw [Nat.and_assoc, Nat.and_comm type, ← Nat.and_assoc, hmask, Nat.and_comm]
  rw [← hpart type, hsame, hpart]

theorem splice_of_create {tag : Tag} (htype : tag.type = tyCreate) :
    tag.type1 = tySplice ∧ tag.splice = 1 := by
  simp [Tag.type1, Tag.splice, Tag.chunk, htype, tyCreate, tySplice]

theorem splice_of_delete {tag : Tag} (htype : tag.type = tyDelete) :
    tag.type1 = tySplice ∧ tag.splice = -1 := by
  simp [Tag.type1, Tag.splice, Tag.chunk, htype, tyDelete, tySplice]

theorem sub_add_eq (a b c : Word) : a - (b + c) = a - b - c := by
  apply BitVec.eq_of_toNat_eq
  have ha := a.isLt
  have hb := b.isLt
  have hc := c.isLt
  simp only [BitVec.toNat_sub, BitVec.toNat_add]
  omega

/-- A valid word is known by its fields. -/
theorem word_eq_of_tagOf {word word' : Word} (hvalid : isvalid word = true)
    (hvalid' : isvalid word' = true) (hsame : tagOf word = tagOf word') : word = word' := by
  have hlow : ∀ word : Word, isvalid word = true → word.toNat / 2 ^ 31 = 0 := by
    intro word hvalid
    have htop := toNat_clear word
    rw [clear_eq_self hvalid] at htop
    omega
  apply BitVec.eq_of_toNat_eq
  rw [toNat_fields word, toNat_fields word', hlow word hvalid, hlow word' hvalid', hsame]

/-- The walk with an id is the search of the edits. -/
theorem Store.getsliceGo_search (hblock : store.Readable block) (hmask : mask < 2 ^ 11)
    (hclass : mask &&& 0x700 = 0x700) (htype : type < 2 ^ 11)
    (hsplice : type &&& 0x700 ≠ tySplice) (hid : id < 2 ^ 10) (hsize : size < 2 ^ 10)
    (htrail : Trail (store.bytes block) off ptag met) (hoff : off ≤ store.cfg.blockSize)
    (hproper : ∀ entry ∈ met, ProperSplice entry.1)
    (hpast : ∀ old ∈ pastIds met index, old < 2 ^ 10)
    (hntag : ntag &&& 0x7fffffff = ptag &&& 0x7fffffff)
    (hvalid : isvalid ntag = true ∨ (tagOf ntag).type1 ≠ tySplice) (hfuel : off < fuel)
    {gdiff : Word} (hgdiff : mktag type id size - gdiff = mktag type index size) :
    (store.getsliceGo block (mktag mask 0x3ff 0) (mktag type id size) 0 size fuel off ntag
        gdiff).map fieldsOf =
      found id size (search (mask &&& type) (met.map (entryEdit mask)) index) := by
  induction htrail generalizing fuel ntag index gdiff with
  | first =>
      obtain ⟨fuel, rfl⟩ := Nat.exists_eq_add_of_lt (Nat.zero_lt_of_lt hfuel)
      have hdsize := four_le_dsize (tagOf ntag)
      have hstop : ¬4 + (tagOf ntag).dsize ≤ 4 := by omega
      rw [Nat.zero_add, Store.getsliceGo, if_neg hstop]
      rfl
  | @tag off ptag met tag hrest htag ih =>
      obtain ⟨fuel, rfl⟩ := Nat.exists_eq_add_of_lt (Nat.zero_lt_of_lt hfuel)
      have hdsize := four_le_dsize (tagOf tag)
      have hsame : tagOf ntag = tagOf tag := tagOf_low hntag
      have hclear : ptag &&& 0x7fffffff &&& 0x7fffffff = ptag &&& 0x7fffffff := by
        rw [BitVec.and_assoc, BitVec.and_self]
      obtain ⟨hhead, htail⟩ := List.forall_mem_cons.mp hproper
      have hgmask : (tagOf (mktag mask 0x3ff 0)).id ≠ 0 := by
        rw [tagOf_mktag hmask (by norm_num) (by norm_num)]
        norm_num
      have hnow : index < 2 ^ 10 := hpast index List.mem_cons_self
      have hfields : tagOf (mktag type index size) = ⟨type, index, size⟩ :=
        tagOf_mktag htype hnow hsize
      have hnext (index' : ℕ) (gdiff' : Word)
          (hpast' : ∀ old ∈ pastIds met index', old < 2 ^ 10)
          (hgdiff' : mktag type id size - gdiff' = mktag type index' size) :
          (store.getsliceGo block (mktag mask 0x3ff 0) (mktag type id size) 0 size fuel off
              (ptag &&& 0x7fffffff) gdiff').map fieldsOf =
            found id size (search (mask &&& type) (met.map (entryEdit mask)) index') := by
        apply ih (by omega) htail hpast' hclear (Or.inl (isvalid_clear ptag)) (by omega) hgdiff'
      have hmatch (index' : ℕ) (hindex' : index' < 2 ^ 10) :
          mktag mask 0x3ff 0 &&& ntag = mktag mask 0x3ff 0 &&& mktag type index' size ↔
            mask &&& (tagOf tag).type = mask &&& type ∧ (tagOf tag).id = index' := by
        rw [and_mktag_iff hmask, hsame, tagOf_mktag htype hindex' hsize]
      have hapart (hsplices : (tagOf tag).type1 = tySplice) :
          mask &&& (tagOf tag).type ≠ mask &&& type := fun hsame =>
        hsplice ((type1_of_mask hclass hsame).symm.trans hsplices)
      rw [Nat.zero_add, Store.getsliceGo_step hblock hrest htag hoff hntag]
      simp only [hgdiff, mktag_create_or, hfields, hgmask, ne_eq, not_false_eq_true, true_and]
      rw [List.map_cons]
      by_cases hcreate : (tagOf tag).type = tyCreate
      · obtain ⟨hsplices, hone⟩ := splice_of_create hcreate
        have hempty : (tagOf tag).size = 0 := by
          obtain ⟨-, hempty⟩ | hdelete := hhead hsplices
          · exact hempty
          · rw [hcreate] at hdelete
            exact absurd hdelete (by decide)
        rw [entryEdit, if_pos hcreate, search]
        rw [pastIds, if_pos hcreate] at hpast
        have hword : ntag = mktag tyCreate index 0 ↔ (tagOf tag).id = index := by
          have hfields : tagOf (mktag tyCreate index 0) = ⟨tyCreate, index, 0⟩ :=
            tagOf_mktag (by decide) hnow (by norm_num)
          constructor
          · intro heq
            rw [← hsame, heq, hfields]
          · intro hhere
            apply word_eq_of_tagOf
            · exact hvalid.resolve_right (by rw [hsame]; exact not_not.mpr hsplices)
            · exact isvalid_mktag (by decide) hnow (by norm_num)
            · rw [hsame, hfields, ← hcreate, ← hhere, ← hempty]
        by_cases hhere : (tagOf tag).id = index
        · have hborn : ((tagOf tag).type1 = tySplice ∧ (tagOf tag).id ≤ index) ∧
              ntag = mktag tyCreate index 0 := ⟨⟨hsplices, hhere.le⟩, hword.mpr hhere⟩
          rw [if_pos hborn, if_pos hhere]
          rfl
        · rw [if_neg hhere] at hpast ⊢
          rw [if_neg fun hborn => hhere (hword.mp hborn.2)]
          by_cases hbefore : (tagOf tag).id < index
          · have hspliced : (tagOf tag).type1 = tySplice ∧ (tagOf tag).id ≤ index :=
              ⟨hsplices, hbefore.le⟩
            have hpred : index - 1 + 1 = index := by omega
            have hgdiff' : mktag type id size - (gdiff + mkdiff 1) =
                mktag type (index - 1) size := by
              rw [sub_add_eq, hgdiff]
              have hundo := mktag_sub_create htype (hpred ▸ hnow) hsize
              rwa [hpred] at hundo
            rw [if_pos hbefore] at hpast ⊢
            simp only [if_pos hspliced, hone, hgdiff']
            rw [if_neg fun hequal => hapart hsplices ((hmatch _ (by omega)).mp hequal).1]
            exact hnext _ _ (fun old hold => hpast old (List.mem_cons_of_mem _ hold)) hgdiff'
          · have hspliced : ¬((tagOf tag).type1 = tySplice ∧ (tagOf tag).id ≤ index) :=
              fun hspliced => hbefore (lt_of_le_of_ne hspliced.2 hhere)
            rw [if_neg hbefore] at hpast ⊢
            simp only [if_neg hspliced, hgdiff]
            rw [if_neg fun hequal => hapart hsplices ((hmatch _ hnow).mp hequal).1]
            exact hnext _ _ (fun old hold => hpast old (List.mem_cons_of_mem _ hold)) hgdiff
      · have hword : ¬(((tagOf tag).type1 = tySplice ∧ (tagOf tag).id ≤ index) ∧
            ntag = mktag tyCreate index 0) := by
          rintro ⟨-, hword⟩
          have hfields : tagOf (mktag tyCreate index 0) = ⟨tyCreate, index, 0⟩ :=
            tagOf_mktag (by decide) hnow (by norm_num)
          apply hcreate
          rw [← hsame, hword, hfields]
        rw [entryEdit, if_neg hcreate, if_neg hword]
        rw [pastIds, if_neg hcreate] at hpast
        by_cases hdelete : (tagOf tag).type = tyDelete
        · obtain ⟨hsplices, hone⟩ := splice_of_delete hdelete
          rw [if_pos hdelete, search]
          rw [if_pos hdelete] at hpast
          by_cases hbefore : (tagOf tag).id ≤ index
          · have hspliced : (tagOf tag).type1 = tySplice ∧ (tagOf tag).id ≤ index :=
              ⟨hsplices, hbefore⟩
            rw [if_pos hbefore] at hpast ⊢
            have hlater : index + 1 < 2 ^ 10 := by
              apply hpast (index + 1)
              cases met <;> exact List.mem_cons_of_mem _ List.mem_cons_self
            have hgdiff' : mktag type id size - (gdiff + mkdiff (-1)) =
                mktag type (index + 1) size := by
              rw [sub_add_eq, hgdiff, mktag_sub_delete htype hlater hsize]
            simp only [if_pos hspliced, hone, hgdiff']
            rw [if_neg fun hequal => hapart hsplices ((hmatch _ hlater).mp hequal).1]
            exact hnext _ _ (fun old hold => hpast old (List.mem_cons_of_mem _ hold)) hgdiff'
          · have hspliced : ¬((tagOf tag).type1 = tySplice ∧ (tagOf tag).id ≤ index) :=
              fun hspliced => hbefore hspliced.2
            rw [if_neg hbefore] at hpast ⊢
            simp only [if_neg hspliced, hgdiff]
            rw [if_neg fun hequal => hapart hsplices ((hmatch _ hnow).mp hequal).1]
            exact hnext _ _ (fun old hold => hpast old (List.mem_cons_of_mem _ hold)) hgdiff
        · have hsplices : (tagOf tag).type1 ≠ tySplice := fun hsplices =>
            (hhead hsplices).elim (fun hborn => hcreate hborn.1) hdelete
          have hspliced : ¬((tagOf tag).type1 = tySplice ∧ (tagOf tag).id ≤ index) :=
            fun hspliced => hsplices hspliced.1
          rw [if_neg hdelete, search]
          rw [if_neg hdelete] at hpast
          simp only [if_neg hspliced, hgdiff, hmatch index hnow]
          by_cases hcell : (tagOf tag).id = index ∧ mask &&& (tagOf tag).type = mask &&& type
          · rw [if_pos hcell, if_pos ⟨hcell.2, hcell.1⟩]
            by_cases hgone : (tagOf tag).isdelete = true
            · rw [if_pos hgone, if_pos hgone]
              rfl
            · have hanswer := tagOf_add_diff ntag htype hid hnow hsize hgdiff
                (by rw [hsame]; exact hcell.1)
              rw [if_neg hgone, if_neg hgone, found, ← hsame, ← hanswer]
              rfl
          · rw [if_neg hcell, if_neg fun hboth => hcell ⟨hboth.2, hboth.1⟩]
            exact hnext _ _ (fun old hold => hpast old (List.mem_cons_of_mem _ hold)) hgdiff

/-! ## Lookups without an id -/

theorem lastOf_append (log : List TagData) (entry : TagData) :
    lastOf type (log ++ [entry]) =
      if (tagOf entry.1).type = type then
        if (tagOf entry.1).isdelete then none else some entry
      else lastOf type log := by
  simp only [lastOf, List.foldl_append, List.foldl_cons, List.foldl_nil]

/-- The answer of a lookup without an id: the tag as it is. -/
def foundLast (size : ℕ) : Option TagData → Except Fault (Tag × List Octet)
  | none => .error (.error .noEntry)
  | some (tag, data) => .ok (tagOf tag, padded size data)

/-- The last tag of its type, whatever its id, is the first that the walk meets. -/
theorem findTag_lastOf (hid : id < 2 ^ 10) (htype : type < 2 ^ 11) {size' : ℕ}
    (hsize : size' < 2 ^ 10) (log : List TagData) :
    findTag (mktag 0x7ff 0 0) (mktag type id size') size log.reverse =
      foundLast size (lastOf type log) := by
  induction log using List.reverseRecOn with
  | nil => rfl
  | append_singleton log entry ih =>
      have hmatch : matchesTag (mktag 0x7ff 0 0) (mktag type id size') entry = true ↔
          (tagOf entry.1).type = type := by
        rw [matchesTag_type, tagOf_mktag htype hid hsize]
      rw [List.reverse_append, List.reverse_cons, List.reverse_nil, List.nil_append,
        List.singleton_append, lastOf_append]
      by_cases hsame : (tagOf entry.1).type = type
      · rw [findTag, List.find?_cons_of_pos (hmatch.mpr hsame), if_pos hsame]
        by_cases hgone : (tagOf entry.1).isdelete = true
        · simp only [hgone, if_true]
          rfl
        · simp only [if_neg hgone]
          rfl
      · rw [findTag, List.find?_cons_of_neg (mt hmatch.mp hsame), if_neg hsame]
        exact ih

/-! ## Logs that commits write -/

/-- The attributes that a caller commits. -/
structure Proper (attrs : List LfsMattr) (block : Word) (low : ℕ) : Prop where
  committable : Committable attrs block low
  splices : ∀ attr ∈ attrs, ProperSplice attr.tag

/-- The directories that commits write: a compaction, commits appended to it, and in
between whatever leaves the block alone. -/
inductive Logged : Store → LfsMdir → Prop
  | compacted {store store' : Store} {dir dir' : LfsMdir} {blank : ℕ → Octet} {relocated : Bool}
      {attrs : List LfsMattr} {count : ℕ} (hgeometry : Geometry store.cfg)
      (hreadable : store.Readable dir.pair.2) (hattrs : Proper attrs dir.pair.2 4)
      (hrun : lfsDirCompact store dir blank relocated attrs count = .ok (store', dir')) :
      Logged store' dir'
  | appended {store store' : Store} {dir dir' : LfsMdir} {attrs : List LfsMattr}
      (hlogged : Logged store dir) (hattrs : Proper attrs dir.pair.1 dir.off)
      (hrun : lfsDirAppend store dir attrs = .ok (store', dir')) : Logged store' dir'
  | kept {store store' : Store} {dir dir' : LfsMdir} (hlogged : Logged store dir)
      (hcfg : store'.cfg = store.cfg) (hcount : store'.blockCount = store.blockCount)
      (hbytes : store'.bytes dir.pair.1 = store.bytes dir.pair.1)
      (hpair : dir'.pair.1 = dir.pair.1) (hoff : dir'.off = dir.off)
      (hetag : dir'.etag = dir.etag) : Logged store' dir'

/-- All splices of a log are proper. -/
def ProperLog (store : Store) (block : Word) : Prop :=
  ∀ entry ∈ (store.log block).flatMap LogCommit.entries, ProperSplice entry.tag

theorem properSplice_of_mem {more : List LogCommit} {tags : List TagData}
    (htags : (more.flatMap LogCommit.entries).map Entry.tagData = tags)
    (hproper : ∀ entry ∈ tags, ProperSplice entry.1) :
    ∀ entry ∈ more.flatMap LogCommit.entries, ProperSplice entry.tag := by
  intro entry hmem
  have htag := hproper entry.tagData (htags ▸ List.mem_map_of_mem hmem)
  exact htag

theorem properSplice_fcrcTag : ProperSplice fcrcTag := by decide

theorem properSplice_forwardTags (store : Store) (block : Word) (stop : ℕ) :
    ∀ entry ∈ store.forwardTags block stop, ProperSplice entry.1 := by
  intro entry hmem
  rw [Store.forwardTags] at hmem
  split at hmem
  · obtain rfl := List.mem_singleton.mp hmem
    exact properSplice_fcrcTag
  · exact absurd hmem List.not_mem_nil

theorem properSplice_attrs {attrs : List LfsMattr}
    (hproper : ∀ attr ∈ attrs, ProperSplice attr.tag) :
    ∀ entry ∈ attrs.map fun attr => attr.tagData store, ProperSplice entry.1 := by
  intro entry hmem
  obtain ⟨attr, hattr, rfl⟩ := List.mem_map.mp hmem
  rw [LfsMattr.tagData, ProperSplice, tagOf_clear]
  exact hproper attr hattr

theorem Proper.append {attrs more : List LfsMattr} {low : ℕ} (hattrs : Proper attrs block low)
    (hmore : Proper more block low) : Proper (attrs ++ more) block low where
  committable := hattrs.committable.append hmore.committable
  splices attr hmem := (List.mem_append.mp hmem).elim (hattrs.splices attr) (hmore.splices attr)

theorem proper_nil (block : Word) (low : ℕ) : Proper [] block low where
  committable := fun _ hmem => absurd hmem List.not_mem_nil
  splices := fun _ hmem => absurd hmem List.not_mem_nil

theorem properSplice_movestateTag : ProperSplice movestateTag := by decide

theorem properSplice_tailTag (split : Bool) : ProperSplice (tailTag split) := by
  cases split <;> decide

theorem proper_movestate (order : ByteOrder) (delta : LfsGstate) (block : Word) (low : ℕ) :
    Proper [movestateAttr order delta] block low where
  committable := committable_movestate order delta low
  splices attr hmem := by
    obtain rfl := List.mem_singleton.mp hmem
    exact properSplice_movestateTag

theorem proper_tailAttrs (order : ByteOrder) (dir : LfsMdir) (block : Word) (low : ℕ) :
    Proper (tailAttrs order dir) block low where
  committable := committable_tailAttrs order dir low
  splices attr hmem := by
    rw [tailAttrs] at hmem
    split at hmem
    · exact absurd hmem List.not_mem_nil
    · obtain rfl := List.mem_singleton.mp hmem
      exact properSplice_tailTag dir.split

theorem ProperLog.append {old more : List LogCommit} {attrs : List LfsMattr} {stop : ℕ}
    {sealed : Store} (hlog : sealed.log block = old ++ more)
    (hold : ∀ entry ∈ old.flatMap LogCommit.entries, ProperSplice entry.tag)
    (htags : (more.flatMap LogCommit.entries).map Entry.tagData =
      (attrs.map fun attr => attr.tagData store) ++ sealed.forwardTags block stop)
    (hattrs : ∀ attr ∈ attrs, ProperSplice attr.tag) : ProperLog sealed block := by
  intro entry hmem
  rw [hlog, List.flatMap_append] at hmem
  obtain hleft | hright := List.mem_append.mp hmem
  · exact hold entry hleft
  · apply properSplice_of_mem htags _ entry hright
    intro entry hmem
    obtain hattr | hforward := List.mem_append.mp hmem
    · exact properSplice_attrs hattrs entry hattr
    · exact properSplice_forwardTags sealed block stop entry hforward

/-- What commits write ends where its log ends, and splices properly. -/
theorem Logged.holds (hlogged : Logged store dir) :
    Holds store dir ∧ ProperLog store dir.pair.1 := by
  induction hlogged with
  | @compacted store store' dir dir' blank relocated attrs count hgeometry hreadable hattrs hrun =>
      obtain ⟨more, sealed, commit', state, -, ⟨delta, -, hmore⟩, hcommit, hstore, hdir⟩ :=
        lfsDirCompact_ok hrun
      have hall : Proper (attrs ++ tailAttrs store.order dir ++ more) dir.pair.2 4 := by
        apply (hattrs.append (proper_tailAttrs _ _ _ _)).append
        rw [hmore]
        split
        · exact proper_nil _ _
        · exact proper_movestate _ _ _ _
      have hgeometry' : Geometry (store.erase dir.pair.2 blank).cfg := hgeometry
      have hreadable' : (store.erase dir.pair.2 blank).Readable dir.pair.2 := hreadable
      have hpair : dir'.pair.1 = dir.pair.2 := by rw [hdir]; rfl
      obtain ⟨hholds, more', hlog, htags⟩ := fresh_holds dir' hgeometry' hreadable'
        hall.committable hcommit hpair (by rw [hdir]) (by rw [hdir])
      rw [hstore]
      constructor
      · exact hholds.congr rfl rfl rfl rfl rfl rfl
      · rw [hpair]
        have hnone : ∀ entry ∈ ([] : List LogCommit).flatMap LogCommit.entries,
            ProperSplice entry.tag := fun entry hmem => absurd hmem List.not_mem_nil
        have hlog' : (sealed.settled relocated).log dir.pair.2 = [] ++ more' := hlog
        exact ProperLog.append hlog' hnone htags hall.splices
  | @appended store store' dir dir' attrs hlogged hattrs hrun ih =>
      obtain ⟨more, sealed, commit', dir₁, state, hdir₁, -, hmore, hcommit, hstore, hdir⟩ :=
        lfsDirAppend_ok hrun
      have hall : Proper (attrs ++ more) dir.pair.1 dir.off := by
        apply hattrs.append
        obtain ⟨-, rfl⟩ | ⟨delta, -, rfl⟩ := hmore
        · exact proper_nil _ _
        · exact proper_movestate _ _ _ _
      have hpair : dir'.pair.1 = dir.pair.1 := by rw [hdir, attrs_place hdir₁]
      obtain ⟨-, hholds, more', hlog, htags⟩ := ih.1.appended dir' hall.committable hcommit
        hpair (by rw [hdir]) (by rw [hdir])
      rw [hstore]
      constructor
      · exact hholds.congr rfl rfl rfl rfl rfl rfl
      · rw [hpair]
        exact ProperLog.append hlog ih.2 htags hall.splices
  | kept hlogged hcfg hcount hbytes hpair hoff hetag ih =>
      constructor
      · exact ih.1.congr hcfg hcount hbytes hpair hoff hetag
      · rw [ProperLog, Store.log, hcfg, hpair, hbytes]
        exact ih.2

/-! ## Lookups -/

/-- A lookup while no move out of the directory is pending. -/
theorem lfsDirGet_eq (hmove : store.gdisk.hasmovehere dir.pair = false) (gmask gtag : Word) :
    lfsDirGet store dir gmask gtag =
      store.getsliceGo dir.pair.1 gmask gtag 0 (tagOf gtag).size (dir.off + 1) dir.off dir.etag
        0 := by
  rw [lfsDirGet, lfsDirGetslice]
  simp only [hmove, Bool.false_eq_true, false_and, if_false]

/-- The log of a directory, from its first tag to its last, with the CRC tags. -/
def Store.logTags (store : Store) (block : Word) : List TagData :=
  chainTags (store.bytes block) (store.log block)

theorem Holds.trail (hholds : Holds store dir) :
    Trail (store.bytes dir.pair.1) dir.off dir.etag (store.logTags dir.pair.1).reverse := by
  have htrail := (store.log_chain dir.pair.1).trail Trail.first
  rw [hholds.place_eq, List.append_nil] at htrail
  exact htrail

theorem Holds.off_le (hholds : Holds store dir) : dir.off ≤ store.cfg.blockSize := by
  have hsize : 4 ≤ store.cfg.blockSize := Nat.le_trans (by norm_num) hholds.geometry.block_le
  have hend := (store.log_chain dir.pair.1).end_le hsize
  rw [hholds.place_eq] at hend
  exact hend

theorem type1_of_ccrc {tag : Tag} (hcrc : tag.type2 = tyCcrc) : tag.type1 ≠ tySplice := by
  have hpart : tag.type &&& 0x780 &&& 0x700 = tag.type &&& 0x700 := by
    rw [Nat.and_assoc]
    rfl
  rw [show tag.type &&& 0x780 = tyCcrc from hcrc] at hpart
  rw [Tag.type1, ← hpart]
  decide

/-- CRC tags splice nothing. -/
theorem ProperLog.logTags (hproper : ProperLog store block) :
    ∀ entry ∈ (store.logTags block).reverse, ProperSplice entry.1 := by
  intro entry hmem
  rw [List.mem_reverse] at hmem
  by_cases hentry : ofEntry entry = true
  · have hfiltered : entry ∈ (store.logTags block).filter ofEntry :=
      List.mem_filter.mpr ⟨hmem, hentry⟩
    rw [Store.logTags, (store.log_chain block).filter_chainTags] at hfiltered
    obtain ⟨read, hread, rfl⟩ := List.mem_map.mp hfiltered
    exact hproper read hread
  · rw [ofEntry, bne_iff_ne, not_not] at hentry
    exact fun hsplice => absurd hsplice (type1_of_ccrc hentry)

theorem Chain.end_ccrc {size : ℕ} (hchain : Chain size bytes place commits)
    (hne : commits ≠ []) : (tagOf (endFrom place commits).ptag).type2 = tyCcrc := by
  induction hchain with
  | nil place => exact absurd rfl hne
  | @cons place commit rest hcommit hrest ih =>
      cases rest with
      | nil =>
          obtain ⟨hentries, hcloses⟩ := hcommit
          simp only [endFrom, List.foldl_cons, List.foldl_nil, closed, tagOf_perturb]
          exact hcloses.2.2.1
      | cons next rest => exact ih (List.cons_ne_nil next rest)

/-- The tag that a lookup starts from is a CRC tag. -/
theorem Holds.type1_etag (hholds : Holds store dir) : (tagOf dir.etag).type1 ≠ tySplice := by
  have hcrc := (store.log_chain dir.pair.1).end_ccrc hholds.log_ne
  rw [hholds.place_eq] at hcrc
  exact type1_of_ccrc hcrc

/-- The id of an entry never was too large for a tag, in the whole of the log. -/
def FitsTag (log : List TagData) (id : ℕ) : Prop :=
  ∀ old ∈ pastIds log.reverse id, old < 2 ^ 10

instance (log : List TagData) (id : ℕ) : Decidable (FitsTag log id) :=
  inferInstanceAs (Decidable (∀ old ∈ _, _))

theorem FitsTag.lt (hfits : FitsTag log id) : id < 2 ^ 10 := by
  apply hfits
  cases log.reverse <;> exact List.mem_cons_self

/-- A lookup with an id finds what the replay of the log leaves for it. -/
theorem Holds.get_id (hholds : Holds store dir) (hproper : ProperLog store dir.pair.1)
    (hmove : store.gdisk.hasmovehere dir.pair = false) (hmask : mask < 2 ^ 11)
    (hclass : mask &&& 0x700 = 0x700) (htype : type < 2 ^ 11)
    (hsplice : type &&& 0x700 ≠ tySplice) (hsize : size < 2 ^ 10)
    (hfits : FitsTag (store.logTags dir.pair.1) id) :
    (lfsDirGet store dir (mktag mask 0x3ff 0) (mktag type id size)).map fieldsOf =
      found id size (replayed mask (store.logTags dir.pair.1) id (mask &&& type)) := by
  have hid := hfits.lt
  have hsearch : search (mask &&& type)
      ((store.logTags dir.pair.1).reverse.map (entryEdit mask)) id =
        replayed mask (store.logTags dir.pair.1) id (mask &&& type) := by
    rw [search_eq_replay, ← List.map_reverse, List.reverse_reverse, replayed]
  have hzero : mktag type id size - (0 : Word) = mktag type id size := BitVec.sub_zero _
  rw [lfsDirGet_eq hmove, tagOf_mktag htype hid hsize, ← hsearch]
  exact Store.getsliceGo_search hholds.readable hmask hclass htype hsplice hid hsize hholds.trail
    hholds.off_le hproper.logTags hfits rfl (Or.inr hholds.type1_etag) (Nat.lt_succ_self _) hzero

/-- A lookup without an id finds the last tag of its type. -/
theorem Holds.get_last (hholds : Holds store dir)
    (hmove : store.gdisk.hasmovehere dir.pair = false) (htype : type < 2 ^ 11)
    (hid : id < 2 ^ 10) (hsize : size < 2 ^ 10) :
    (lfsDirGet store dir (mktag 0x7ff 0 0) (mktag type id size)).map fieldsOf =
      foundLast size (lastOf type (store.logTags dir.pair.1)) := by
  rw [lfsDirGet_eq hmove, tagOf_mktag htype hid hsize, ← findTag_lastOf hid htype hsize]
  exact Store.getsliceGo_eq hholds.readable (by decide) (by decide) hholds.trail hholds.off_le rfl
    (Nat.lt_succ_self _)

/-- On every log that commits wrote, a lookup backwards finds what a replay forwards
leaves. -/
theorem lfsDirGet_replay (hlogged : Logged store dir)
    (hmove : store.gdisk.hasmovehere dir.pair = false) :
    (∀ mask ∈ [0x7ff, 0x700, 0x780], ∀ type id size, type < 2 ^ 11 →
      type &&& 0x700 ≠ tySplice → size < 2 ^ 10 → FitsTag (store.logTags dir.pair.1) id →
      (lfsDirGet store dir (mktag mask 0x3ff 0) (mktag type id size)).map fieldsOf =
        found id size (replayed mask (store.logTags dir.pair.1) id (mask &&& type))) ∧
    (∀ type id size, type < 2 ^ 11 → id < 2 ^ 10 → size < 2 ^ 10 →
      (lfsDirGet store dir (mktag 0x7ff 0 0) (mktag type id size)).map fieldsOf =
        foundLast size (lastOf type (store.logTags dir.pair.1))) := by
  obtain ⟨hholds, hproper⟩ := hlogged.holds
  constructor
  · intro mask hmask type id size htype hsplice hsize hfits
    have hclass : mask < 2 ^ 11 ∧ mask &&& 0x700 = 0x700 := by
      revert mask
      decide
    exact hholds.get_id hproper hmove hclass.1 hclass.2 htype hsplice hsize hfits
  · intro type id size htype hid hsize
    exact hholds.get_last hmove htype hid hsize

/-! ## Where a lookup goes astray -/

/-- One commit: the creation of an inline file, and of two more files that are deleted
again. -/
def splicedAttrs : List LfsMattr :=
  [memoryAttr (mktag tyCreate 0 0) [] isvalid_firstCreate,
    memoryAttr (mktag tyInlinestruct 0 1) [7] (by decide),
    memoryAttr (mktag tyCreate 1 0) [] (by decide), memoryAttr (mktag tyCreate 2 0) [] (by decide),
    memoryAttr (mktag tyDelete 2 0) [] (by decide), memoryAttr (mktag tyDelete 1 0) [] (by decide)]

def splicedWrite : Except Fault (Store × LfsMdir) :=
  lfsDirCompact (blockStore []) { pair := (0, 1), rev := 1, tail := (nullWord, nullWord) }
    (fun _ => 0xff) false splicedAttrs 1

theorem splicedAttrs_proper : Proper splicedAttrs 1 4 where
  committable := by
    intro attr hmem
    simp only [splicedAttrs, List.mem_cons, List.not_mem_nil, or_false] at hmem
    obtain rfl | rfl | rfl | rfl | rfl | rfl := hmem <;> exact ⟨by decide, trivial⟩
  splices := by decide

theorem test_of_ok {α : Type} {run : Except Fault α} {value : α} {test : α → Bool}
    (htest : run.map test = .ok true) (hrun : run = .ok value) : test value = true := by
  subst hrun
  exact Except.ok.inj htest

theorem splicedWrite_logged : ∃ written, splicedWrite = .ok written ∧
    Logged written.1 written.2 ∧ written.1.gdisk.hasmovehere written.2.pair = false := by
  have hok : splicedWrite.isOk = true := by decide +kernel
  have hmove : splicedWrite.map (fun written =>
      !written.1.gdisk.hasmovehere written.2.pair) = .ok true := by decide +kernel
  cases hrun : splicedWrite with
  | error fault =>
      rw [hrun] at hok
      cases hok
  | ok written =>
      refine ⟨written, rfl, ?_, ?_⟩
      · exact Logged.compacted (blockStore_geometry []) (blockStore_inRange []).2
          splicedAttrs_proper hrun
      · have htest := test_of_ok hmove hrun
        simpa using htest

theorem splicedWrite_replay : ∃ written, splicedWrite = .ok written ∧
    (∀ mask ∈ [0x7ff, 0x700, 0x780], ∀ type id size, type < 2 ^ 11 →
      type &&& 0x700 ≠ tySplice → size < 2 ^ 10 →
      FitsTag (written.1.logTags written.2.pair.1) id →
      (lfsDirGet written.1 written.2 (mktag mask 0x3ff 0) (mktag type id size)).map fieldsOf =
        found id size (replayed mask (written.1.logTags written.2.pair.1) id (mask &&& type))) ∧
    (∀ type id size, type < 2 ^ 11 → id < 2 ^ 10 → size < 2 ^ 10 →
      (lfsDirGet written.1 written.2 (mktag 0x7ff 0 0) (mktag type id size)).map fieldsOf =
        foundLast size (lastOf type (written.1.logTags written.2.pair.1))) := by
  obtain ⟨written, hrun, hlogged, hmove⟩ := splicedWrite_logged
  exact ⟨written, hrun, lfsDirGet_replay hlogged hmove⟩

/-- A lookup with an id that does not answer as the replay does. -/
def Disagrees (mask type id size : ℕ) (written : Store × LfsMdir) : Prop :=
  (lfsDirGet written.1 written.2 (mktag mask 0x3ff 0) (mktag type id size)).map fieldsOf ≠
    found id size (replayed mask (written.1.logTags written.2.pair.1) id (mask &&& type))

instance (mask type id size : ℕ) (written : Store × LfsMdir) :
    Decidable (Disagrees mask type id size written) := inferInstanceAs (Decidable (_ ≠ _))

/-- Past the ids of the directory a lookup can run out of id bits: two deletions behind,
id 1022 is taken for the data of entry 0.  And a creation is found for the id behind
it, though no replay leaves one. -/
theorem lookup_not_replay : ∃ written, Logged written.1 written.2 ∧
    written.1.gdisk.hasmovehere written.2.pair = false ∧
    Disagrees 0x700 tyStruct 0x3fe 8 written ∧ Disagrees 0x7ff tyCreate 1 0 written := by
  have hstruct : splicedWrite.map (fun written =>
      decide (Disagrees 0x700 tyStruct 0x3fe 8 written)) = .ok true := by decide +kernel
  have hcreate : splicedWrite.map (fun written =>
      decide (Disagrees 0x7ff tyCreate 1 0 written)) = .ok true := by decide +kernel
  obtain ⟨written, hrun, hlogged, hmove⟩ := splicedWrite_logged
  have hstruct' := test_of_ok hstruct hrun
  have hcreate' := test_of_ok hcreate hrun
  simp only [decide_eq_true_eq] at hstruct' hcreate'
  exact ⟨written, hlogged, hmove, hstruct', hcreate'⟩

end Littlefs.Disk
