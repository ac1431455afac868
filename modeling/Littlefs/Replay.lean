import Littlefs.Traverse
import Littlefs.Lib.Edits

/-!
# What a metadata log means

Every tag of a log edits a table: `CREATE` and `DELETE` insert and erase
entries, and the tags of names, structs and custom attributes set the slots of
one entry.  The backward lookup of `lfs_dir_getslice` and the filter of
`lfs_dir_traverse` are the search and the compaction of such edit logs.
-/

namespace Littlefs

open Edits

/-- The slot a tag fills: one per entry for its name and its struct, one per
type for custom attributes. -/
def slotOf (type : ℕ) : ℕ := if type &&& 0x100 ≠ 0 then type else type &&& 0x700

def nameSlot : ℕ := 0x000

def structSlot : ℕ := 0x200

structure Cell where
  type : ℕ
  size : ℕ
  data : Payload
  deriving DecidableEq, Repr

/-- The tag that puts `cell` at `id`. -/
def Cell.at (cell : Cell) (id : ℕ) : Attr := (⟨cell.type, id, cell.size⟩, cell.data)

def editOf (attr : Attr) : Edit ℕ Cell :=
  if attr.1.type = tyCreate then .insert attr.1.id
  else if attr.1.type = tyDelete then .erase attr.1.id
  else if attr.1.type &&& 0x400 = 0 then
    .put attr.1.id (slotOf attr.1.type)
      (if attr.1.isdelete then none else some ⟨attr.1.type, attr.1.size, attr.2⟩)
  else .skip

/-- The table a log replays to. -/
def tableOf (log : List Attr) : Table ℕ Cell := replay blank (log.map editOf)

/-! ## Tags on disk -/

/-- The tags a commit writes: no `LFS_FROM_*`, no splices other than `CREATE` and
`DELETE`, and no removal marks but those of custom attributes. -/
structure TagWf (tag : Tag) : Prop where
  type_lt : tag.type < 0x800
  type_ne : tag.type ≠ fromNoop
  not_from : tag.type &&& 0x700 ≠ 0x100
  removal : tag.isdelete = true → tag.type &&& 0x700 = tyUserattr
  splice : tag.type &&& 0x700 = 0x400 →
    (tag.type = tyCreate ∧ tag.size = 0) ∨ tag.type = tyDelete

instance (tag : Tag) : Decidable (TagWf tag) :=
  decidable_of_iff (tag.type < 0x800 ∧ tag.type ≠ fromNoop ∧ tag.type &&& 0x700 ≠ 0x100 ∧
      (tag.isdelete = true → tag.type &&& 0x700 = tyUserattr) ∧
      (tag.type &&& 0x700 = 0x400 → (tag.type = tyCreate ∧ tag.size = 0) ∨ tag.type = tyDelete))
    ⟨fun h => ⟨h.1, h.2.1, h.2.2.1, h.2.2.2.1, h.2.2.2.2⟩,
      fun h => ⟨h.type_lt, h.type_ne, h.not_from, h.removal, h.splice⟩⟩

def LogWf (log : List Attr) : Prop := ∀ attr ∈ log, TagWf attr.1

instance (log : List Attr) : Decidable (LogWf log) :=
  inferInstanceAs (Decidable (∀ attr ∈ log, TagWf attr.1))

theorem LogWf.cons {attr : Attr} {log : List Attr} (hwf : LogWf (attr :: log)) :
    TagWf attr.1 ∧ LogWf log :=
  List.forall_mem_cons.mp hwf

theorem LogWf.append {log more : List Attr} (hlog : LogWf log) (hmore : LogWf more) :
    LogWf (log ++ more) := fun attr hattr => by
  rcases List.mem_append.mp hattr with hmem | hmem
  · exact hlog attr hmem
  · exact hmore attr hmem

/-- The four kinds of tags. -/
theorem TagWf.cases {tag : Tag} (hwf : TagWf tag) :
    (tag.type = tyCreate ∧ tag.size = 0) ∨ tag.type = tyDelete ∨ tag.type &&& 0x400 = 0 ∨
      (tag.type &&& 0x400 ≠ 0 ∧ tag.type &&& 0x700 ≠ 0x400) := by
  by_cases hhigh : tag.type &&& 0x400 = 0
  · exact Or.inr (Or.inr (Or.inl hhigh))
  · by_cases hsplice : tag.type &&& 0x700 = 0x400
    · rcases hwf.splice hsplice with h | h
      · exact Or.inl h
      · exact Or.inr (Or.inl h)
    · exact Or.inr (Or.inr (Or.inr ⟨hhigh, hsplice⟩))

theorem editOf_create (attr : Attr) (htype : attr.1.type = tyCreate) :
    editOf attr = .insert attr.1.id := by
  simp [editOf, htype]

theorem editOf_delete (attr : Attr) (htype : attr.1.type = tyDelete) :
    editOf attr = .erase attr.1.id := by
  simp [editOf, htype, tyDelete, tyCreate]

theorem editOf_put (attr : Attr) (htype : attr.1.type &&& 0x400 = 0) :
    editOf attr = .put attr.1.id (slotOf attr.1.type)
      (if attr.1.isdelete then none else some ⟨attr.1.type, attr.1.size, attr.2⟩) := by
  have hcreate : attr.1.type ≠ tyCreate := by
    intro h
    rw [h] at htype
    exact absurd htype (by decide)
  have hdelete : attr.1.type ≠ tyDelete := by
    intro h
    rw [h] at htype
    exact absurd htype (by decide)
  simp only [editOf, if_neg hcreate, if_neg hdelete, if_pos htype]

theorem editOf_skip (attr : Attr) (hhigh : attr.1.type &&& 0x400 ≠ 0)
    (hsplice : attr.1.type &&& 0x700 ≠ 0x400) : editOf attr = .skip := by
  have hcreate : attr.1.type ≠ tyCreate := by
    intro h
    rw [h] at hsplice
    exact hsplice (by decide)
  have hdelete : attr.1.type ≠ tyDelete := by
    intro h
    rw [h] at hsplice
    exact hsplice (by decide)
  simp only [editOf, if_neg hcreate, if_neg hdelete, if_neg hhigh]

@[simp]
theorem Tag.splice_create (tag : Tag) (htype : tag.type = tyCreate) : tag.splice = 1 := by
  simp [Tag.splice, Tag.chunk, htype, tyCreate]

@[simp]
theorem Tag.splice_delete (tag : Tag) (htype : tag.type = tyDelete) : tag.splice = -1 := by
  simp [Tag.splice, Tag.chunk, htype, tyDelete]

/-- A bit of the first three is a bit of `type1`. -/
theorem and_type1 (type bit : ℕ) (hbit : 0x700 &&& bit = bit) :
    type &&& bit = (type &&& 0x700) &&& bit := by
  rw [Nat.and_assoc, hbit]

theorem type1_ne_of_put {type : ℕ} (hput : type &&& 0x400 = 0) : type &&& 0x700 ≠ 0x400 := by
  intro h
  rw [and_type1 type 0x400 rfl, h] at hput
  exact absurd hput (by decide)

/-! ## Lookup -/

/-- A lookup mask that selects exactly one slot. -/
def Aligned (gmask gtype slot : ℕ) : Prop :=
  ∀ tag, TagWf tag →
    (tag.type &&& gmask = gtype &&& gmask ↔ tag.type &&& 0x400 = 0 ∧ slotOf tag.type = slot)

/-- A lookup mask that selects one slot of the tags of a log. -/
def AlignedOn (log : List Attr) (gmask gtype slot : ℕ) : Prop :=
  ∀ attr ∈ log, (attr.1.type &&& gmask = gtype &&& gmask ↔
    attr.1.type &&& 0x400 = 0 ∧ slotOf attr.1.type = slot)

theorem Aligned.on {gmask gtype slot : ℕ} (haligned : Aligned gmask gtype slot) {log : List Attr}
    (hwf : LogWf log) : AlignedOn log gmask gtype slot := fun attr hattr =>
  haligned attr.1 (hwf attr hattr)

theorem aligned_struct : Aligned 0x700 tyStruct structSlot := by
  intro tag _
  have hstruct : tyStruct &&& 0x700 = 0x200 := rfl
  rw [hstruct]
  constructor
  · intro htype1
    have hbit : tag.type &&& 0x100 = 0 := by rw [and_type1 tag.type 0x100 rfl, htype1]; rfl
    exact ⟨by rw [and_type1 tag.type 0x400 rfl, htype1]; rfl,
      by simp [slotOf, hbit, htype1, structSlot]⟩
  · rintro ⟨-, hslot⟩
    rw [slotOf] at hslot
    split_ifs at hslot with hbit
    · rw [hslot] at hbit
      exact absurd rfl hbit
    · exact hslot

theorem userattr_bits {type : ℕ} (htype : type < 0x100) :
    (tyUserattr + type) &&& 0x100 ≠ 0 ∧ (tyUserattr + type) &&& 0x400 = 0 ∧
      (tyUserattr + type) &&& 0x700 = 0x300 := by
  have hall : ∀ t < 0x100, (tyUserattr + t) &&& 0x700 = 0x300 := by decide +kernel
  have htype1 := hall type htype
  refine ⟨?_, ?_, htype1⟩
  · rw [and_type1 _ 0x100 rfl, htype1]
    decide
  · rw [and_type1 _ 0x400 rfl, htype1]
    decide

theorem and_type_of_lt {type : ℕ} (hlt : type < 0x800) : type &&& 0x7ff = type :=
  Nat.and_two_pow_sub_one_of_lt_two_pow (show type < 2 ^ 11 from hlt)

theorem aligned_userattr {type : ℕ} (htype : type < 0x100) :
    Aligned 0x7ff (tyUserattr + type) (tyUserattr + type) := by
  intro tag hwf
  obtain ⟨hbit, hhigh, -⟩ := userattr_bits htype
  have hlt : tyUserattr + type < 0x800 := by
    have : tyUserattr = 0x300 := rfl
    omega
  rw [and_type_of_lt hwf.type_lt, and_type_of_lt hlt]
  constructor
  · intro heq
    rw [heq]
    exact ⟨hhigh, by rw [slotOf, if_pos hbit]⟩
  · rintro ⟨-, hslot⟩
    rw [slotOf] at hslot
    split_ifs at hslot with htag
    · exact hslot
    · rw [not_not, and_type1 tag.type 0x100 rfl, hslot] at htag
      exact absurd htag hbit

/-- The lookup of `lfs_dir_getslice` is the backward search of the edit log. -/
theorem getsliceGo_eq_search {gmask slot : ℕ} {gtag : Tag}
    (newest : List Attr) (haligned : AlignedOn newest gmask gtag.type slot) (hwf : LogWf newest)
    (index : ℕ) (gdiff : ℤ) (hindex : (gtag.id : ℤ) - gdiff = index) :
    getsliceGo ⟨gmask, true⟩ gtag newest gdiff =
      (search slot (newest.map editOf) index).map fun cell => cell.at gtag.id := by
  induction newest generalizing index gdiff with
  | nil => rfl
  | cons attr older ih =>
      obtain ⟨tag, data⟩ := attr
      obtain ⟨htag, hwf⟩ := hwf.cons
      change TagWf tag at htag
      obtain ⟨hmatch, halign⟩ := List.forall_mem_cons.mp haligned
      replace ih := ih halign
      change tag.type &&& gmask = gtag.type &&& gmask ↔
        tag.type &&& 0x400 = 0 ∧ slotOf tag.type = slot at hmatch
      rw [List.map_cons, getsliceGo, hindex]
      rcases htag.cases with ⟨hcreate, hsize⟩ | hdelete | hput | ⟨hhigh, hsplice⟩
      · have htype1 : tag.type1 = tySplice := by simp [Tag.type1, hcreate, tyCreate, tySplice]
        have hno : ¬(tag.type &&& gmask = gtag.type &&& gmask) := by
          rw [hmatch, hcreate]
          exact fun h => absurd h.1 (by decide)
        rw [editOf_create (tag, data) hcreate, search]
        rcases Nat.lt_trichotomy tag.id index with hlt | heq | hgt
        · have hnext := ih hwf (index - 1) (gdiff + 1) (by omega)
          have hle : (tag.id : ℤ) ≤ index := by omega
          have hne : (tag.id : ℤ) ≠ index := by omega
          simp [htype1, hno, hle, hne, Tag.splice_create tag hcreate, hnext,
            show tag.id ≠ index by omega, hlt]
        · simp [htype1, heq, hcreate, hsize]
        · have hnext := ih hwf index gdiff hindex
          have hle : ¬((tag.id : ℤ) ≤ index) := by omega
          simp [htype1, hno, hle, hnext, show tag.id ≠ index by omega,
            show ¬(tag.id < index) by omega]
      · have htype1 : tag.type1 = tySplice := by simp [Tag.type1, hdelete, tyDelete, tySplice]
        have hno : ¬(tag.type &&& gmask = gtag.type &&& gmask) := by
          rw [hmatch, hdelete]
          exact fun h => absurd h.1 (by decide)
        have hncreate : tag.type ≠ tyCreate := by rw [hdelete]; decide
        rw [editOf_delete (tag, data) hdelete, search]
        rcases Nat.lt_or_ge index tag.id with hlt | hge
        · have hnext := ih hwf index gdiff hindex
          have hle : ¬((tag.id : ℤ) ≤ index) := by omega
          simp [htype1, hno, hle, hnext, show ¬(tag.id ≤ index) by omega]
        · have hnext := ih hwf (index + 1) (gdiff + -1) (by omega)
          have hle : (tag.id : ℤ) ≤ index := by omega
          simp [htype1, hno, hle, hncreate, Tag.splice_delete tag hdelete, hnext, hge]
      · have htype1 : tag.type1 ≠ tySplice := type1_ne_of_put hput
        have hnext := ih hwf index gdiff hindex
        rw [editOf_put (tag, data) hput, search]
        by_cases hcell : tag.id = index ∧ slotOf tag.type = slot
        · have hyes := hmatch.mpr ⟨hput, hcell.2⟩
          have hshift : tag.shift gdiff = { tag with id := gtag.id } := by
            rw [Tag.shift_of_nonneg (by omega)]
            congr 1
            omega
          have hindex' : (gtag.id : ℤ) - gdiff = tag.id := by omega
          cases tag.isdelete <;>
            simp [htype1, hyes, hindex', hcell, hshift, Cell.at]
        · have hno : ¬(tag.type &&& gmask = gtag.type &&& gmask ∧
              (tag.id : ℤ) = gtag.id - gdiff) := by
            rw [hmatch]
            rintro ⟨⟨-, hslot⟩, hid⟩
            exact hcell ⟨by omega, hslot⟩
          simp [htype1, hno, hnext, hcell]
      · have htype1 : tag.type1 ≠ tySplice := hsplice
        have hnext := ih hwf index gdiff hindex
        have hno : ¬(tag.type &&& gmask = gtag.type &&& gmask) := by
          rw [hmatch]
          exact fun h => hhigh h.1
        rw [editOf_skip (tag, data) hhigh hsplice, search]
        simp [htype1, hno, hnext]

/-- A lookup with an aligned mask reads the table. -/
theorem getsliceGo_eq_tableOf {gmask slot : ℕ} {gtag : Tag} {log : List Attr}
    (haligned : AlignedOn log gmask gtag.type slot) (hwf : LogWf log) :
    getsliceGo ⟨gmask, true⟩ gtag log.reverse 0 =
      (tableOf log gtag.id slot).map fun cell => cell.at gtag.id := by
  have hwf' : LogWf log.reverse := fun attr hattr => hwf attr (List.mem_reverse.mp hattr)
  have haligned' : AlignedOn log.reverse gmask gtag.type slot := fun attr hattr =>
    haligned attr (List.mem_reverse.mp hattr)
  rw [getsliceGo_eq_search log.reverse haligned' hwf' gtag.id 0 (by simp), search_eq_replay,
    ← List.map_reverse, List.reverse_reverse]
  rfl

end Littlefs
