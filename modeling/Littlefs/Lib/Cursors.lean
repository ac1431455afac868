import Littlefs.Lib.Edits

/-!
# Cursors into edited tables

A cursor stands in front of a record of a table that is being edited.  An insertion at the
cursor pushes it on, and an erasure in front of it draws it back, so that no record ever
changes its side: what was behind the cursor stays behind it, and what was in front of it
stays in front.
-/

namespace Littlefs.Edits

variable {K V : Type} {edit : Edit K V} {edits : List (Edit K V)} {index last cursor : ℕ}

/-- Where an edit moves a record; `none` when it erases it. -/
def Edit.carry (index : ℕ) : Edit K V → Option ℕ
  | insert j => some (if j ≤ index then index + 1 else index)
  | erase j => if j = index then none else some (if j < index then index - 1 else index)
  | put _ _ _ => some index
  | skip => some index

/-- Where an edit moves a cursor. -/
def Edit.slide (cursor : ℕ) : Edit K V → ℕ
  | insert j => if j ≤ cursor then cursor + 1 else cursor
  | erase j => if j < cursor then cursor - 1 else cursor
  | put _ _ _ => cursor
  | skip => cursor

/-- No record changes its side. -/
theorem Edit.lt_slide (hcarry : edit.carry index = some last) :
    last < edit.slide cursor ↔ index < cursor := by
  cases edit with
  | insert j =>
      cases hcarry
      simp only [slide]
      split_ifs <;> omega
  | erase j =>
      simp only [carry] at hcarry
      split_ifs at hcarry with hne hlt
      all_goals
        cases hcarry
        simp only [slide]
        split_ifs <;> omega
  | put _ _ _ =>
      cases hcarry
      exact Iff.rfl
  | skip =>
      cases hcarry
      exact Iff.rfl

/-- Where edits move a record. -/
def carryAll (edits : List (Edit K V)) (index : ℕ) : Option ℕ :=
  edits.foldlM (fun index edit => edit.carry index) index

/-- Where edits move a cursor. -/
def slideAll (edits : List (Edit K V)) (cursor : ℕ) : ℕ := edits.foldl Edit.slide cursor

@[simp]
theorem carryAll_nil : carryAll ([] : List (Edit K V)) index = some index := rfl

@[simp]
theorem slideAll_nil : slideAll ([] : List (Edit K V)) cursor = cursor := rfl

theorem carryAll_cons : carryAll (edit :: edits) index =
    (edit.carry index).bind (carryAll edits) := rfl

@[simp]
theorem slideAll_cons : slideAll (edit :: edits) cursor = slideAll edits (edit.slide cursor) := rfl

theorem lt_slideAll (hcarry : carryAll edits index = some last) :
    last < slideAll edits cursor ↔ index < cursor := by
  induction edits generalizing index cursor with
  | nil =>
      cases hcarry
      exact Iff.rfl
  | cons edit edits ih =>
      obtain ⟨next, hedit, hrest⟩ := Option.bind_eq_some_iff.mp hcarry
      rw [slideAll_cons, ih hrest]
      exact Edit.lt_slide hedit

/-! ## What a record holds -/

variable [DecidableEq K] {key : K} {table : Table K V}

/-- The value of a record goes along, unless its cell is put again. -/
theorem Edit.apply_carry (hcarry : edit.carry index = some last)
    (hput : ∀ value, edit ≠ .put index key value) :
    edit.apply table last key = table index key := by
  cases edit with
  | insert j =>
      cases hcarry
      rw [apply_insert]
      split_ifs <;> first | rfl | omega
  | erase j =>
      simp only [carry] at hcarry
      split_ifs at hcarry with hne hlt
      all_goals
        cases hcarry
        rw [apply_erase]
      · rw [if_neg (by omega), show index - 1 + 1 = index by omega]
      · rw [if_pos (by omega)]
  | put j key' value =>
      cases hcarry
      rw [apply_put, if_neg]
      intro h
      exact hput value (by rw [h.1, h.2])
  | skip =>
      cases hcarry
      rfl

end Littlefs.Edits
