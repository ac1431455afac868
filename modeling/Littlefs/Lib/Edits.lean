import Mathlib.Logic.Function.Basic
import Mathlib.Data.List.Basic
import Mathlib.Tactic.Common
import Mathlib.Tactic.SplitIfs
import Mathlib.Order.Defs.LinearOrder
import Mathlib.Algebra.Order.Group.Nat

/-!
# Edit logs over indexed tables

A table assigns values to the keys of numbered records.  An edit log inserts
and erases records, which renumbers the ones behind them, and sets values.  Two
facts hold for every log: a search backwards through it, with the index undone
edit by edit, finds what replaying it forwards leaves in the table; and the
edits that no later edit overrides, each with the index it ends up at, replay
to the same table.
-/

namespace Littlefs.Edits

variable {K V : Type} [DecidableEq K]

/-- Record `index` holds the value `table index key` under `key`. -/
abbrev Table (K V : Type) := ℕ → K → Option V

inductive Edit (K V : Type)
  | insert (index : ℕ)
  | erase (index : ℕ)
  | put (index : ℕ) (key : K) (value : Option V)
  | skip

namespace Edit

def apply (table : Table K V) : Edit K V → Table K V
  | insert index => fun i key =>
      if i < index then table i key else if i = index then none else table (i - 1) key
  | erase index => fun i key => if i < index then table i key else table (i + 1) key
  | put index key value => fun i key' =>
      if i = index ∧ key' = key then value else table i key'
  | skip => table

theorem apply_insert (table : Table K V) (index i : ℕ) (key : K) :
    (insert index).apply table i key =
      if i < index then table i key else if i = index then none else table (i - 1) key := rfl

theorem apply_erase (table : Table K V) (index i : ℕ) (key : K) :
    (erase index).apply table i key = if i < index then table i key else table (i + 1) key := rfl

theorem apply_put (table : Table K V) (index i : ℕ) (key key' : K) (value : Option V) :
    (put index key value).apply table i key' =
      if i = index ∧ key' = key then value else table i key' := rfl

/-- Where an edit moves the value at `index` and `key`; `none` when it
overrides it. -/
def track (index : ℕ) (key : K) : Edit K V → Option ℕ
  | insert j => some (if j ≤ index then index + 1 else index)
  | erase j => if j = index then none else some (if j < index then index - 1 else index)
  | put j key' _ => if j = index ∧ key' = key then none else some index
  | skip => some index

/-- The value an edit puts at `index` and `key`. -/
def Puts (edit : Edit K V) (index : ℕ) (key : K) (value : V) : Prop :=
  edit = put index key (some value)

/-- Every value in the table after an edit was tracked there or put there. -/
theorem apply_eq_some (edit : Edit K V) (table : Table K V) (index : ℕ) (key : K) (value : V) :
    edit.apply table index key = some value ↔
      (∃ j, table j key = some value ∧ edit.track j key = some index) ∨
        edit.Puts index key value := by
  cases edit with
  | insert i =>
      simp only [apply, track, Puts, reduceCtorEq, or_false, Option.some.injEq]
      constructor
      · intro h
        split_ifs at h with hlt heq
        · exact ⟨index, h, by rw [if_neg (by omega)]⟩
        · exact ⟨index - 1, h, by rw [if_pos (by omega)]; omega⟩
      · rintro ⟨j, hj, hindex⟩
        split_ifs at hindex with hle
        · subst hindex
          rw [if_neg (by omega), if_neg (by omega)]
          simpa using hj
        · subst hindex
          rwa [if_pos (by omega)]
  | erase i =>
      simp only [apply, track, Puts, reduceCtorEq, or_false]
      constructor
      · intro h
        split_ifs at h with hlt
        · exact ⟨index, h, by rw [if_neg (by omega), if_neg (by omega)]⟩
        · refine ⟨index + 1, h, ?_⟩
          rw [if_neg (by omega), if_pos (by omega)]
          simp
      · rintro ⟨j, hj, hindex⟩
        split_ifs at hindex with heq hlt
        · cases hindex
          rw [if_neg (by omega)]
          rwa [show j - 1 + 1 = j by omega]
        · cases hindex
          rwa [if_pos (by omega)]
  | put i key' value' =>
      simp only [apply, track, Puts, Edit.put.injEq]
      constructor
      · intro h
        split_ifs at h with heq
        · exact Or.inr ⟨heq.1.symm, heq.2.symm, h⟩
        · refine Or.inl ⟨index, h, ?_⟩
          rw [if_neg]
          rintro ⟨hi, hk⟩
          exact heq ⟨hi.symm, hk.symm⟩
      · rintro (⟨j, hj, hindex⟩ | ⟨hi, hk, hv⟩)
        · split_ifs at hindex with heq
          cases hindex
          rw [if_neg]
          · exact hj
          · rintro ⟨hi, hk⟩
            exact heq ⟨hi.symm, hk.symm⟩
        · rw [if_pos ⟨hi.symm, hk.symm⟩, hv]
  | skip => simp [apply, track, Puts]

end Edit

open Edit

/-! ## Forward replay -/

def replay (table : Table K V) (edits : List (Edit K V)) : Table K V :=
  edits.foldl Edit.apply table

def blank : Table K V := fun _ _ => none

@[simp]
theorem replay_nil (table : Table K V) : replay table [] = table := rfl

@[simp]
theorem replay_cons (table : Table K V) (edit : Edit K V) (edits : List (Edit K V)) :
    replay table (edit :: edits) = replay (edit.apply table) edits := rfl

theorem replay_append (table : Table K V) (edits more : List (Edit K V)) :
    replay table (edits ++ more) = replay (replay table edits) more :=
  List.foldl_append

/-! ## Backward search -/

/-- Search the edits newest first for the value at `index` and `key`. -/
def search (key : K) : List (Edit K V) → ℕ → Option V
  | [], _ => none
  | .insert j :: older, index =>
      if j = index then none
      else search key older (if j < index then index - 1 else index)
  | .erase j :: older, index => search key older (if j ≤ index then index + 1 else index)
  | .put j key' value :: older, index =>
      if j = index ∧ key' = key then value else search key older index
  | .skip :: older, index => search key older index

/-- The search finds what the replay left. -/
theorem search_eq_replay (key : K) (newest : List (Edit K V)) (index : ℕ) :
    search key newest index = replay blank newest.reverse index key := by
  induction newest generalizing index with
  | nil => rfl
  | cons edit older ih =>
      rw [List.reverse_cons, replay_append, replay_cons, replay_nil]
      cases edit with
      | insert j =>
          simp only [search, apply, ih]
          rcases lt_trichotomy j index with hlt | heq | hgt
          · rw [if_neg (by omega), if_pos hlt, if_neg (by omega), if_neg (by omega)]
          · rw [if_pos heq, if_neg (by omega), if_pos heq.symm]
          · rw [if_neg (by omega), if_neg (by omega), if_pos hgt]
      | erase j =>
          simp only [search, apply, ih]
          rcases lt_or_ge index j with hlt | hge
          · rw [if_neg (by omega), if_pos hlt]
          · rw [if_pos hge, if_neg (by omega)]
      | put j key' value =>
          simp only [search, apply, ih]
          by_cases heq : j = index ∧ key' = key
          · rw [if_pos heq, if_pos ⟨heq.1.symm, heq.2.symm⟩]
          · rw [if_neg heq, if_neg fun h => heq ⟨h.1.symm, h.2.symm⟩]
      | skip => simp only [search, apply, ih]

/-! ## Surviving edits -/

/-- Where the value at `index` and `key` ends up behind all `edits`. -/
def trackAll (key : K) : List (Edit K V) → ℕ → Option ℕ
  | [], index => some index
  | edit :: edits, index => (edit.track index key).bind (trackAll key edits)

theorem trackAll_append (key : K) (edits more : List (Edit K V)) (index : ℕ) :
    trackAll key (edits ++ more) index = (trackAll key edits index).bind (trackAll key more) := by
  induction edits generalizing index with
  | nil => rfl
  | cons edit edits ih =>
      rw [List.cons_append, trackAll, trackAll, Option.bind_assoc]
      congr 1
      funext index
      exact ih index

/-- No two values end up in one cell. -/
theorem Edit.track_injective {edit : Edit K V} {key : K} {left right index : ℕ}
    (hleft : edit.track left key = some index) (hright : edit.track right key = some index) :
    left = right := by
  cases edit with
  | insert j =>
      simp only [track, Option.some.injEq] at hleft hright
      split_ifs at hleft hright <;> omega
  | erase j =>
      simp only [track] at hleft hright
      split_ifs at hleft hright <;> simp only [Option.some.injEq] at hleft hright <;> omega
  | put j key' value =>
      simp only [track] at hleft hright
      split_ifs at hleft hright
      exact Option.some.inj (hleft.trans hright.symm)
  | skip => exact Option.some.inj (hleft.trans hright.symm)

theorem trackAll_injective {edits : List (Edit K V)} {key : K} {left right index : ℕ}
    (hleft : trackAll key edits left = some index)
    (hright : trackAll key edits right = some index) :
    left = right := by
  induction edits generalizing left right with
  | nil => exact Option.some.inj (hleft.trans hright.symm)
  | cons edit edits ih =>
      obtain ⟨left', htrack, hleft⟩ := Option.bind_eq_some_iff.mp hleft
      obtain ⟨right', htrack', hright⟩ := Option.bind_eq_some_iff.mp hright
      rw [ih hleft hright] at htrack
      exact Edit.track_injective htrack htrack'

/-- The values that the log sets and does not override, with their last index. -/
def survivors : List (Edit K V) → List (ℕ × K × V)
  | [] => []
  | .put index key (some value) :: edits =>
      match trackAll key edits index with
      | some index => (index, key, value) :: survivors edits
      | none => survivors edits
  | _ :: edits => survivors edits

theorem mem_survivors_cons (edit : Edit K V) (edits : List (Edit K V)) (index : ℕ) (key : K)
    (value : V) :
    (index, key, value) ∈ survivors (edit :: edits) ↔
      (∃ j, edit.Puts j key value ∧ trackAll key edits j = some index) ∨
        (index, key, value) ∈ survivors edits := by
  cases edit with
  | insert j => simp [survivors, Puts]
  | erase j => simp [survivors, Puts]
  | skip => simp [survivors, Puts]
  | put j key' value' =>
      cases value' with
      | none => simp [survivors, Puts]
      | some value' =>
          simp only [survivors, Puts, Edit.put.injEq, Option.some.injEq]
          constructor
          · intro h
            split at h
            · rename_i last hlast
              rcases List.mem_cons.mp h with heq | hmem
              · cases heq
                exact Or.inl ⟨j, ⟨rfl, rfl, rfl⟩, hlast⟩
              · exact Or.inr hmem
            · exact Or.inr h
          · rintro (⟨j', ⟨rfl, rfl, rfl⟩, hlast⟩ | hmem)
            · simp [hlast]
            · split
              · exact List.mem_cons_of_mem _ hmem
              · exact hmem

theorem exists_put_of_mem_survivors {edits : List (Edit K V)} {index : ℕ} {key : K} {value : V}
    (hmem : (index, key, value) ∈ survivors edits) : ∃ j, Edit.put j key (some value) ∈ edits := by
  induction edits with
  | nil => simp [survivors] at hmem
  | cons edit edits ih =>
      rcases (mem_survivors_cons edit edits index key value).mp hmem with ⟨j, hput, -⟩ | hmem
      · exact ⟨j, hput ▸ List.mem_cons_self⟩
      · obtain ⟨j, hj⟩ := ih hmem
        exact ⟨j, List.mem_cons_of_mem _ hj⟩

/-- What a log sets overrides what was there before. -/
theorem trackAll_ne_of_mem_survivors {edits : List (Edit K V)} {index : ℕ} {key : K} {value : V}
    (hmem : (index, key, value) ∈ survivors edits) (start : ℕ) :
    trackAll key edits start ≠ some index := by
  induction edits generalizing start with
  | nil => exact absurd hmem List.not_mem_nil
  | cons edit edits ih =>
      intro htrack
      obtain ⟨next, hedit, hrest⟩ := Option.bind_eq_some_iff.mp htrack
      apply ((mem_survivors_cons edit edits index key value).mp hmem).elim
      · intro hput
        obtain ⟨j, hputs, hlast⟩ := hput
        cases hputs
        have hnext := trackAll_injective hrest hlast
        rw [hnext, track] at hedit
        split_ifs at hedit with hcell
        exact hcell ⟨(Option.some.inj hedit).symm, rfl⟩
      · exact fun hmem => ih hmem next hrest

/-- Different cells. -/
def OtherCell (left right : ℕ × K × V) : Prop := left.1 = right.1 → left.2.1 ≠ right.2.1

theorem survivors_apart (edits : List (Edit K V)) : (survivors edits).Pairwise OtherCell := by
  induction edits with
  | nil => exact List.Pairwise.nil
  | cons edit edits ih =>
      cases edit with
      | insert j => exact ih
      | erase j => exact ih
      | skip => exact ih
      | put j key value =>
          cases value with
          | none => exact ih
          | some value =>
              rw [survivors]
              cases htrack : trackAll key edits j with
              | none => exact ih
              | some index =>
                  apply List.Pairwise.cons _ ih
                  intro other hother hindex hkey
                  obtain ⟨index', key', value'⟩ := other
                  change index = index' at hindex
                  change key = key' at hkey
                  rw [← hindex, ← hkey] at hother
                  exact trackAll_ne_of_mem_survivors hother j htrack

/-- What a replay leaves is what was there before and survived, and the
survivors of the log itself. -/
theorem replay_eq_some (edits : List (Edit K V)) (table : Table K V) (index : ℕ) (key : K)
    (value : V) :
    replay table edits index key = some value ↔
      (∃ j, table j key = some value ∧ trackAll key edits j = some index) ∨
        (index, key, value) ∈ survivors edits := by
  induction edits generalizing table with
  | nil => simp [trackAll, survivors]
  | cons edit edits ih =>
      rw [replay_cons, ih, mem_survivors_cons]
      constructor
      · rintro (⟨j, hj, hlast⟩ | hmem)
        · rcases (apply_eq_some edit table j key value).mp hj with ⟨i, hi, htrack⟩ | hput
          · exact Or.inl ⟨i, hi, by simp [trackAll, htrack, hlast]⟩
          · exact Or.inr (Or.inl ⟨j, hput, hlast⟩)
        · exact Or.inr (Or.inr hmem)
      · rintro (⟨i, hi, hlast⟩ | ⟨j, hput, hlast⟩ | hmem)
        · obtain ⟨j, htrack, hlast⟩ := Option.bind_eq_some_iff.mp hlast
          exact Or.inl ⟨j, (apply_eq_some edit table j key value).mpr
            (Or.inl ⟨i, hi, htrack⟩), hlast⟩
        · exact Or.inl ⟨j, (apply_eq_some edit table j key value).mpr (Or.inr hput), hlast⟩
        · exact Or.inr hmem

theorem replay_blank_eq_some (edits : List (Edit K V)) (index : ℕ) (key : K) (value : V) :
    replay blank edits index key = some value ↔ (index, key, value) ∈ survivors edits := by
  rw [replay_eq_some]
  simp [blank]

/-! ## Compaction -/

def toPut (cell : ℕ × K × V) : Edit K V := .put cell.1 cell.2.1 (some cell.2.2)

/-- Puts move nothing: a value stays where it is unless its cell is put again. -/
theorem trackAll_map_toPut (cells : List (ℕ × K × V)) (index : ℕ) (key : K) :
    trackAll key (cells.map toPut) index =
      if cells.any (fun cell => cell.1 = index ∧ cell.2.1 = key) then none else some index := by
  induction cells with
  | nil => rfl
  | cons cell cells ih =>
      rw [List.map_cons, trackAll, List.any_cons]
      by_cases heq : cell.1 = index ∧ cell.2.1 = key
      · simp [toPut, track, heq]
      · rw [toPut, track, if_neg heq, Option.bind_some, ih]
        rw [decide_eq_false heq, Bool.false_or]

/-- A list of cells that assigns no cell two values. -/
def Agree (cells : List (ℕ × K × V)) : Prop :=
  ∀ index key left right,
    (index, key, left) ∈ cells → (index, key, right) ∈ cells → left = right

/-- A list of puts that agree leaves what it puts. -/
theorem mem_survivors_map_toPut {cells : List (ℕ × K × V)} (hagree : Agree cells)
    (index : ℕ) (key : K) (value : V) :
    (index, key, value) ∈ survivors (cells.map toPut) ↔ (index, key, value) ∈ cells := by
  induction cells with
  | nil => simp [survivors]
  | cons cell cells ih =>
      have hagree' : Agree cells := fun i k left right hleft hright =>
        hagree i k left right (List.mem_cons_of_mem _ hleft) (List.mem_cons_of_mem _ hright)
      obtain ⟨i, k, v⟩ := cell
      rw [List.map_cons, mem_survivors_cons, ih hagree', List.mem_cons]
      constructor
      · rintro (⟨j, hput, hlast⟩ | hmem)
        · obtain ⟨rfl, rfl, hv⟩ := Edit.put.inj hput
          cases hv
          rw [trackAll_map_toPut] at hlast
          split_ifs at hlast
          cases hlast
          exact Or.inl rfl
        · exact Or.inr hmem
      · rintro (heq | hmem)
        · cases heq
          by_cases hagain : cells.any fun cell => cell.1 = index ∧ cell.2.1 = key
          · obtain ⟨⟨i', k', v'⟩, hmem, heq⟩ := List.any_eq_true.mp hagain
            simp only [decide_eq_true_eq] at heq
            obtain ⟨rfl, rfl⟩ := heq
            have hv := hagree i' k' value v' List.mem_cons_self (List.mem_cons_of_mem _ hmem)
            exact Or.inr (hv ▸ hmem)
          · refine Or.inl ⟨index, rfl, ?_⟩
            rw [trackAll_map_toPut, if_neg hagain]
        · exact Or.inr hmem

omit [DecidableEq K] in
theorem agree_of_apart {cells : List (ℕ × K × V)} (hapart : cells.Pairwise OtherCell) :
    Agree cells := by
  induction cells with
  | nil => exact fun _ _ _ _ h => absurd h List.not_mem_nil
  | cons cell cells ih =>
      obtain ⟨hcell, hcells⟩ := List.pairwise_cons.mp hapart
      intro index key left right hleft hright
      rcases List.mem_cons.mp hleft with heq | hleft
      · rcases List.mem_cons.mp hright with heq' | hright
        · exact (Prod.mk.inj (Prod.mk.inj (heq.trans heq'.symm)).2).2
        · rw [← heq] at hcell
          exact absurd rfl (hcell (index, key, right) hright rfl)
      · rcases List.mem_cons.mp hright with heq | hright
        · rw [← heq] at hcell
          exact absurd rfl (hcell (index, key, left) hleft rfl)
        · exact ih hcells index key left right hleft hright

/-- A table is read off puts to different cells. -/
theorem replay_map_toPut {cells : List (ℕ × K × V)} (hapart : cells.Pairwise OtherCell) (index : ℕ)
    (key : K) (value : V) :
    replay blank (cells.map toPut) index key = some value ↔ (index, key, value) ∈ cells := by
  rw [replay_blank_eq_some, mem_survivors_map_toPut (agree_of_apart hapart)]

/-- The survivors with an index in `[first, last)`, counted from `first`. -/
def window (first last : ℕ) (edits : List (Edit K V)) : List (ℕ × K × V) :=
  (survivors edits).filterMap fun cell =>
    if first ≤ cell.1 ∧ cell.1 < last then some (cell.1 - first, cell.2) else none

theorem window_cons_put (first last index : ℕ) (key : K) (value : V) (edits : List (Edit K V)) :
    window first last (.put index key (some value) :: edits) =
      (match trackAll key edits index with
        | some index =>
            if first ≤ index ∧ index < last then [(index - first, key, value)] else []
        | none => []) ++ window first last edits := by
  rw [window, survivors]
  cases trackAll key edits index with
  | none => rfl
  | some index =>
      dsimp only
      rw [List.filterMap_cons]
      split_ifs <;> rfl

theorem window_cons_of_no_put (first last : ℕ) {edit : Edit K V} (edits : List (Edit K V))
    (hedit : ∀ index key value, ¬edit.Puts index key value) :
    window first last (edit :: edits) = window first last edits := by
  cases edit with
  | insert j => rfl
  | erase j => rfl
  | skip => rfl
  | put j key value =>
      cases value with
      | none => rfl
      | some value => exact absurd rfl (hedit j key value)

theorem window_apart (first last : ℕ) (edits : List (Edit K V)) :
    (window first last edits).Pairwise OtherCell := by
  apply List.Pairwise.filterMap _ _ (survivors_apart edits)
  intro left right hapart left' hleft right' hright hindex
  split_ifs at hleft hright with hleftRange hrightRange
  cases hleft
  cases hright
  apply hapart
  change left.1 - first = right.1 - first at hindex
  omega

/-- The values put at one record survive together. -/
theorem window_append_record (first last index : ℕ) {cells : List (K × V)}
    {edits : List (Edit K V)} {moved : Option ℕ} (hapart : cells.Pairwise fun l r => l.1 ≠ r.1)
    (hmoved : ∀ cell ∈ cells, trackAll cell.1 edits index = moved) :
    window first last ((cells.map (Prod.mk index)).map toPut ++ edits) =
      (moved.elim [] fun index =>
          if first ≤ index ∧ index < last then cells.map (Prod.mk (index - first)) else []) ++
        window first last edits := by
  induction cells with
  | nil =>
      cases moved with
      | none => rfl
      | some index => simp
  | cons cell cells ih =>
      obtain ⟨hcell, hcells⟩ := List.pairwise_cons.mp hapart
      have hhead := hmoved cell List.mem_cons_self
      have hstay : trackAll cell.1 ((cells.map (Prod.mk index)).map toPut) index = some index := by
        rw [trackAll_map_toPut, if_neg]
        intro hany
        obtain ⟨other, hother, heq⟩ := List.any_eq_true.mp hany
        obtain ⟨other', hother', rfl⟩ := List.mem_map.mp hother
        exact hcell other' hother' (of_decide_eq_true heq).2.symm
      rw [List.map_cons, List.map_cons, List.cons_append, toPut, window_cons_put, trackAll_append,
        hstay, Option.bind_some, hhead, ih hcells fun c hc => hmoved c (List.mem_cons_of_mem _ hc)]
      cases moved with
      | none => rfl
      | some index =>
          dsimp only [Option.elim_some]
          split_ifs <;> rfl

theorem mem_window (first last : ℕ) (edits : List (Edit K V)) (index : ℕ) (key : K) (value : V) :
    (index, key, value) ∈ window first last edits ↔
      first + index < last ∧ replay blank edits (first + index) key = some value := by
  rw [replay_blank_eq_some, window, List.mem_filterMap]
  constructor
  · rintro ⟨⟨i, k, v⟩, hmem, hcell⟩
    dsimp only at hcell
    split_ifs at hcell with hrange
    simp only [Option.some.injEq, Prod.mk.injEq] at hcell
    obtain ⟨rfl, rfl, rfl⟩ := hcell
    have hindex : first + (i - first) = i := by omega
    rw [hindex]
    exact ⟨hrange.2, hmem⟩
  · rintro ⟨hlast, hmem⟩
    refine ⟨_, hmem, ?_⟩
    rw [if_pos ⟨by omega, hlast⟩]
    simp

theorem exists_put_of_mem_window {first last : ℕ} {edits : List (Edit K V)} {index : ℕ} {key : K}
    {value : V} (hmem : (index, key, value) ∈ window first last edits) :
    ∃ j, Edit.put j key (some value) ∈ edits :=
  exists_put_of_mem_survivors
    ((replay_blank_eq_some _ _ _ _).mp ((mem_window _ _ _ _ _ _).mp hmem).2)

/-- Compaction keeps the records of its range, and nothing else. -/
theorem replay_window (first last : ℕ) (edits : List (Edit K V)) (index : ℕ) (key : K) :
    replay blank ((window first last edits).map toPut) index key =
      if first + index < last then replay blank edits (first + index) key else none := by
  have hagree : Agree (window first last edits) := by
    intro i k left right hleft hright
    rw [mem_window] at hleft hright
    exact Option.some.inj (hleft.2.symm.trans hright.2)
  apply Option.ext
  intro value
  rw [replay_blank_eq_some, mem_survivors_map_toPut hagree, mem_window]
  split_ifs with hlast
  · simp [hlast]
  · simp [hlast]

end Littlefs.Edits
