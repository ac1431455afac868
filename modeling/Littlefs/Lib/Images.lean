import Mathlib.Tactic

/-!
# Images of a memory

An image gives the cell at every address.  A span of cells is read as a list and
written from one.  What a write leaves alone reads as before.
-/

namespace Littlefs.Images

variable {α : Type}

/-- The `count` cells from `start` on. -/
def read (image : ℕ → α) (start count : ℕ) : List α :=
  (List.range count).map fun index => image (start + index)

/-- The image with `cells` from `start` on. -/
def write (image : ℕ → α) (start : ℕ) (cells : List α) : ℕ → α := fun address =>
  if start ≤ address then (cells[address - start]?).getD (image address) else image address

variable {image image' : ℕ → α} {start count : ℕ} {cells more : List α}

@[simp]
theorem length_read : (read image start count).length = count := by
  simp [read]

theorem read_add (image : ℕ → α) (start count extra : ℕ) :
    read image start (count + extra) =
      read image start count ++ read image (start + count) extra := by
  simp [read, List.range_add, Function.comp_def, Nat.add_assoc]

theorem getElem?_read {index : ℕ} (hindex : index < count) :
    (read image start count)[index]? = some (image (start + index)) := by
  simp [read, hindex]

theorem take_read {shorter : ℕ} (hshorter : shorter ≤ count) :
    (read image start count).take shorter = read image start shorter := by
  obtain ⟨extra, rfl⟩ := Nat.exists_eq_add_of_le hshorter
  rw [read_add, List.take_left' length_read]

/-- A read depends on the cells of its span only. -/
theorem read_congr
    (hsame : ∀ address, start ≤ address → address < start + count →
      image address = image' address) :
    read image start count = read image' start count := by
  apply List.map_congr_left
  intro index hindex
  have hlt : index < count := List.mem_range.mp hindex
  exact hsame (start + index) (by omega) (by omega)

theorem read_eq_read_iff {start' : ℕ} :
    read image start count = read image' start' count ↔
      ∀ index < count, image (start + index) = image' (start' + index) := by
  simp only [read, List.map_inj_left, List.mem_range]

theorem write_of_lt {address : ℕ} (hlt : address < start) :
    write image start cells address = image address := by
  simp [write, Nat.not_le.mpr hlt]

theorem write_of_le {address : ℕ} (hle : start + cells.length ≤ address) :
    write image start cells address = image address := by
  have hnone : cells[address - start]? = none := List.getElem?_eq_none (by omega)
  simp [write, hnone]

theorem write_of_mem {index : ℕ} (hindex : index < cells.length) :
    write image start cells (start + index) = cells[index] := by
  simp [write, hindex]

theorem read_write_self : read (write image start cells) start cells.length = cells := by
  apply List.ext_getElem
  · simp
  · intro index hleft hright
    simp [read, write_of_mem hright]

theorem read_write_before {start' : ℕ} (hbefore : start' + count ≤ start) :
    read (write image start cells) start' count = read image start' count := by
  apply read_congr
  intro address hle hlt
  exact write_of_lt (by omega)

theorem read_write_after {start' : ℕ} (hafter : start + cells.length ≤ start') :
    read (write image start cells) start' count = read image start' count := by
  apply read_congr
  intro address hle hlt
  exact write_of_le (by omega)

/-- Two writes, one behind the other, are one write. -/
theorem write_append :
    write image start (cells ++ more) =
      write (write image start cells) (start + cells.length) more := by
  funext address
  by_cases hbefore : address < start
  · rw [write_of_lt hbefore, write_of_lt (by omega), write_of_lt hbefore]
  · by_cases hcells : address < start + cells.length
    · have hindex : address - start < cells.length := by omega
      simp [write, Nat.not_lt.mp hbefore, Nat.not_le.mpr hcells, List.getElem?_append_left hindex]
    · have hindex : cells.length ≤ address - start := by omega
      have hshift : address - start - cells.length = address - (start + cells.length) := by omega
      have hnone : cells[address - start]? = none := List.getElem?_eq_none hindex
      simp [write, Nat.not_lt.mp hbefore, Nat.not_lt.mp hcells,
        List.getElem?_append_right hindex, hshift, hnone]

end Littlefs.Images
