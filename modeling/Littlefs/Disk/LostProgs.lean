import Littlefs.Disk.CachedProgs

/-!
# Bytes that the program cache loses

A call behind the window that is open, and a window that cannot be written as it is
rounded, leave bytes that no later write of the storage touches.  With the calls that
are laid out in windows this says which layouts keep the promise of `lfs_bd_prog`.
-/

namespace Littlefs.Disk

open Words

namespace BdProg

variable {call : BdProg} {state state' : Programming} {window : Option (ℕ × ℕ)}
  {off stop start size len fuel : ℕ} {data bytes : List Octet}

/-- No write of the storage touches `spot` any more. -/
structure Lost (state : Programming) (spot floor : ℕ) : Prop where
  erased : state.image spot = 0xff
  lt : spot < floor
  beyond : state.pcache.block = nullWord ∨ floor ≤ state.pcache.off

theorem Lost.flush {spot floor : ℕ} (hlost : Lost state spot floor)
    (hflush : call.lfsBdFlush state = .ok state') : Lost state' spot floor := by
  rw [lfsBdFlush] at hflush
  split at hflush
  · rename_i hopen
    have hfloor : floor ≤ state.pcache.off := hlost.beyond.resolve_left hopen.1
    simp only at hflush
    split at hflush
    · cases hflush
    · split at hflush
      · cases hflush
      · injection hflush with hflush
        rw [← hflush]
        refine ⟨?_, hlost.lt, Or.inl rfl⟩
        exact (Images.write_of_lt (Nat.lt_of_lt_of_le hlost.lt hfloor)).trans hlost.erased
  · injection hflush with hflush
    rw [← hflush]
    exact hlost

theorem Lost.progGo {spot floor : ℕ} (hdvd : call.progSize ∣ floor) (hprog : 0 < call.progSize)
    (hlost : Lost state spot floor) (hfloor : floor ≤ off)
    (hrun : call.lfsBdProgGo fuel state off data = .ok state') : Lost state' spot floor := by
  induction fuel generalizing state off data with
  | zero => cases hrun
  | succ fuel ih =>
      rw [lfsBdProgGo] at hrun
      split at hrun
      · injection hrun with hrun
        rw [← hrun]
        exact hlost
      · split at hrun
        · rename_i hfits
          simp only at hrun
          split at hrun
          · cases hrun
          · rename_i middle hfull
            have hcopied : Lost (copyIn state off (data.take (min data.length
                (call.capacity - (off - state.pcache.off))))) spot floor :=
              ⟨hlost.erased, hlost.lt, hlost.beyond⟩
            have hmiddle : Lost middle spot floor := by
              rw [flushFull] at hfull
              split at hfull
              · exact hcopied.flush hfull
              · injection hfull with hfull
                rw [← hfull]
                exact hcopied
            exact ih hmiddle (by omega) hrun
        · have hopened : Lost (call.prepare state off) spot floor := by
            refine ⟨hlost.erased, hlost.lt, Or.inr ?_⟩
            change floor ≤ lfsAligndown off call.progSize
            obtain ⟨units, rfl⟩ := hdvd
            rw [lfsAligndown_eq_mul]
            exact Nat.mul_le_mul_left _ ((Nat.le_div_iff_mul_le hprog).mpr (by
              rw [Nat.mul_comm]
              exact hfloor))
          exact ih hopened hfloor hrun

theorem Lost.progs {spot floor : ℕ} (hdvd : call.progSize ∣ floor) (hprog : 0 < call.progSize)
    (writes : List (ℕ × List Octet)) (hlost : Lost state spot floor)
    (hincreasing : Increasing floor stop (layoutOf writes))
    (hrun : call.lfsBdProgs state writes = .ok state') : state'.image spot = 0xff := by
  induction writes generalizing state with
  | nil => exact (hlost.flush hrun).erased
  | cons write rest ih =>
      rw [lfsBdProgs] at hrun
      split at hrun
      · cases hrun
      · rename_i middle hmiddle
        have hfloor : floor ≤ write.1 := hincreasing.1
        exact ih (hlost.progGo hdvd hprog hfloor hmiddle)
          (hincreasing.2.mono (Nat.le_add_right_of_le hfloor)) hrun

/-- A flush whose slice would not be what the cache holds ends in a panic, or writes nothing. -/
theorem lfsBdFlush_of_not_fits (hproper : call.Proper) (hblock : state.pcache.block = call.block)
    (hsize : state.pcache.size < 2 ^ 32)
    (hnot : ¬FlushFits call.progSize call.capacity state.pcache.size)
    (hflush : call.lfsBdFlush state = .ok state') :
    state'.image = state.image ∧ state'.pcache.block = nullWord := by
  have hopen : state.pcache.block ≠ nullWord ∧ state.pcache.block ≠ inlineWord := by
    rw [hblock]
    exact hproper.block
  have hprog := hproper.prog_lt
  rw [lfsBdFlush, if_pos hopen] at hflush
  simp only at hflush
  split at hflush
  · cases hflush
  · rename_i hle
    have hwraps : 2 ^ 32 < state.pcache.size + call.progSize := by
      by_contra hfits
      apply hnot
      rw [alignupWord_eq hproper.prog_pos (Nat.not_lt.mp hfits)] at hle
      exact ⟨Nat.not_lt.mp hfits, Nat.not_lt.mp hle⟩
    have hzero : alignupWord state.pcache.size call.progSize = 0 := by
      have hrest : (state.pcache.size + call.progSize + (2 ^ 32 - 1)) % 2 ^ 32 < call.progSize := by
        omega
      rw [alignupWord, lfsAligndown, Nat.mod_eq_of_lt hrest, Nat.sub_self]
    split at hflush
    · cases hflush
    · injection hflush with hflush
      rw [← hflush, hzero]
      constructor
      · funext address
        by_cases hlt : address < state.pcache.off
        · exact Images.write_of_lt hlt
        · exact Images.write_of_le (Nat.not_lt.mp hlt)
      · rfl

/-- Where the window would be full, its first unit is not written. -/
theorem progGo_full_lost {spot : ℕ} (hproper : call.Proper)
    (hblock : state.pcache.block = call.block) (hdvd : call.progSize ∣ state.pcache.off)
    (hend : state.pcache.off + state.pcache.size ≤ off)
    (hin : off < state.pcache.off + call.capacity)
    (hfull : call.capacity ≤ off + data.length - state.pcache.off)
    (hnot : ¬FlushFits call.progSize call.capacity call.capacity) (hword : call.capacity < 2 ^ 32)
    (herased : state.image spot = 0xff) (hspot : spot < state.pcache.off + call.progSize)
    (hrun : call.lfsBdProgGo (fuel + 1) state off data = .ok state') :
    Lost state' spot (state.pcache.off + call.progSize) := by
  have hprog := hproper.prog_pos
  have hcapacity := hproper.prog_le
  obtain ⟨diff, hdiff⟩ : ∃ diff, off + diff = state.pcache.off + call.capacity :=
    ⟨state.pcache.off + call.capacity - off, by omega⟩
  have hsome : data ≠ [] := by
    rintro rfl
    simp at hfull
    omega
  have hle : diff ≤ data.length := by omega
  have hcopied : (copyIn state off (data.take diff)).pcache.size = call.capacity := by
    change max state.pcache.size (off + (data.take diff).length - state.pcache.off) = call.capacity
    rw [List.length_take]
    omega
  rw [lfsBdProgGo_full hsome ⟨hblock.symm, by omega, hin⟩ hdiff hle hend] at hrun
  split at hrun
  · cases hrun
  · rename_i middle hflush
    have hnot' : ¬FlushFits call.progSize call.capacity
        (copyIn state off (data.take diff)).pcache.size := by
      rw [hcopied]
      exact hnot
    have hword' : (copyIn state off (data.take diff)).pcache.size < 2 ^ 32 := by
      rw [hcopied]
      exact hword
    have hblock' : (copyIn state off (data.take diff)).pcache.block = call.block := hblock
    obtain ⟨himage, hclosed⟩ := lfsBdFlush_of_not_fits hproper hblock' hword' hnot' hflush
    have hlost : Lost middle spot (state.pcache.off + call.progSize) := by
      refine ⟨?_, hspot, Or.inl hclosed⟩
      rw [himage]
      exact herased
    apply hlost.progGo (Nat.dvd_add hdvd (dvd_refl _)) hprog (by omega) hrun

/-- The first unit of the window behind a call holds a byte that was given. -/
theorem first_given {spot progSize capacity : ℕ} (hprog : 0 < progSize)
    (hcapacity : 0 < capacity) (hsome : 0 < len)
    (hinside : off < startOf progSize window off + capacity)
    (hspot : ∀ start size, window = some (start, size) → start ≤ spot ∧ spot < start + progSize) :
    ∃ spot', (window.isSome ∧ spot' = spot ∨ off ≤ spot' ∧ spot' < off + len) ∧
      ∀ start size, windowAfter progSize capacity window off len = some (start, size) →
        start ≤ spot' ∧ spot' < start + progSize := by
  have hlength : len ≠ 0 := by omega
  by_cases hmore : off + len - startOf progSize window off < capacity
  · have hdiv := Nat.div_eq_of_lt hmore
    cases window with
    | none =>
        refine ⟨off, Or.inr ⟨le_refl _, by omega⟩, ?_⟩
        intro start size hwindow
        simp only [windowAfter, if_neg hlength, hdiv] at hwindow
        split at hwindow
        · cases hwindow
        · injection hwindow with hwindow
          injection hwindow with hstart
          have hdown := lfsAligndown_le off progSize
          have hnear := lt_lfsAligndown_add (a := off) hprog
          change lfsAligndown off progSize + 0 * capacity = start at hstart
          omega
    | some window =>
        refine ⟨spot, Or.inl ⟨rfl, rfl⟩, ?_⟩
        intro start size hwindow
        simp only [windowAfter, if_neg hlength, hdiv] at hwindow
        split at hwindow
        · cases hwindow
        · injection hwindow with hwindow
          injection hwindow with hstart
          change window.1 + 0 * capacity = start at hstart
          rw [Nat.zero_mul, Nat.add_zero] at hstart
          rw [← hstart]
          exact hspot window.1 window.2 rfl
  · -- the window is a new one, and the call has filled those before it
    cases hwindow : windowAfter progSize capacity window off len with
    | none =>
        refine ⟨off, Or.inr ⟨le_refl _, by omega⟩, ?_⟩
        intro start size hnone
        cases hnone
    | some next =>
        obtain ⟨start, size⟩ := next
        have hend := windowAfter_end hsome hwindow
        have hsize : 0 < size := by
          simp only [windowAfter, if_neg hlength] at hwindow
          split at hwindow
          · cases hwindow
          · rename_i hpart
            injection hwindow with hwindow
            injection hwindow with _ hsize
            omega
        have hoff : off ≤ start := by
          simp only [windowAfter, if_neg hlength] at hwindow
          split at hwindow
          · cases hwindow
          · injection hwindow with hwindow
            injection hwindow with hstart _
            have hturn : 1 * capacity ≤
                (off + len - startOf progSize window off) / capacity * capacity :=
              Nat.mul_le_mul_right _ (Nat.div_pos (Nat.not_lt.mp hmore) hcapacity)
            omega
        refine ⟨start, Or.inr ⟨hoff, by omega⟩, ?_⟩
        rintro _ _ ⟨⟩
        exact ⟨le_refl _, by omega⟩

theorem le_edge {low progSize : ℕ} (capacity : ℕ) (hprog : 0 < progSize) (hlow : low ≤ off)
    (hdvd : window = none → progSize ∣ low)
    (hbehind : ∀ start size, window = some (start, size) → start + size ≤ low) (hsome : 0 < len) :
    edge window low ≤ edge (windowAfter progSize capacity window off len) (off + len) := by
  have hlength : len ≠ 0 := by omega
  have hstart : edge window low ≤ startOf progSize window off := by
    cases window with
    | none =>
        obtain ⟨units, rfl⟩ := hdvd rfl
        change progSize * units ≤ lfsAligndown off progSize
        rw [lfsAligndown_eq_mul]
        apply Nat.mul_le_mul_left
        rw [Nat.le_div_iff_mul_le hprog, Nat.mul_comm]
        exact hlow
    | some window => exact le_refl _
  have hoff : startOf progSize window off ≤ off := by
    cases window with
    | none => exact lfsAligndown_le off progSize
    | some window =>
        have hend := hbehind window.1 window.2 rfl
        change window.1 ≤ off
        omega
  simp only [windowAfter, if_neg hlength]
  split
  · change edge window low ≤ off + len
    omega
  · exact Nat.le_add_right_of_le hstart

/-- A call that is not placed loses a byte of the window that is open, or of its own. -/
theorem lfsBdProg_lost {low spot : ℕ} (hproper : call.Proper)
    (htracks : call.Tracks state low window) (hlow : low ≤ off)
    (hbehind : ∀ start size, window = some (start, size) → start + size ≤ low)
    (hclean : ∀ address, edge window low ≤ address → state.image address = 0xff)
    (hspot : ∀ start size, window = some (start, size) →
      start ≤ spot ∧ spot < start + call.progSize)
    (hword : off + data.length < 2 ^ 32) (hsome : 0 < data.length)
    (hnot : ¬Placed call.progSize call.capacity window off data.length)
    (hrun : call.lfsBdProg state (off, data) = .ok state') :
    ∃ lost floor, (window.isSome ∧ lost = spot ∨ off ≤ lost ∧ lost < off + data.length) ∧
      call.progSize ∣ floor ∧ floor ≤ off + data.length ∧ Lost state' lost floor := by
  have hprog := hproper.prog_pos
  have hcapacity := hproper.prog_le
  have hnil : data ≠ [] := List.length_pos_iff.mp hsome
  change call.lfsBdProgGo (2 * data.length + 1 + 1) state off data = .ok state' at hrun
  cases window with
  | none =>
      obtain ⟨hclosed, hdvd⟩ := htracks
      have hfull : call.capacity ≤ off + data.length - lfsAligndown off call.progSize ∧
          ¬FlushFits call.progSize call.capacity call.capacity := by
        by_contra hfits
        apply hnot
        refine ⟨nofun, fun hfull => ?_⟩
        by_contra hcannot
        exact hfits ⟨hfull, hcannot⟩
      have hfits : ¬call.Fits state off := fun hfits => hproper.block.1 (hfits.1.trans hclosed)
      rw [lfsBdProgGo_prepare hnil hfits] at hrun
      have hdown := lfsAligndown_le off call.progSize
      have hnear := lt_lfsAligndown_add (a := off) hprog
      have hedge : low ≤ off := hlow
      have hin : off < lfsAligndown off call.progSize + call.capacity := by omega
      refine ⟨off, lfsAligndown off call.progSize + call.progSize,
        Or.inr ⟨le_refl _, by omega⟩, Nat.dvd_add (dvd_lfsAligndown _ _) (dvd_refl _), by omega, ?_⟩
      have hblock : (call.prepare state off).pcache.block = call.block := rfl
      exact progGo_full_lost hproper hblock (dvd_lfsAligndown _ _)
        hdown hin hfull.1 hfull.2 (by omega) (hclean off hedge) hnear hrun
  | some window =>
      obtain ⟨start, size⟩ := window
      have hend := hbehind start size rfl
      obtain ⟨hstart, hnear⟩ := hspot start size rfl
      obtain ⟨hblock, rfl, rfl, hdvd, hsize, hstands⟩ := htracks
      have hunit : call.progSize ∣ state.pcache.off + call.progSize :=
        Nat.dvd_add hdvd (dvd_refl _)
      by_cases hin : off < state.pcache.off + call.capacity
      · have hfull : call.capacity ≤ off + data.length - state.pcache.off ∧
            ¬FlushFits call.progSize call.capacity call.capacity := by
          by_contra hfits
          apply hnot
          refine ⟨?_, fun hfull => ?_⟩
          · rintro _ _ ⟨⟩
            exact hin
          · by_contra hcannot
            exact hfits ⟨hfull, hcannot⟩
        have hfloor := hfull.1
        refine ⟨spot, state.pcache.off + call.progSize, Or.inl ⟨rfl, rfl⟩, hunit, by omega, ?_⟩
        exact progGo_full_lost hproper hblock hdvd (by omega) hin hfull.1 hfull.2 (by omega)
          (hclean spot hstart) hnear hrun
      · -- the cache is prepared for the new place, and what it held is gone
        have hfits : ¬call.Fits state off := fun hfits => hin hfits.2.2
        rw [lfsBdProgGo_prepare hnil hfits] at hrun
        have hopened : Lost (call.prepare state off) spot (state.pcache.off + call.progSize) := by
          refine ⟨hclean spot hstart, hnear, Or.inr ?_⟩
          obtain ⟨units, hunits⟩ := hunit
          change state.pcache.off + call.progSize ≤ lfsAligndown off call.progSize
          rw [hunits, lfsAligndown_eq_mul]
          apply Nat.mul_le_mul_left
          rw [Nat.le_div_iff_mul_le hprog, Nat.mul_comm, ← hunits]
          omega
        refine ⟨spot, state.pcache.off + call.progSize, Or.inl ⟨rfl, rfl⟩, hunit, by omega, ?_⟩
        exact hopened.progGo hunit hprog (by omega) hrun

/-- Calls that are not laid out in windows lose a byte. -/
theorem lfsBdProgs_lost {low spot : ℕ} (hproper : call.Proper)
    (hfails : ∀ number, call.fails number = none) (writes : List (ℕ × List Octet))
    (haligned : call.Aligned state) (htracks : call.Tracks state low window)
    (hbehind : ∀ start size, window = some (start, size) → start + size ≤ low)
    (hclean : ∀ address, edge window low ≤ address → state.image address = 0xff)
    (hspot : ∀ start size, window = some (start, size) →
      start ≤ spot ∧ spot < start + call.progSize)
    (hincreasing : Increasing low stop (layoutOf writes)) (hword : stop < 2 ^ 32)
    (hnot : ¬Laid call.progSize call.capacity window (layoutOf writes)) :
    ∃ lost, (window.isSome ∧ lost = spot ∨
        ∃ write ∈ writes, write.1 ≤ lost ∧ lost < write.1 + write.2.length) ∧
      ∀ state', call.lfsBdProgs state writes = .ok state' → state'.image lost = 0xff := by
  induction writes generalizing state low window spot with
  | nil =>
      cases window with
      | none => exact absurd (nofun) hnot
      | some window =>
          obtain ⟨start, size⟩ := window
          have hend := hbehind start size rfl
          have hlast : low ≤ stop := hincreasing
          obtain ⟨hblock, rfl, rfl, -⟩ := htracks
          refine ⟨spot, Or.inl ⟨rfl, rfl⟩, ?_⟩
          intro state' hrun
          have hsize : state.pcache.size < 2 ^ 32 := by omega
          have hcannot : ¬FlushFits call.progSize call.capacity state.pcache.size := by
            intro hfits
            apply hnot
            rintro _ _ ⟨⟩
            exact hfits
          rw [(lfsBdFlush_of_not_fits hproper hblock hsize hcannot hrun).1]
          exact hclean spot (hspot _ _ rfl).1
  | cons write rest ih =>
      obtain ⟨off, data⟩ := write
      obtain ⟨hlow, hincreasing⟩ := hincreasing
      simp only at hlow hincreasing
      have hlast := hincreasing.le
      rcases Nat.eq_zero_or_pos data.length with hzero | hsome
      · obtain rfl := List.length_eq_zero_iff.mp hzero
        have hsame : call.lfsBdProg state (off, []) = .ok state := rfl
        have hnot' : ¬Laid call.progSize call.capacity window (layoutOf rest) :=
          fun hlaid => hnot ⟨fun habs => absurd habs (by simp), hlaid⟩
        obtain ⟨lost, hwhere, hlost⟩ := ih haligned htracks hbehind hclean hspot
          (hincreasing.mono (Nat.le_add_right_of_le hlow)) hnot'
        refine ⟨lost, ?_, ?_⟩
        · obtain hwhere | ⟨write, hmem, hwhere⟩ := hwhere
          · exact Or.inl hwhere
          · exact Or.inr ⟨write, List.mem_cons_of_mem _ hmem, hwhere⟩
        · intro state' hrun
          rw [lfsBdProgs, hsame] at hrun
          exact hlost state' hrun
      · by_cases hplaced : Placed call.progSize call.capacity window off data.length
        · -- the call is as it should be, and the rest loses the byte
          obtain ⟨middle, hcall, hleaves⟩ | ⟨number, e, herror, -⟩ :=
            lfsBdProg_ok hproper haligned htracks hlow hbehind fun _ => hplaced
          · obtain ⟨htracks', -, -, hbehind'⟩ := hleaves.next hlow hbehind
            have hlowAfter : lowAfter low off data.length = off + data.length :=
              if_neg (Nat.ne_of_gt hsome)
            rw [hlowAfter] at htracks' hbehind'
            have hdvd : window = none → call.progSize ∣ low := by
              rintro rfl
              exact htracks.2
            have hedge := le_edge call.capacity hproper.prog_pos hlow hdvd hbehind hsome
            have hclean' : ∀ address, edge (windowAfter call.progSize call.capacity window off
                data.length) (off + data.length) ≤ address → middle.image address = 0xff := by
              intro address hle
              rw [hleaves.above address hle]
              exact hclean address (Nat.le_trans hedge hle)
            obtain ⟨spot', hfrom, hspot'⟩ := first_given hproper.prog_pos
              (Nat.lt_of_lt_of_le hproper.prog_pos hproper.prog_le) hsome
              (hplaced.lt_start hproper.prog_pos hproper.prog_le) hspot
            have hnot' : ¬Laid call.progSize call.capacity (windowAfter call.progSize call.capacity
                window off data.length) (layoutOf rest) :=
              fun hlaid => hnot ⟨fun _ => hplaced, hlaid⟩
            obtain ⟨lost, hwhere, hlost⟩ :=
              ih hleaves.aligned htracks' hbehind' hclean' hspot' hincreasing hnot'
            refine ⟨lost, ?_, ?_⟩
            · obtain ⟨-, rfl⟩ | ⟨write, hmem, hwhere⟩ := hwhere
              · exact hfrom.imp_right fun hin => ⟨(off, data), List.mem_cons_self, hin⟩
              · exact Or.inr ⟨write, List.mem_cons_of_mem _ hmem, hwhere⟩
            · intro state' hrun
              rw [lfsBdProgs, hcall] at hrun
              exact hlost state' hrun
          · rw [hfails number] at herror
            cases herror
        · cases hcall : call.lfsBdProg state (off, data) with
          | error fault =>
              refine ⟨off, Or.inr ⟨(off, data), List.mem_cons_self, le_refl _, ?_⟩, ?_⟩
              · exact Nat.lt_add_of_pos_right hsome
              · intro state' hrun
                rw [lfsBdProgs, hcall] at hrun
                cases hrun
          | ok middle =>
              obtain ⟨lost, floor, hfrom, hdvd, hfloor, hlost⟩ := lfsBdProg_lost hproper htracks
                hlow hbehind hclean hspot (by omega) hsome hplaced hcall
              refine ⟨lost, ?_, ?_⟩
              · exact hfrom.imp_right fun hin => ⟨(off, data), List.mem_cons_self, hin⟩
              · intro state' hrun
                rw [lfsBdProgs, hcall] at hrun
                exact hlost.progs hdvd hproper.prog_pos rest (hincreasing.mono hfloor) hrun

/-- What is promised of a sequence of calls: where it ends in no error of the storage, the
bytes are where they belong, and the storage was asked to write program units only. -/
def Delivers (call : BdProg) (writes : List (ℕ × List Octet)) : Except Fault Programming → Prop
  | .ok state => call.Aligned state ∧
      ∀ write ∈ writes, Images.read state.image write.1 write.2.length = write.2
  | .error fault => ∃ e, fault = .error e

/-- Calls of this layout always keep the promise, whatever they write, whatever the block
holds and however the storage answers. -/
def Stores (progSize capacity : ℕ) (block : Word) (layout : List (ℕ × ℕ)) : Prop :=
  ∀ (fails : ℕ → Option Error) (state : Programming) (writes : List (ℕ × List Octet)),
    state.pcache.block = nullWord → state.writes = [] → layoutOf writes = layout →
      Delivers ⟨progSize, capacity, block, fails⟩ writes
        (lfsBdProgs ⟨progSize, capacity, block, fails⟩ state writes)

theorem stores_of_laid {progSize capacity : ℕ} {block : Word} {layout : List (ℕ × ℕ)}
    (hproper : ∀ fails, (BdProg.mk progSize capacity block fails).Proper)
    (hincreasing : Increasing 0 stop layout) (hlaid : Laid progSize capacity none layout) :
    Stores progSize capacity block layout := by
  intro fails state writes hclosed hwrites hlayout
  subst hlayout
  have haligned : Aligned ⟨progSize, capacity, block, fails⟩ state := by
    intro write hmem
    rw [hwrites] at hmem
    cases hmem
  have htracks : Tracks ⟨progSize, capacity, block, fails⟩ state 0 none := ⟨hclosed, dvd_zero _⟩
  obtain ⟨state', hrun, haligned', -, hreads⟩ | ⟨number, e, -, hrun⟩ :=
    lfsBdProgs_ok (hproper fails) writes haligned htracks nofun hincreasing hlaid
  · rw [hrun]
    exact ⟨haligned', hreads⟩
  · rw [hrun]
    exact ⟨e, rfl⟩

/-- As many zeros as a layout has room for. -/
def zeros (layout : List (ℕ × ℕ)) : List (ℕ × List Octet) :=
  layout.map fun span => (span.1, List.replicate span.2 0)

theorem layoutOf_zeros (layout : List (ℕ × ℕ)) : layoutOf (zeros layout) = layout := by
  rw [layoutOf, zeros, List.map_map]
  apply List.map_id''
  intro span
  simp

/-- No error comes from a storage that has none. -/
theorem lfsBdFlush_ne_error (hfails : ∀ number, call.fails number = none) (e : Error) :
    call.lfsBdFlush state ≠ .error (.error e) := by
  intro hflush
  rw [lfsBdFlush] at hflush
  simp only [hfails] at hflush
  split at hflush
  · split at hflush
    · cases hflush
    · cases hflush
  · cases hflush

theorem lfsBdProgGo_ne_error (hfails : ∀ number, call.fails number = none) (e : Error) :
    call.lfsBdProgGo fuel state off data ≠ .error (.error e) := by
  induction fuel generalizing state off data with
  | zero =>
      intro hfault
      cases hfault
  | succ fuel ih =>
      rw [lfsBdProgGo]
      split
      · intro hfault
        cases hfault
      · split
        · simp only
          split
          · rename_i fault hfull
            rw [flushFull] at hfull
            split at hfull
            · intro hfault
              injection hfault with hfault
              rw [hfault] at hfull
              exact lfsBdFlush_ne_error hfails e hfull
            · cases hfull
          · exact ih
        · exact ih

theorem lfsBdProgs_ne_error (hfails : ∀ number, call.fails number = none) (e : Error)
    (writes : List (ℕ × List Octet)) : call.lfsBdProgs state writes ≠ .error (.error e) := by
  induction writes generalizing state with
  | nil => exact lfsBdFlush_ne_error hfails e
  | cons write rest ih =>
      rw [lfsBdProgs]
      split
      · rename_i fault hcall
        intro hfault
        injection hfault with hfault
        rw [hfault] at hcall
        exact lfsBdProgGo_ne_error hfails e hcall
      · exact ih

theorem not_stores {progSize capacity : ℕ} {block : Word} {layout : List (ℕ × ℕ)}
    (hproper : ∀ fails, (BdProg.mk progSize capacity block fails).Proper)
    (hincreasing : Increasing 0 stop layout) (hword : stop < 2 ^ 32)
    (hnot : ¬Laid progSize capacity none layout) : ¬Stores progSize capacity block layout := by
  intro hstores
  let call : BdProg := ⟨progSize, capacity, block, fun _ => none⟩
  let state : Programming := { pcache := ⟨nullWord, 0, 0, fun _ => 0xff⟩, image := fun _ => 0xff }
  have hlayout := layoutOf_zeros layout
  have hdelivers : call.Delivers (zeros layout) (call.lfsBdProgs state (zeros layout)) :=
    hstores (fun _ => none) state (zeros layout) rfl rfl hlayout
  have haligned : call.Aligned state := nofun
  have htracks : call.Tracks state 0 none := ⟨rfl, dvd_zero _⟩
  have hclean : ∀ address, edge none 0 ≤ address → state.image address = 0xff := fun _ _ => rfl
  have hspot : ∀ start size, (none : Option (ℕ × ℕ)) = some (start, size) →
      start ≤ 0 ∧ 0 < start + call.progSize := nofun
  rw [← hlayout] at hincreasing hnot
  obtain ⟨lost, ⟨hnone, -⟩ | ⟨write, hmem, hle, hlt⟩, hlost⟩ :=
    lfsBdProgs_lost (hproper fun _ => none) (fun _ => rfl) (zeros layout) haligned htracks nofun
      hclean hspot hincreasing hword hnot
  · cases hnone
  · cases hrun : call.lfsBdProgs state (zeros layout) with
    | error fault =>
        rw [hrun] at hdelivers
        obtain ⟨e, rfl⟩ := hdelivers
        exact lfsBdProgs_ne_error (fun _ => rfl) e _ hrun
    | ok state' =>
        rw [hrun] at hdelivers
        have hread := hdelivers.2 write hmem
        have herased := hlost state' hrun
        rw [zeros] at hmem
        obtain ⟨span, -, rfl⟩ := List.mem_map.mp hmem
        simp only [List.length_replicate] at hle hlt hread
        have hindex : lost - span.1 < span.2 := by omega
        have hplace : span.1 + (lost - span.1) = lost := by omega
        have hbyte := congrArg (fun bytes => bytes[lost - span.1]?) hread
        simp only [Images.getElem?_read hindex, List.getElem?_replicate_of_lt hindex, hplace,
          herased] at hbyte
        exact absurd hbyte (by decide)

theorem proper_of_accepted {cfg : Config} (haccepted : cfg.Accepted) {capacity : ℕ}
    (hcapacity : cfg.cacheSize ≤ capacity) {block : Word} (hblock : IsBlock block)
    (fails : ℕ → Option Error) : (BdProg.mk cfg.progSize capacity block fails).Proper where
  prog_pos := Nat.pos_of_ne_zero haccepted.prog_ne
  prog_lt := by
    have hword := haccepted.block_word
    have hcache := Nat.le_of_dvd (Nat.pos_of_ne_zero haccepted.cache_ne) haccepted.prog_dvd
    have hge := haccepted.block_ge
    have hle := Nat.le_of_dvd (by omega) haccepted.cache_dvd
    change cfg.progSize < 2 ^ 32
    omega
  prog_le := Nat.le_trans
    (Nat.le_of_dvd (Nat.pos_of_ne_zero haccepted.cache_ne) haccepted.prog_dvd) hcapacity
  block := hblock

end BdProg

/-- Calls at increasing offsets keep the promise exactly where they are laid out in windows
that can be written. -/
theorem lfsBdProgs_stores_iff {cfg : Config} (haccepted : cfg.Accepted) {capacity : ℕ}
    (hcapacity : cfg.cacheSize ≤ capacity) {block : Word} (hblock : IsBlock block)
    {layout : List (ℕ × ℕ)} (hincreasing : Increasing 0 cfg.blockSize layout) :
    BdProg.Stores cfg.progSize capacity block layout ↔ Laid cfg.progSize capacity none layout := by
  have hproper := BdProg.proper_of_accepted haccepted hcapacity hblock
  constructor
  · intro hstores
    by_contra hnot
    exact BdProg.not_stores hproper hincreasing haccepted.block_word hnot hstores
  · exact BdProg.stores_of_laid hproper hincreasing

/-- Two calls that fill a cache and a half are laid out, whatever they write. -/
theorem defaultConfig_stores : BdProg.Stores 16 64 0 [(0, 40), (40, 56)] := by
  have hblock : IsBlock 0 := ⟨by decide, by decide⟩
  have hincreasing : Increasing 0 defaultConfig.blockSize [(0, 40), (40, 56)] := by decide
  apply (lfsBdProgs_stores_iff defaultConfig_accepted (le_refl 64) hblock hincreasing).mpr
  refine ⟨fun _ => ⟨nofun, fun hfull => absurd hfull (by decide)⟩,
    fun _ => ⟨?_, fun _ => ⟨by decide, by decide⟩⟩, ?_⟩
  · rintro _ _ ⟨⟩
    decide
  · rintro _ _ ⟨⟩
    exact ⟨by decide, by decide⟩

/-- A buffer that is longer than the cache and no multiple of the program size is flushed
with a slice behind its end. -/
theorem longBuffer_panics : ¬∀ (cfg : Config) (capacity : ℕ) (block : Word)
    (layout : List (ℕ × ℕ)), cfg.Accepted → cfg.cacheSize ≤ capacity → IsBlock block →
      Increasing 0 cfg.blockSize layout → BdProg.Stores cfg.progSize capacity block layout := by
  intro hclaim
  have hincreasing : Increasing 0 512 [(0, 72)] := by decide
  have hcapacity : defaultConfig.cacheSize ≤ 72 := by decide
  have hblock : IsBlock 0 := ⟨by decide, by decide⟩
  have hproper := BdProg.proper_of_accepted defaultConfig_accepted hcapacity hblock
  apply BdProg.not_stores hproper hincreasing (by decide) ?_
    (hclaim defaultConfig 72 0 [(0, 72)] defaultConfig_accepted hcapacity hblock hincreasing)
  intro hlaid
  have hfull := (hlaid.1 (by decide)).full (by decide)
  have hle := hfull.le
  exact absurd hle (by decide)

end Littlefs.Disk
