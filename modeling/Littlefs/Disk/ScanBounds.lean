import Littlefs.Disk.Fetchmatch

/-!
# Bounds of a fetch

What holds of the variables of a scan whatever the bytes and the callback are.  A
turn that goes on either passes a tag that ends inside the block or publishes at
a CRC tag that does.
-/

namespace Littlefs.Disk

open Words

variable {store : Store} {query : Query} {pass pass' : Pass} {fuel : ℕ} {pair : WordPair}
  {fetched : Fetched} {temp temp' : Temp} {fcrc fcrc' : Option LfsFcrc} {block tag : Word} {off : ℕ}

/-! ## One turn -/

/-- A turn that goes on has read a valid tag that ends inside the block; it has
either published, or taken up what the tag and the callback say. -/
theorem Store.turn_next (hturn : store.turn query pass = .next pass') :
    ∃ tag crc, pass.off + (tagOf pass.ptag).dsize + (tagOf tag).dsize ≤ store.cfg.blockSize ∧
      (pass' = pass.publish store.order (pass.off + (tagOf pass.ptag).dsize) tag crc ∨
        ∃ temp fcrc temp',
          store.note pass.dir.pair.1 (pass.off + (tagOf pass.ptag).dsize) tag pass.temp pass.fcrc =
            some (temp, fcrc) ∧
          store.answer query pass.dir.pair.1 (pass.off + (tagOf pass.ptag).dsize) tag temp =
            some temp' ∧
          pass' = { pass with
            off := pass.off + (tagOf pass.ptag).dsize
            ptag := tag
            crc := crc
            temp := temp'
            fcrc := fcrc }) := by
  rw [Store.turn] at hturn
  simp only at hturn
  split at hturn
  · cases hturn
  · rename_i tagBuf hread
    split at hturn
    · cases hturn
    · split at hturn
      · cases hturn
      · rename_i hfits
        have hend := Nat.le_of_not_lt hfits
        split at hturn
        · split at hturn
          · cases hturn
          · split at hturn
            · cases hturn
            · exact ⟨_, _, hend, Or.inl (Turn.next.inj hturn).symm⟩
        · split at hturn
          · cases hturn
          · split at hturn
            · cases hturn
            · rename_i temp fcrc hnote
              split at hturn
              · cases hturn
              · rename_i temp' hanswer
                exact ⟨_, _, hend, Or.inr ⟨temp, fcrc, temp', hnote, hanswer,
                  (Turn.next.inj hturn).symm⟩⟩

/-- What every turn keeps, the loop keeps. -/
theorem Store.scan_preserves {Kept : Pass → Prop}
    (hkeeps : ∀ pass pass', Kept pass → store.turn query pass = .next pass' → Kept pass')
    (hkept : Kept pass) : Kept (store.scan query fuel pass).1 := by
  induction fuel generalizing pass with
  | zero => exact hkept
  | succ fuel ih =>
      rw [Store.scan]
      cases hturn : store.turn query pass with
      | next pass' => exact ih (hkeeps pass pass' hkept hturn)
      | stop maybeerased => exact hkept

/-! ## What the temporary values keep -/

theorem Temp.name_count_lt (hcount : temp.count < 2 ^ 16) (tag : Word) :
    (temp.name (tagOf tag)).count < 2 ^ 16 := by
  rw [Temp.name]
  split
  · have hid : (tagOf tag).id < 2 ^ 10 := Nat.mod_lt _ (by norm_num)
    change (tagOf tag).id + 1 < 2 ^ 16
    omega
  · exact hcount

theorem Temp.splice_count_lt (temp : Temp) (tag : Word) : (temp.splice tag).count < 2 ^ 16 := by
  rw [Temp.splice]
  change (((temp.count : ℤ) + (tagOf tag).splice) % 2 ^ 16).toNat < 2 ^ 16
  omega

theorem Temp.select_count (temp : Temp) (tag : Word) (res : Ordering) :
    (temp.select tag res).count = temp.count := by
  rw [Temp.select]
  split
  · rfl
  · split
    · rfl
    · split <;> rfl

theorem Store.note_count_lt (hcount : temp.count < 2 ^ 16)
    (hnote : store.note block off tag temp fcrc = some (temp', fcrc')) :
    temp'.count < 2 ^ 16 := by
  rw [Store.note] at hnote
  split at hnote
  · cases hnote
    exact Temp.name_count_lt hcount tag
  · split at hnote
    · cases hnote
      exact Temp.splice_count_lt temp tag
    · split at hnote
      · split at hnote
        · cases hnote
        · cases hnote
          exact hcount
      · split at hnote
        · split at hnote
          · cases hnote
          · cases hnote
            exact hcount
        · cases hnote
          exact hcount

theorem Store.answer_count (hanswer : store.answer query block off tag temp = some temp') :
    temp'.count = temp.count := by
  rw [Store.answer] at hanswer
  split at hanswer
  · split at hanswer
    · cases hanswer
    · cases hanswer
      exact Temp.select_count _ _ _
  · cases hanswer
    rfl

/-! ## What a scan keeps -/

/-- The ids are counted in sixteen bits, and what is published ends inside the block. -/
structure Store.Bounded (store : Store) (pass : Pass) : Prop where
  temp_count : pass.temp.count < 2 ^ 16
  dir_count : pass.dir.count < 2 ^ 16
  off_le : pass.dir.off ≤ store.cfg.blockSize

theorem Store.Bounded.turn (hbounded : store.Bounded pass)
    (hturn : store.turn query pass = .next pass') : store.Bounded pass' := by
  obtain ⟨tag, crc, hend, rfl | ⟨temp, fcrc, temp', hnote, hanswer, rfl⟩⟩ := Store.turn_next hturn
  · exact ⟨hbounded.temp_count, hbounded.temp_count, hend⟩
  · have hcount := Store.note_count_lt hbounded.temp_count hnote
    rw [← Store.answer_count hanswer] at hcount
    exact ⟨hcount, hbounded.dir_count, hbounded.off_le⟩

theorem Store.scanBlock_bounded (store : Store) (query : Query) (pair : WordPair) (rev : Word) :
    store.Bounded (store.scanBlock query pair rev).1 := by
  apply Store.scan_preserves (fun pass pass' hbounded hturn => hbounded.turn hturn)
  exact ⟨by norm_num, by norm_num, Nat.zero_le _⟩

/-- A fetch concludes from a pass that has published. -/
theorem Store.fetchmatch_conclude (hfetch : store.fetchmatch query pair = some fetched) :
    ∃ pair' rev maybeerased, (store.scanBlock query pair' rev).1.dir.off ≠ 0 ∧
      fetched = store.conclude (store.scanBlock query pair' rev).1 maybeerased := by
  rw [Store.fetchmatch] at hfetch
  split at hfetch
  · cases hfetch
  · simp only at hfetch
    generalize (if ((store.read pair.2 0 4).isSome &&
      decide (0 < lfsScmp (store.revision pair.2) (store.revision pair.1))) = true then pair.swap
        else pair) = front at hfetch
    by_cases hfirst : (store.scanBlock query front (store.revision front.1)).1.dir.off ≠ 0
    · rw [if_pos hfirst] at hfetch
      exact ⟨_, _, _, hfirst, (Option.some.inj hfetch).symm⟩
    · rw [if_neg hfirst] at hfetch
      by_cases hsecond :
          (store.scanBlock query front.swap (store.revision front.2)).1.dir.off ≠ 0
      · rw [if_pos hsecond] at hfetch
        exact ⟨_, _, _, hsecond, (Option.some.inj hfetch).symm⟩
      · rw [if_neg hsecond] at hfetch
        cases hfetch

/-- Where a fetch succeeds, it ends inside the block and counts in sixteen bits. -/
theorem Store.fetchmatch_bounded (hfetch : store.fetchmatch query pair = some fetched) :
    0 < fetched.dir.off ∧ fetched.dir.off ≤ store.cfg.blockSize ∧ fetched.dir.count < 2 ^ 16 := by
  obtain ⟨pair', rev, maybeerased, hoff, rfl⟩ := Store.fetchmatch_conclude hfetch
  have hbounded := Store.scanBlock_bounded store query pair' rev
  exact ⟨Nat.pos_of_ne_zero hoff, hbounded.off_le, hbounded.dir_count⟩

end Littlefs.Disk
