import Littlefs.Reading

/-!
# The allocator hands out free blocks

Between two checkpoints the allocator moves over the blocks of the device in
order, at most once around.  `Ahead` are the blocks it can still come to: a
block handed out is not among them any more, and a block that is in use is
skipped because the last scan has marked it.
-/

namespace Littlefs

open Program

namespace Lookahead

/-- The blocks before the next checkpoint. -/
def Ahead (window : Lookahead) (blockCount : ℕ) (block : Block) : Prop :=
  ∃ k < window.ckpoint, block = (window.start + window.next + k) % blockCount

structure Valid (window : Lookahead) (blockCount : ℕ) : Prop where
  pos : 0 < blockCount
  bound : blockCount + window.size ≤ 2 ^ 32
  start_lt : window.start < blockCount
  next_le : window.next ≤ window.size
  size_le : window.size ≤ blockCount
  rest_le : window.size - window.next ≤ window.ckpoint
  ckpoint_le : window.ckpoint ≤ blockCount

/-- The clear bits that are left stand for blocks outside `used`. -/
def Clear (window : Lookahead) (blockCount : ℕ) (used : Block → Prop) : Prop :=
  ∀ i, window.next ≤ i → i < window.size → window.buffer i = false →
    ¬used (window.blockAt blockCount i)

variable {window : Lookahead} {blockCount : ℕ} {used : Block → Prop}

theorem Valid.blockAt_eq (hvalid : window.Valid blockCount) {i : ℕ} (hi : i ≤ window.size) :
    window.blockAt blockCount i = (window.start + i) % blockCount := by
  have hbound := hvalid.bound
  have hstart := hvalid.start_lt
  rw [blockAt, Nat.mod_eq_of_lt (show window.start + i < 2 ^ 32 by omega)]

/-! ## Moving over the window -/

theorem Valid.ckpoint_pos (hvalid : window.Valid blockCount) (hnext : window.next < window.size) :
    0 < window.ckpoint := by
  have := hvalid.rest_le
  omega

theorem advance_ckpoint (hvalid : window.Valid blockCount) (hnext : window.next < window.size) :
    window.advance.ckpoint = window.ckpoint - 1 := by
  have hpos := hvalid.ckpoint_pos hnext
  simp [advance, wrappingPred, hpos.ne']

theorem Valid.advance (hvalid : window.Valid blockCount) (hnext : window.next < window.size) :
    window.advance.Valid blockCount := by
  have hckpoint := advance_ckpoint hvalid hnext
  have hrest := hvalid.rest_le
  have hle := hvalid.ckpoint_le
  refine ⟨hvalid.pos, hvalid.bound, hvalid.start_lt, hnext, hvalid.size_le, ?_, ?_⟩
  · rw [hckpoint]
    change window.size - (window.next + 1) ≤ window.ckpoint - 1
    omega
  · rw [hckpoint]
    omega

theorem Clear.advance (hclear : window.Clear blockCount used) :
    window.advance.Clear blockCount used := by
  intro i hnext hsize hbit
  exact hclear i (by change window.next + 1 ≤ i at hnext; omega) hsize hbit

theorem ahead_of_advance (hvalid : window.Valid blockCount) (hnext : window.next < window.size)
    {block : Block} (hahead : window.advance.Ahead blockCount block) :
    window.Ahead blockCount block := by
  obtain ⟨k, hk, hblock⟩ := hahead
  rw [advance_ckpoint hvalid hnext] at hk
  refine ⟨k + 1, by omega, ?_⟩
  rw [hblock]
  congr 1
  change window.start + (window.next + 1) + k = window.start + window.next + (k + 1)
  omega

/-- Positions less than one turn apart are different blocks. -/
theorem position_ne {blockCount position k : ℕ} (hpos : 0 < k) (hk : k < blockCount) :
    position % blockCount ≠ (position + k) % blockCount := by
  intro heq
  have hmod : k ≡ 0 [MOD blockCount] := by
    have hcongr : position + 0 ≡ position + k [MOD blockCount] := heq
    exact (Nat.ModEq.add_left_cancel' position hcongr).symm
  have := Nat.eq_zero_of_dvd_of_lt ((Nat.modEq_zero_iff_dvd).mp hmod) hk
  omega

/-- The block that the window steps over is not ahead any more. -/
theorem not_ahead_advance (hvalid : window.Valid blockCount) (hnext : window.next < window.size) :
    ¬window.advance.Ahead blockCount (window.blockAt blockCount window.next) := by
  rintro ⟨k, hk, hblock⟩
  rw [advance_ckpoint hvalid hnext] at hk
  have hle := hvalid.ckpoint_le
  have hne : (window.start + window.next) % blockCount ≠
      (window.start + window.next + (k + 1)) % blockCount :=
    position_ne (by omega) (by omega)
  apply hne
  rw [show window.start + window.next + (k + 1) = window.start + (window.next + 1) + k by omega,
    ← hvalid.blockAt_eq hnext.le]
  exact hblock

theorem ahead_next (hvalid : window.Valid blockCount) (hnext : window.next < window.size) :
    window.Ahead blockCount (window.blockAt blockCount window.next) :=
  ⟨0, hvalid.ckpoint_pos hnext, by rw [hvalid.blockAt_eq hnext.le, Nat.add_zero]⟩

/-- What stepping over marked bits keeps. -/
structure Skipped (window window' : Lookahead) (blockCount : ℕ) : Prop where
  valid : window.Valid blockCount → window'.Valid blockCount
  clear : ∀ used, window.Clear blockCount used → window'.Clear blockCount used
  ahead : ∀ block, window'.Ahead blockCount block → window.Ahead blockCount block
  next_le : window.next ≤ window'.next
  size_eq : window'.size = window.size

theorem skip_skipped (fuel : ℕ) (hvalid : window.Valid blockCount) :
    Skipped window (window.skip fuel) blockCount := by
  induction fuel generalizing window with
  | zero => exact ⟨id, fun _ h => h, fun _ h => h, le_refl _, rfl⟩
  | succ fuel ih =>
      rw [skip]
      split_ifs with hmarked
      · have hskipped := ih (hvalid.advance hmarked.1)
        exact ⟨fun _ => hskipped.valid (hvalid.advance hmarked.1),
          fun used hclear => hskipped.clear used hclear.advance,
          fun block hahead => ahead_of_advance hvalid hmarked.1 (hskipped.ahead block hahead),
          (Nat.le_succ _).trans hskipped.next_le, hskipped.size_eq⟩
      · exact ⟨id, fun _ h => h, fun _ h => h, le_refl _, rfl⟩

/-- Enough steps reach a clear bit or the end of the window. -/
theorem skip_next (fuel : ℕ) (hfuel : window.size - window.next ≤ fuel)
    (hnext : (window.skip fuel).next < window.size) :
    (window.skip fuel).buffer (window.skip fuel).next = false := by
  induction fuel generalizing window with
  | zero =>
      change window.next < window.size at hnext
      omega
  | succ fuel ih =>
      rw [skip] at hnext ⊢
      split_ifs at hnext ⊢ with hmarked
      · exact ih (by change window.size - (window.next + 1) ≤ fuel; omega) hnext
      · simpa [hnext] using hmarked

/-! ## A new window -/

/-- The offsets of a window fit 32-bit words. -/
def Room (blockCount lookaheadSize : ℕ) : Prop :=
  blockCount + min (lookaheadBits lookaheadSize) blockCount ≤ 2 ^ 32

theorem Valid.moved (hvalid : window.Valid blockCount) {lookaheadSize : ℕ}
    (hroom : Room blockCount lookaheadSize) :
    (window.moved blockCount lookaheadSize).Valid blockCount := by
  have hle := hvalid.ckpoint_le
  unfold Room at hroom
  refine ⟨hvalid.pos, ?_, Nat.mod_lt _ hvalid.pos, Nat.zero_le _, ?_, ?_, hle⟩
  · change blockCount + min (lookaheadBits lookaheadSize) window.ckpoint ≤ 2 ^ 32
    omega
  · exact (min_le_right _ _).trans hle
  · change min (lookaheadBits lookaheadSize) window.ckpoint - 0 ≤ window.ckpoint
    rw [Nat.sub_zero]
    exact min_le_right _ _

theorem ahead_moved (hvalid : window.Valid blockCount) (lookaheadSize : ℕ) (block : Block) :
    (window.moved blockCount lookaheadSize).Ahead blockCount block ↔
      window.Ahead blockCount block := by
  have hposition : ∀ k, (window.blockAt blockCount window.next + 0 + k) % blockCount =
      (window.start + window.next + k) % blockCount := by
    intro k
    rw [hvalid.blockAt_eq hvalid.next_le, Nat.add_zero, Nat.mod_add_mod]
  unfold Ahead
  exact exists_congr fun k => and_congr_right fun _ => by
    change block = (window.blockAt blockCount window.next + 0 + k) % blockCount ↔ _
    rw [hposition]

/-- The bit of a block in the window. -/
theorem blockAt_offsetOf (hvalid : window.Valid blockCount) {i : ℕ} (hi : i < window.size) :
    window.offsetOf blockCount (window.blockAt blockCount i) = i := by
  have hbound := hvalid.bound
  have hstart := hvalid.start_lt
  have hsize := hvalid.size_le
  rw [hvalid.blockAt_eq hi.le, offsetOf]
  by_cases hwrap : window.start + i < blockCount
  · rw [Nat.mod_eq_of_lt hwrap,
      show window.start + i + 2 ^ 32 - window.start = i + 2 ^ 32 by omega, Nat.add_mod_right,
      Nat.mod_eq_of_lt (show i < 2 ^ 32 by omega),
      Nat.mod_eq_of_lt (show i + blockCount < 2 ^ 32 by omega), Nat.add_mod_right,
      Nat.mod_eq_of_lt (show i < blockCount by omega)]
  · have hmod : (window.start + i) % blockCount = window.start + i - blockCount := by
      rw [Nat.mod_eq_sub_mod (by omega), Nat.mod_eq_of_lt (by omega)]
    rw [hmod, show window.start + i - blockCount + 2 ^ 32 - window.start =
        2 ^ 32 + i - blockCount by omega,
      Nat.mod_eq_of_lt (show 2 ^ 32 + i - blockCount < 2 ^ 32 by omega),
      show 2 ^ 32 + i - blockCount + blockCount = i + 2 ^ 32 by omega, Nat.add_mod_right,
      Nat.mod_eq_of_lt (show i < 2 ^ 32 by omega),
      Nat.mod_eq_of_lt (show i < blockCount by omega)]

/-- On a device of at most half the words no block has the bit of another. -/
theorem blockAt_of_offsetOf (hvalid : window.Valid blockCount) (hhalf : 2 * blockCount ≤ 2 ^ 32)
    {block : ℕ} (hblock : block < blockCount)
    (hsize : window.offsetOf blockCount block < window.size) :
    window.blockAt blockCount (window.offsetOf blockCount block) = block := by
  have hstart := hvalid.start_lt
  rw [hvalid.blockAt_eq hsize.le]
  by_cases hbefore : block < window.start
  · have hwrap : block + 2 ^ 32 - window.start < 2 ^ 32 := by omega
    have hsum : block + 2 ^ 32 - window.start + blockCount =
        block + blockCount - window.start + 2 ^ 32 := by omega
    have hword : block + blockCount - window.start < 2 ^ 32 := by omega
    have hlt : block + blockCount - window.start < blockCount := by omega
    have hoffset : window.offsetOf blockCount block = block + blockCount - window.start := by
      rw [offsetOf, Nat.mod_eq_of_lt hwrap, hsum, Nat.add_mod_right, Nat.mod_eq_of_lt hword,
        Nat.mod_eq_of_lt hlt]
    have hturn : window.start + (block + blockCount - window.start) = block + blockCount := by omega
    rw [hoffset, hturn, Nat.add_mod_right, Nat.mod_eq_of_lt hblock]
  · have hsum : block + 2 ^ 32 - window.start = block - window.start + 2 ^ 32 := by omega
    have hdistance : block - window.start < 2 ^ 32 := by omega
    have hword : block - window.start + blockCount < 2 ^ 32 := by omega
    have hlt : block - window.start < blockCount := by omega
    have hoffset : window.offsetOf blockCount block = block - window.start := by
      rw [offsetOf, hsum, Nat.add_mod_right, Nat.mod_eq_of_lt hdistance, Nat.mod_eq_of_lt hword,
        Nat.add_mod_right, Nat.mod_eq_of_lt hlt]
    have hturn : window.start + (block - window.start) = block := by omega
    rw [hoffset, hturn, Nat.mod_eq_of_lt hblock]

/-- The bit of `block` is set, if the window has one. -/
def Marked (window : Lookahead) (blockCount : ℕ) (block : Block) : Prop :=
  window.offsetOf blockCount block < window.size →
    window.buffer (window.offsetOf blockCount block) = true

theorem clear_of_marked (hvalid : window.Valid blockCount)
    (hmarked : ∀ block, used block → window.Marked blockCount block) :
    window.Clear blockCount used := by
  intro i _ hsize hbit hused
  have hoffset := blockAt_offsetOf hvalid hsize
  have hset := hmarked _ hused
  rw [Marked, hoffset] at hset
  rw [hset hsize] at hbit
  cases hbit

end Lookahead

end Littlefs
