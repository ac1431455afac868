import Mathlib.Tactic
import Mathlib.Data.List.Basic
import Mathlib.Logic.Function.Basic

/-!
# Scalars, errors and block pairs

Block addresses, offsets and revision counts are natural numbers.  The two
reserved addresses keep their 32-bit values, since `lfs_pair_isnull` compares
with them.
-/

namespace Littlefs

abbrev Block := ℕ

/-- A metadata pair `[lfs_block_t; 2]`. -/
abbrev Pair := Block × Block

abbrev Bytes := List ℕ

def blockNull : Block := 0xffffffff

def blockInline : Block := 0xfffffffe

/-- `error.rs`, in the order of the source. -/
inductive Error
  | io
  | corrupt
  | noEntry
  | exists
  | notDir
  | isDir
  | notEmpty
  | invalid
  | noSpace
  | noMemory
  | noAttribute
  | nameTooLong
  | fileTooBig
  deriving DecidableEq, Repr

def lfsAligndown (a alignment : ℕ) : ℕ := a - a % alignment

def lfsAlignup (a alignment : ℕ) : ℕ := lfsAligndown (a + alignment - 1) alignment

def lfsPairIsnull (pair : Pair) : Bool :=
  pair.1 == blockNull || pair.2 == blockNull

/-- As in the source, `lfsPairCmp` answers `false` when the two pairs share a
block, so `!lfsPairCmp` reads "the same pair, one block possibly replaced". -/
def lfsPairCmp (paira pairb : Pair) : Bool :=
  !(paira.1 == pairb.1 || paira.2 == pairb.2 || paira.1 == pairb.2 || paira.2 == pairb.1)

def lfsPairIssync (paira pairb : Pair) : Bool :=
  (paira.1 == pairb.1 && paira.2 == pairb.2) || (paira.1 == pairb.2 && paira.2 == pairb.1)

end Littlefs
