import Littlefs.Utils

/-!
# Accepted configurations

The assertions that `lfs_init` makes about the numbers of a configuration, and the
limits it derives from them.
-/

namespace Littlefs

/-- `LFS_NAME_MAX`. -/
def lfsNameMax : ℕ := 255

/-- `LFS_FILE_MAX`. -/
def lfsFileMax : ℕ := 2147483647

/-- `LFS_ATTR_MAX`. -/
def lfsAttrMax : ℕ := 1022

/-- The name limit after `lfs_init`. -/
def Config.nameLimit (cfg : Config) : ℕ := if cfg.nameMax ≠ 0 then cfg.nameMax else lfsNameMax

/-- The file limit after `lfs_init`. -/
def Config.fileLimit (cfg : Config) : ℕ := if cfg.fileMax ≠ 0 then cfg.fileMax else lfsFileMax

/-- The attribute limit after `lfs_init`. -/
def Config.attrLimit (cfg : Config) : ℕ := if cfg.attrMax ≠ 0 then cfg.attrMax else lfsAttrMax

/-- The bytes of a metadata log after `lfs_init`. -/
def Config.metadataLimit (cfg : Config) : ℕ :=
  if cfg.metadataMax ≠ 0 then cfg.metadataMax else cfg.blockSize

/-- The inline limit after `lfs_init`. -/
def Config.inlineLimit (cfg : Config) : ℕ :=
  if cfg.inlineMax = 2 ^ 32 - 1 then 0
  else if cfg.inlineMax = 0 then
    min (min cfg.cacheSize cfg.attrLimit) (cfg.metadataLimit / 8)
  else cfg.inlineMax

/-- The assertions of `lfs_init`; the numbers are words. -/
structure Config.Accepted (cfg : Config) : Prop where
  read_ne : cfg.readSize ≠ 0
  prog_ne : cfg.progSize ≠ 0
  cache_ne : cfg.cacheSize ≠ 0
  read_dvd : cfg.readSize ∣ cfg.cacheSize
  prog_dvd : cfg.progSize ∣ cfg.cacheSize
  cache_dvd : cfg.cacheSize ∣ cfg.blockSize
  block_ge : 128 ≤ cfg.blockSize
  pointers_fit : 4 * lfsNpw2Word (0xffffffff / (cfg.blockSize - 2 * 4)) ≤ cfg.blockSize
  cycles_ne : cfg.blockCycles ≠ 0
  thresh_ge : cfg.compactThresh = 0 ∨ cfg.blockSize / 2 ≤ cfg.compactThresh
  thresh_le : cfg.compactThresh = 2 ^ 32 - 1 ∨ cfg.compactThresh ≤ cfg.blockSize
  lookahead_ne : cfg.lookaheadSize ≠ 0
  metadata_read : cfg.metadataMax = 0 ∨ cfg.readSize ∣ cfg.metadataMax
  metadata_prog : cfg.metadataMax = 0 ∨ cfg.progSize ∣ cfg.metadataMax
  metadata_dvd : cfg.metadataMax = 0 ∨ cfg.metadataMax ∣ cfg.blockSize
  name_le : cfg.nameMax ≤ lfsNameMax
  file_le : cfg.fileMax ≤ lfsFileMax
  attr_le : cfg.attrMax ≤ lfsAttrMax
  metadata_le : cfg.metadataMax = 0 ∨ cfg.metadataMax ≤ cfg.blockSize
  inline_cache : cfg.inlineMax = 2 ^ 32 - 1 ∨ cfg.inlineMax ≤ cfg.cacheSize
  inline_attr : cfg.inlineMax = 2 ^ 32 - 1 ∨ cfg.inlineMax ≤ cfg.attrLimit
  inline_metadata : cfg.inlineMax = 2 ^ 32 - 1 ∨ cfg.inlineMax ≤ cfg.metadataLimit / 8
  block_word : cfg.blockSize < 2 ^ 32
  count_word : cfg.blockCount < 2 ^ 32

/-- Every default passes the check that the configured value has to pass. -/
theorem Config.Accepted.limits {cfg : Config} (haccepted : cfg.Accepted) :
    cfg.nameLimit ≤ lfsNameMax ∧ cfg.fileLimit ≤ lfsFileMax ∧ cfg.attrLimit ≤ lfsAttrMax := by
  have hname := haccepted.name_le
  have hfile := haccepted.file_le
  have hattr := haccepted.attr_le
  refine ⟨?_, ?_, ?_⟩
  · rw [nameLimit]
    split
    · exact hname
    · exact le_refl _
  · rw [fileLimit]
    split
    · exact hfile
    · exact le_refl _
  · rw [attrLimit]
    split
    · exact hattr
    · exact le_refl _

/-- Blocks of 512 bytes, with every limit at its default. -/
def defaultConfig : Config where
  readSize := 16
  progSize := 16
  blockSize := 512
  blockCount := 128
  blockCycles := 500
  cacheSize := 64
  lookaheadSize := 16
  compactThresh := 0
  nameMax := 0
  fileMax := 0
  attrMax := 0
  metadataMax := 0
  inlineMax := 0

theorem defaultConfig_accepted : defaultConfig.Accepted := by
  constructor <;> decide

end Littlefs
