import OsispLabs.Lab6.Division

/-!
# Exact byte offsets

`blockSize`, the byte offsets of the blocks and of the merged groups, the doubled sizes and the
counts for `merge` are `int` values. All of them have their exact values if the largest multiple
of the block size and of the chunk size does.
-/
namespace OsispLabs.Lab6
open Lib

/-- The `int` expressions of one pass over `blocks` groups of exactly `exact` bytes each. -/
structure ExactPass (blocks : ℕ) (tmpBlockSize exact : ℤ) : Prop where
  size : tmpBlockSize = exact
  block1 : ∀ tmpId < blocks / 2,
    intMul (2 * tmpId : ℕ) tmpBlockSize = some ((2 * tmpId : ℕ) * exact)
  block2 : ∀ tmpId < blocks / 2,
    intMul (2 * tmpId + 1 : ℕ) tmpBlockSize = some ((2 * tmpId + 1 : ℕ) * exact)
  count : toInt (toSize tmpBlockSize / 16) = exact / 16
  doubled : intMul tmpBlockSize 2 = some (exact * 2)

/-- The `int` expressions of all passes of a merge loop. -/
inductive ExactPasses : ℕ → ℤ → ℤ → Prop
  | done {blocks : ℕ} {tmpBlockSize exact : ℤ} (hle : blocks ≤ 1) :
    ExactPasses blocks tmpBlockSize exact
  | pass {blocks : ℕ} {tmpBlockSize exact doubled : ℤ} (hone : 1 < blocks)
      (hpass : ExactPass blocks tmpBlockSize exact) (hdouble : intMul tmpBlockSize 2 = some doubled)
      (hrest : ExactPasses (blocks / 2) doubled (exact * 2)) :
    ExactPasses blocks tmpBlockSize exact

/-- The largest multiples of the group size in a merge loop are `int` values. -/
def MultiplesFit (blocks : ℕ) (size : ℤ) : Prop :=
  IsInt ((2 * (blocks / 2) - 1 : ℕ) * size) ∧ IsInt ((2 ^ Nat.log2 blocks : ℕ) * size)

variable {blocks : ℕ} {size : ℤ}

theorem count_exact (h : IsInt size) : toInt (toSize size / 16) = size / 16 := by
  simp only [IsInt] at h
  simp only [toInt, toSize, Int.bmod_def]
  omega

theorem exactPass_iff (hone : 1 < blocks) : ExactPass blocks size size ↔
    IsInt ((2 * (blocks / 2) - 1 : ℕ) * size) ∧ IsInt (size * 2) := by
  constructor
  · intro h
    have hlast := h.block2 (blocks / 2 - 1) (by omega)
    rw [intMul_exact, show 2 * (blocks / 2 - 1) + 1 = 2 * (blocks / 2) - 1 by omega] at hlast
    exact ⟨hlast, intMul_exact.mp h.doubled⟩
  · rintro ⟨hlast, hdouble⟩
    constructor
    · rfl
    · intro tmpId hid
      rw [intMul_exact]
      exact hlast.of_mul_le (by omega)
    · intro tmpId hid
      rw [intMul_exact]
      exact hlast.of_mul_le (by omega)
    · apply count_exact
      have hsize : IsInt ((1 : ℕ) * size) := hlast.of_mul_le (by omega)
      rwa [Int.natCast_one, Int.one_mul] at hsize
    · rw [intMul_exact]
      exact hdouble

theorem multiplesFit_halve (hone : 1 < blocks) : MultiplesFit blocks size ↔
    IsInt ((2 * (blocks / 2) - 1 : ℕ) * size) ∧ MultiplesFit (blocks / 2) (size * 2) := by
  have hlog : ((2 ^ Nat.log2 blocks : ℕ) : ℤ) * size =
      (2 ^ Nat.log2 (blocks / 2) : ℕ) * (size * 2) := by
    rw [two_pow_log2_halve hone, Nat.mul_comm 2, Int.natCast_mul, Int.mul_comm size 2,
      ← Int.mul_assoc]
    rfl
  have hhalf : ((2 * (blocks / 2 / 2) - 1 : ℕ) : ℤ) * (size * 2) =
      ((2 * (blocks / 2 / 2) - 1) * 2 : ℕ) * size := by
    rw [Int.natCast_mul, Int.mul_comm size 2, ← Int.mul_assoc]
    rfl
  rw [MultiplesFit, MultiplesFit, hlog, hhalf]
  constructor
  · rintro ⟨hlast, hdouble⟩
    exact ⟨hlast, hlast.of_mul_le (by omega), hdouble⟩
  · rintro ⟨hlast, _, hdouble⟩
    exact ⟨hlast, hdouble⟩

theorem MultiplesFit.isInt (h : MultiplesFit blocks size) : IsInt size := by
  have hone : IsInt ((1 : ℕ) * size) := h.2.of_mul_le Nat.one_le_two_pow
  rwa [Int.natCast_one, Int.one_mul] at hone

theorem multiplesFit_of_le_one (hle : blocks ≤ 1) (h : IsInt size) : MultiplesFit blocks size := by
  have hhalf : blocks / 2 = 0 := by omega
  have hlog : Nat.log2 blocks = 0 := by
    rw [Nat.log2_def, if_neg (by omega)]
  rw [IsInt] at h
  simp only [MultiplesFit, hhalf, hlog, IsInt]
  omega

/-- A merge loop computes exactly as long as its largest multiples fit. -/
theorem exactPasses_iff (hsize : IsInt size) :
    ExactPasses blocks size size ↔ MultiplesFit blocks size := by
  induction blocks using Nat.strongRecOn generalizing size with
  | ind blocks ih =>
    by_cases hle : blocks ≤ 1
    · exact iff_of_true (.done hle) (multiplesFit_of_le_one hle hsize)
    · have hone : 1 < blocks := by omega
      rw [multiplesFit_halve hone]
      constructor
      · intro h
        cases h with
        | done hle' => exact absurd hle' hle
        | pass _ hpass hdouble hrest =>
          obtain ⟨hlast, htwo⟩ := (exactPass_iff hone).mp hpass
          obtain ⟨_, rfl⟩ := intMul_eq_some.mp hdouble
          exact ⟨hlast, (ih (blocks / 2) (by omega) htwo).mp hrest⟩
      · rintro ⟨hlast, hrest⟩
        have htwo := hrest.isInt
        exact .pass hone ((exactPass_iff hone).mpr ⟨hlast, htwo⟩) (intMul_exact.mpr htwo)
          ((ih (blocks / 2) (by omega) htwo).mpr hrest)

namespace Args

variable (a : Args) (filesize : ℤ)

/-- The bytes of a block. -/
def exactBlockSize : ℤ := a.memsize.tdiv a.blockNum * 16

/-- The `int` expressions of `main` and `sort_thread`. -/
structure ExactBlocks : Prop where
  blockSize : a.blockSize = a.exactBlockSize
  own : ∀ threadId < max a.threads.toNat 1,
    intMul threadId a.blockSize = some (threadId * a.exactBlockSize)
  claimed : ∀ nextBlock < a.blockNum.toNat,
    intMul nextBlock a.blockSize = some (nextBlock * a.exactBlockSize)
  passes : ExactPasses a.blockNum.toNat a.blockSize a.exactBlockSize

/-- The `int` expressions of `lastMerge`. -/
structure ExactLastMerge : Prop where
  mergeBlocks : toInt (toSize (filesize - 16) / toSize (a.memsize * 16)) =
    (filesize - 16) / (a.memsize * 16)
  tmpBlockSize : toInt (a.memsize * 16) = a.memsize * 16
  passes : ExactPasses (toInt (toSize (filesize - 16) / toSize (a.memsize * 16))).toNat
    (toInt (a.memsize * 16)) (a.memsize * 16)

/-- The chunk loop ends, and `lastMerge` is called after it. -/
structure CallsLastMerge : Prop where
  header_le : 16 ≤ filesize
  memsize_pos : 1 ≤ a.memsize
  whole : a.memsize ∣ (filesize - 16) / 16
  several : a.memsize * 16 ≠ filesize - 16

/-- All offsets, sizes and counts are exact. -/
structure ExactOffsets : Prop where
  blocks : a.ExactBlocks
  lastMerge : a.CallsLastMerge filesize → a.ExactLastMerge filesize

/-- The largest multiple of the block size that a chunk needs. -/
def blockFactor : ℕ :=
  max (max (a.threads.toNat - 1) (a.blockNum.toNat - 1)) (2 ^ Nat.log2 a.blockNum.toNat)

/-- The largest multiple of the chunk size that the last merge needs. -/
def chunkFactor : ℕ :=
  max (2 * (((filesize - 16) / (a.memsize * 16)).toNat / 2) - 1)
    (2 ^ Nat.log2 ((filesize - 16) / (a.memsize * 16)).toNat)

/-- The largest offsets and sizes are `int` values. -/
structure LargestFit : Prop where
  blocks : IsInt (a.blockFactor * a.exactBlockSize)
  lastMerge : a.CallsLastMerge filesize → IsInt (a.chunkFactor filesize * (a.memsize * 16))

variable {a filesize}

theorem exactBlocks_iff : a.ExactBlocks ↔ IsInt (a.blockFactor * a.exactBlockSize) := by
  have hsize : a.blockSize = a.exactBlockSize ↔ IsInt a.exactBlockSize := by
    rw [blockSize, toInt_toSize]
    exact toInt_eq_self
  constructor
  · intro h
    have hint := hsize.mp h.blockSize
    obtain ⟨hexact, hown, hclaimed, hpasses⟩ := h
    rw [hexact] at hown hclaimed hpasses
    rw [blockFactor, isInt_max, isInt_max]
    refine ⟨⟨?_, ?_⟩, ((exactPasses_iff hint).mp hpasses).2⟩
    · exact intMul_exact.mp (hown _ (by omega))
    · by_cases hzero : a.blockNum.toNat = 0
      · rw [hzero]
        simp [IsInt]
      · exact intMul_exact.mp (hclaimed _ (by omega))
  · intro h
    rw [blockFactor, isInt_max, isInt_max] at h
    obtain ⟨⟨hown, hclaimed⟩, hdouble⟩ := h
    have hone : IsInt ((1 : ℕ) * a.exactBlockSize) := hdouble.of_mul_le Nat.one_le_two_pow
    rw [Int.natCast_one, Int.one_mul] at hone
    have hexact := hsize.mpr hone
    constructor
    · exact hexact
    · intro threadId hthread
      rw [hexact, intMul_exact]
      exact hown.of_mul_le (by omega)
    · intro nextBlock hblock
      rw [hexact, intMul_exact]
      exact hclaimed.of_mul_le (by omega)
    · rw [hexact, exactPasses_iff hone]
      exact ⟨hclaimed.of_mul_le (by omega), hdouble⟩

theorem exactLastMerge_iff (hpos : 1 ≤ a.memsize) (hle : a.memsize * 16 ≤ filesize - 16)
    (hlong : filesize < 2 ^ 63) : a.ExactLastMerge filesize ↔
      IsInt (a.chunkFactor filesize * (a.memsize * 16)) := by
  have harea : toSize (filesize - 16) = filesize - 16 := by
    rw [toSize_of_nonneg (by omega) (by omega), Int.toNat_of_nonneg (by omega)]
  have hchunk : toSize (a.memsize * 16) = a.memsize * 16 := by
    rw [toSize_of_nonneg (by omega) (by omega), Int.toNat_of_nonneg (by omega)]
  have hnonneg : 0 ≤ (filesize - 16) / (a.memsize * 16) := Int.ediv_nonneg (by omega) (by omega)
  constructor
  · rintro ⟨hblocks, hsize, hpasses⟩
    have hint := toInt_eq_self.mp hsize
    rw [hblocks, hsize, exactPasses_iff hint] at hpasses
    rw [chunkFactor, isInt_max]
    exact hpasses
  · intro h
    rw [chunkFactor, isInt_max] at h
    have hint := MultiplesFit.isInt h
    have hcount : IsInt ((filesize - 16) / (a.memsize * 16)) := by
      have hlt := Nat.lt_log2_self (n := ((filesize - 16) / (a.memsize * 16)).toNat)
      have hdouble := h.2
      rw [Nat.pow_succ] at hlt
      generalize 2 ^ Nat.log2 ((filesize - 16) / (a.memsize * 16)).toNat = groups at hlt hdouble
      have hgroups : (groups : ℤ) * 16 ≤ groups * (a.memsize * 16) :=
        Int.mul_le_mul_of_nonneg_left (by omega) (by omega)
      rw [IsInt] at hdouble ⊢
      omega
    have hblocks : toInt (toSize (filesize - 16) / toSize (a.memsize * 16)) =
        (filesize - 16) / (a.memsize * 16) := by
      rw [harea, hchunk, toInt_of_isInt hcount]
    have hsize := toInt_of_isInt hint
    refine ⟨hblocks, hsize, ?_⟩
    rw [hblocks, hsize, exactPasses_iff hint]
    exact h

/-- For every accepted call: all offsets are exact exactly if the largest ones fit. -/
theorem exactOffsets_iff (hargs : a.Accepted filesize) (hlong : filesize < 2 ^ 63) :
    a.ExactOffsets filesize ↔ a.LargestFit filesize := by
  have hmerge (hcall : a.CallsLastMerge filesize) : a.ExactLastMerge filesize ↔
      IsInt (a.chunkFactor filesize * (a.memsize * 16)) := by
    have hpos := hcall.memsize_pos
    have hheader := hcall.header_le
    have hint := a.memsize_isInt
    have hfirst := hargs.1
    rw [IsInt] at hint
    rw [toSize_of_nonneg (by omega) (by omega), toSize_of_nonneg (by omega) (by omega)] at hfirst
    exact exactLastMerge_iff hpos (by omega) hlong
  constructor
  · rintro ⟨hblocks, hlast⟩
    exact ⟨exactBlocks_iff.mp hblocks, fun hcall => (hmerge hcall).mp (hlast hcall)⟩
  · rintro ⟨hblocks, hlast⟩
    exact ⟨exactBlocks_iff.mpr hblocks, fun hcall => (hmerge hcall).mpr (hlast hcall)⟩

theorem exactOffsets_fiveBlocks : fiveBlocks.ExactOffsets 336 :=
  (exactOffsets_iff (a := fiveBlocks) (by decide) (by decide)).mpr
    ⟨by decide, fun _ => by decide⟩

/-- The size of a block of 4 GiB is `0` as an `int`. -/
theorem longBlock_not_exact : longBlock.Accepted (16 + 2 ^ 32) ∧
    ¬ longBlock.ExactOffsets (16 + 2 ^ 32) := by
  have hbytes : longBlock.blockSize = 0 := by simp [longBlock, blockSize, toSize, toInt]
  refine ⟨?_, fun hexact => ?_⟩
  · refine ⟨?_, ?_, ?_, ?_⟩
    · simp [longBlock, toSize]
    · simp [longBlock]
    · simp [longBlock]
    · rw [hbytes]
      simp [toSize]
  · have hsize := hexact.blocks.blockSize
    rw [hbytes] at hsize
    simp [exactBlockSize, longBlock] at hsize

section Addresses

variable {T : Type*} [LT T] [DecidableLT T] {qsort : Qsort T} {mem : List (IndexS T)}

theorem multiplesFit_natCast {blocks size : ℕ} :
    MultiplesFit blocks size ↔ PassesFit blocks size := by
  rw [MultiplesFit, PassesFit, ← Int.natCast_mul, ← Int.natCast_mul, isInt_natCast, isInt_natCast,
    Nat.mul_comm (2 ^ _)]

theorem exactBlockSize_eq (h : a.Runnable) : a.exactBlockSize = (16 * a.size : ℕ) := by
  have hpos := h.threads_pos
  have hle := h.threads_le
  rw [exactBlockSize, Int.tdiv_eq_ediv_of_nonneg h.memsize_nonneg, size, Int.natCast_mul,
    Int.natCast_ediv, Int.toNat_of_nonneg h.memsize_nonneg, Int.toNat_of_nonneg (by omega),
    Int.mul_comm]
  rfl

theorem ExactBlocks.offsetsFit (h : a.Runnable) (hexact : a.ExactBlocks) : a.OffsetsFit := by
  have hmax := exactBlocks_iff.mp hexact
  rw [exactBlockSize_eq h] at hmax
  have hle : max (a.blockNum.toNat - 1) (2 ^ Nat.log2 a.blockNum.toNat) ≤ a.blockFactor := by
    rw [blockFactor]
    omega
  have hfit := hmax.of_mul_le hle
  rw [← Int.natCast_mul, isInt_natCast, Nat.mul_comm] at hfit
  exact hfit

/-- With exact offsets the threads of a chunk sort and merge the intended records. -/
theorem ExactBlocks.dividesWork (h : a.Runnable) (hexact : a.ExactBlocks)
    (hroom : a.memsize.toNat ≤ mem.length) : a.DividesWork qsort mem :=
  dividesWork_of_fit h (hexact.offsetsFit h) hroom

/-- With exact offsets `lastMerge` merges the intended chunks. -/
theorem ExactLastMerge.lastMerge_eq (hexact : a.ExactLastMerge filesize) {chunks m : ℕ}
    (hm : 1 ≤ m) (hmemsize : a.memsize = m) (hfile : filesize = 16 + 16 * (chunks * m : ℕ))
    (hlen : chunks * m ≤ mem.length) :
    lastMerge a.memsize filesize mem = some (mergeTree mergeRuns chunks m mem) := by
  obtain ⟨hblocks, hsize, hpasses⟩ := hexact
  have hbytes : a.memsize * 16 = (16 * m : ℕ) := by omega
  have harea : (filesize - 16) / (a.memsize * 16) = chunks := by
    have hmul : filesize - 16 = chunks * (16 * m : ℕ) := by
      rw [← Int.natCast_mul, Nat.mul_left_comm]
      omega
    rw [hmul, hbytes, Int.mul_ediv_cancel _ (by omega)]
  rw [hbytes] at hsize
  have hint := toInt_eq_self.mp hsize
  have hne : toSize (16 * m : ℕ) ≠ 0 := by
    rw [isInt_natCast] at hint
    rw [toSize_of_nonneg (by omega) (by omega)]
    omega
  rw [harea, hbytes] at hblocks
  rw [hbytes, hblocks, hsize, exactPasses_iff hint, Int.toNat_natCast, multiplesFit_natCast]
    at hpasses
  rw [lastMerge, hbytes, if_neg hne, hblocks, hsize, Int.toNat_natCast,
    mergeLoop_of_fit mergeBytes_merges (by omega) hlen hpasses]

end Addresses

end Args

end OsispLabs.Lab6
