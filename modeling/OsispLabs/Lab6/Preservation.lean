import OsispLabs.Lab6.ArgumentChecks
import OsispLabs.Lab6.UnsortedFile

/-!
# What every run leaves of the file

Whatever the arguments are, a run that returns has counted whole chunks and has only moved records.
The time marks need not be ordered.
-/
namespace OsispLabs.Lab6
open Lib

variable {T : Type*} [LT T] [DecidableLT T]

/-- `qsort` returns a permutation of its range. -/
def Qsort.Permutes (qsort : Qsort T) : Prop := ∀ xs, (qsort.sort xs).Perm xs

/-- The chunk size in bytes, where its conversion to `int` leaves it positive. -/
theorem toInt_bytes {m : ℕ} (h : ¬ toInt (16 * m : ℕ) < 0) :
    ∃ size ≤ m, toInt (16 * m : ℕ) = (16 * size : ℕ) ∧ 16 * size < 2 ^ 31 := by
  refine ⟨(toInt (16 * m : ℕ)).toNat / 16, ?_⟩
  simp only [toInt, Int.bmod_def] at h ⊢
  omega

namespace Args

variable {a : Args} {qsort : Qsort T} {file : IndexFile T} {records rounds size : ℕ}
  {index out : List (IndexS T)}

/-- The last merge only moves records, also where its chunk size has been cut. -/
theorem Chunked.lastPass_perm (h : a.Chunked records rounds size) (hindex : index.length = records)
    (hlast : a.lastPass records index = some out) : out.Perm index := by
  by_cases hzero : a.memsize.toNat = 0
  · have hrecords := h.records_eq
    rw [hzero, Nat.mul_zero] at hrecords
    rw [lastPass, if_pos (by omega), Option.some_inj] at hlast
    rw [hlast]
  · rw [h.lastPass_eq index (Nat.pos_of_ne_zero hzero)] at hlast
    by_cases hneg : toInt (16 * a.memsize.toNat : ℕ) < 0
    · by_cases hblocks : 1 < (toInt rounds).toNat
      · rw [mergeLoop_negative hblocks hneg (isInt_toInt _)] at hlast
        cases hlast
      · rw [mergeLoop, if_pos (by omega), Option.some_inj] at hlast
        rw [hlast]
    · obtain ⟨chunk, hchunk, hbytes, hlt⟩ := toInt_bytes hneg
      rw [hbytes] at hlast
      have hfit : (toInt rounds).toNat * chunk ≤ index.length := by
        rw [hindex, h.records_eq]
        exact Nat.mul_le_mul (toNat_toInt_le rounds) hchunk
      obtain ⟨-, rfl⟩ := (mergeLoop_eq_some mergeBytes_merges (by omega) hfit hlt).mp hlast
      exact mergeTree_perm mergeRuns_perm _ _ _

variable {as : List (Action a.threads.toNat)} {p : Program a.threads.toNat T}

omit [LT T] [DecidableLT T] in
theorem main_eq_sorting {r : Round a.threads.toNat T} (h : a.main file = .sorting r) :
    a.Accepted (filesize file.index.length) ∧
      (0 < a.threads ∧ a.threads ≤ 128 ∧ a.threads ≤ a.blockNum) := by
  rw [main, mainOn] at h
  split_ifs at h with hsize hblockNum hdivides hblockSize
  rw [not_not] at hdivides hblockSize
  exact ⟨⟨Nat.not_lt.mp hsize, hblockNum, hdivides, hblockSize⟩, (startChunk_sorting.mp h).1⟩

omit [LT T] [DecidableLT T] in
theorem main_ne_returned (result : IndexFile T) : a.main file ≠ .returned result := by
  rw [main, mainOn]
  unfold startChunk
  split_ifs <;> simp

/-- A run that returns has got past the checks. -/
theorem Runs.accepted {result : IndexFile T} (hrun : a.Runs qsort file as (.returned result)) :
    a.Accepted (filesize file.index.length) ∧
      (0 < a.threads ∧ a.threads ≤ 128 ∧ a.threads ≤ a.blockNum) := by
  cases as with
  | nil => exact absurd (by simpa [Runs] using hrun) (main_ne_returned result)
  | cons action as =>
    obtain ⟨p, hnext, -⟩ := exec_cons_eq_some.mp hrun
    cases hmain : a.main file with
    | sorting r => exact main_eq_sorting hmain
    | exited | undefined | returned =>
      rw [hmain] at hnext
      cases hnext

/-- A run that returns has divided the whole file into chunks. -/
theorem Runs.chunked {result : IndexFile T} (hlong : IsLong (filesize file.index.length))
    (hrun : a.Runs qsort file as (.returned result)) :
    ∃ rounds size, a.Chunked file.index.length rounds size := by
  obtain ⟨hargs, hpos, hmax, hle⟩ := hrun.accepted
  have hrunnable : a.Runnable := ⟨hargs.memsize_nonneg hlong, hpos, hle⟩
  have hmemsize := hargs.memsize_le hlong
  have hsize : 0 ≤ a.blockSize := by
    by_contra hneg
    rcases run_negative hargs hlong hpos (by omega) hrun with hundef | ⟨r, hsorting, _⟩
    · cases hundef
    · cases hsorting
  obtain ⟨size, hle, hbytes, hlt, -⟩ := exists_bytes hrunnable hsize
  obtain ⟨k, hk⟩ := run_counts hargs hlong hrun
  rw [← Int.toNat_of_nonneg hrunnable.memsize_nonneg] at hk
  have hrecords : file.index.length = k * a.memsize.toNat := by exact_mod_cast hk
  by_cases hzero : a.memsize.toNat = 0
  · refine ⟨1, size, hrunnable, hmax, hbytes, hlt, hle, ?_, Nat.one_pos, fun _ => rfl, hlong⟩
    rw [hrecords, hzero, Nat.mul_zero, Nat.mul_zero]
  · have hkpos : 0 < k := by
      apply Nat.pos_of_ne_zero
      rintro rfl
      omega
    exact ⟨k, size, hrunnable, hmax, hbytes, hlt, hle, hrecords, hkpos,
      fun h => absurd h hzero, hlong⟩

/-- For every file, all arguments and every interleaving: a run that returns has left the header,
and no record has been lost, doubled or changed. -/
theorem run_returned_perm (hqsort : qsort.Permutes) (hlong : IsLong (filesize file.index.length))
    {result : IndexFile T} (hrun : a.Runs qsort file as (.returned result)) :
    result.header = file.header ∧ result.index.Perm file.index := by
  obtain ⟨rounds, size, hchunked⟩ := hrun.chunked hlong
  rcases run_lawful hchunked hrun.accepted.1 hrun with ⟨hheader, hlast, _⟩ | ⟨hundef, _⟩
  · have hchunks : (a.chunks qsort size rounds file.index).Perm file.index :=
      mapBlocks_perm fun chunk =>
        (mergeTree_perm mergeRuns_perm _ _ _).trans (mapBlocks_perm hqsort)
    exact ⟨hheader, (hchunked.lastPass_perm hchunks.length_eq hlast).trans hchunks⟩
  · cases hundef

theorem run_returned_perm_twoChunks : ∃ as result,
    twoChunks.Runs Qsort.mergeSort ⟨⟨8, 0⟩, smallestLast 1 0 7⟩ as (.returned result) ∧
      result.header = ⟨8, 0⟩ ∧ result.index.Perm (smallestLast 1 0 7) := by
  have hlong : IsLong (filesize (smallestLast 1 0 7 : List (IndexS ℕ)).length) := by
    simp [IsLong, filesize, smallestLast_length]
  have hargs : twoChunks.Accepted (filesize (smallestLast 1 0 7 : List (IndexS ℕ)).length) := by
    simp [Accepted, twoChunks, filesize, toSize, blockSize, toInt, smallestLast_length]
  have hsorts : twoChunks.SortsFile Qsort.mergeSort ⟨⟨8, 0⟩, smallestLast 1 0 7⟩ :=
    sortsFile_of_sortable (T := ℕ) Qsort.mergeSort_sorts hlong hargs (by decide)
  obtain ⟨as, result, hrun, -, -⟩ := hsorts.exists_returned
  exact ⟨as, result, hrun, run_returned_perm Qsort.mergeSort_sorts.perm hlong hrun⟩

end Args

end OsispLabs.Lab6
