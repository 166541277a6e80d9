import OsispLabs.Lab6.SmallestLast

/-!
# The arguments with which some file is not sorted

Unless the arguments are `Sortable`, the program does not return from a file whose smallest record
lies last, or leaves it unsorted.
-/
namespace OsispLabs.Lab6
open Lib

variable {T : Type*}

namespace Args

section Sorted

variable [LinearOrder T] {a : Args} {qsort : Qsort T} {file : IndexFile T}

theorem SortsFile.exists_returned (h : a.SortsFile qsort file) :
    ∃ as out, a.Runs qsort file as (.returned out) ∧ out.index.Perm file.index ∧
      out.index.Pairwise Precedes := by
  obtain ⟨n, hn⟩ := h.bounded
  obtain ⟨as, p, hrun, hended⟩ := exists_exec_final h.progress hn
  obtain ⟨out, rfl, _, hperm, hsorted⟩ := h.sorted as p hrun hended
  exact ⟨as, out, hrun, hperm, hsorted⟩

theorem SortsFile.threads_fit (hargs : a.Accepted (filesize file.index.length))
    (h : a.SortsFile qsort file) : 0 < a.threads ∧ a.threads ≤ 128 ∧ a.threads ≤ a.blockNum := by
  by_contra hnot
  have hdefined := h.defined [] (a.main file) rfl
  rw [main_eq_startChunk hargs, startChunk, if_neg hnot] at hdefined
  exact hdefined trivial

end Sorted

section Runs

variable [LT T] [DecidableLT T] {a : Args} {qsort : Qsort T} {file : IndexFile T}
  {p : Program a.threads.toNat T} {as : List (Action a.threads.toNat)}

/-- The loop counts whole chunks. -/
def Counts (a : Args) (records : ℕ) : Program a.threads.toNat T → Prop
  | .sorting r => ∃ k : ℕ, r.countSortIndex = k * a.memsize
  | .returned _ => ∃ k : ℕ, (records : ℤ) = k * a.memsize
  | _ => True

omit [LT T] [DecidableLT T] in
theorem startChunk_counts (header : IndexHdrS) (k : ℕ) (sorted rest : List (IndexS T))
    (records : ℕ) : a.Counts records (a.startChunk header (k * a.memsize) sorted rest) := by
  rw [startChunk]
  split
  · exact ⟨k, rfl⟩
  · trivial

omit [LT T] [DecidableLT T] in
theorem finish_counts (header : IndexHdrS) (index : Option (List (IndexS T))) {records k : ℕ}
    (h : (records : ℤ) = k * a.memsize) : a.Counts records (Program.finish header index) := by
  cases index with
  | some index => exact ⟨k, h⟩
  | none => trivial

theorem run_counts (hargs : a.Accepted (filesize file.index.length))
    (hlong : IsLong (filesize file.index.length)) (hrun : a.Runs qsort file as p) :
    a.Counts file.index.length p := by
  apply exec_invariant (I := a.Counts file.index.length) _ _ hrun
  · intro p action q hp hnext
    cases p with
    | sorting r =>
      obtain ⟨k, hk⟩ := hp
      cases action with
      | thread i =>
        obtain ⟨chunk, _, rfl⟩ := next_thread_eq_some.mp hnext
        exact ⟨k, hk⟩
      | join =>
        have hcount : r.countSortIndex + a.memsize = (k + 1 : ℕ) * a.memsize := by
          rw [hk, Int.natCast_succ, Int.add_mul, Int.one_mul]
        obtain ⟨-, rfl⟩ := next_join_eq_some.mp hnext
        simp only [endChunk, hcount]
        split
        · trivial
        · rename_i hlongCount
          split
          · exact startChunk_counts _ _ _ _ _
          · rename_i hall
            have hrecords : (file.index.length : ℤ) = (k + 1 : ℕ) * a.memsize := by
              rw [toSize_filesize hlong] at hall
              simp only [IsLong, filesize, toSize, not_not] at hlong hlongCount hall
              omega
            split
            · exact finish_counts _ _ hrecords
            · exact ⟨k + 1, hrecords⟩
    | returned out => cases hnext
    | exited => cases hnext
    | undefined => cases hnext
  · have hstart := startChunk_counts (a := a) file.header 0 [] file.index file.index.length
    rw [Int.natCast_zero, Int.zero_mul] at hstart
    rw [main_eq_startChunk hargs]
    exact hstart

/-- With a negative block size no thread returns. -/
theorem run_negative (hargs : a.Accepted (filesize file.index.length))
    (hlong : IsLong (filesize file.index.length)) (hpos : 0 < a.threads) (hneg : a.blockSize < 0)
    (hrun : a.Runs qsort file as p) : p = .undefined ∨ ∃ r, p = .sorting r ∧
      ∃ bs, a.Reaches qsort file.index bs r.chunk := by
  apply exec_invariant (I := fun p => p = .undefined ∨ ∃ r, p = .sorting r ∧
    ∃ bs, a.Reaches qsort file.index bs r.chunk) _ _ hrun
  · rintro p action q (rfl | ⟨r, rfl, bs, hchunk⟩) hnext
    · cases hnext
    · cases action with
      | thread i =>
        obtain ⟨chunk, hstep, rfl⟩ := next_thread_eq_some.mp hnext
        exact .inr ⟨_, rfl, bs ++ [i], by rw [Reaches, exec_concat hchunk, hstep]⟩
      | join =>
        obtain ⟨hfinished, rfl⟩ := next_join_eq_some.mp hnext
        simp only [IsLong, filesize] at hlong
        have hnonneg := Reaches.blockSize_nonneg (by omega) (by omega) hchunk hfinished
        omega
  · rw [main_eq_startChunk hargs, startChunk]
    split
    · exact .inr ⟨_, rfl, [], rfl⟩
    · exact .inl rfl

end Runs

section Condition

variable [LinearOrder T] {a : Args} {qsort : Qsort T} {high low : T} {m : ℕ}

/-- A block size that lets the program return is exact or the size of a shorter block. -/
theorem SortsFile.exists_size {file : IndexFile T}
    (hargs : a.Accepted (filesize file.index.length))
    (hlong : IsLong (filesize file.index.length)) (h : a.SortsFile qsort file) :
    ∃ size ≤ a.size, a.blockSize = (16 * size : ℕ) ∧ 16 * size < 2 ^ 31 ∧
      (size < a.size → 2 ^ 31 ≤ 16 * a.size) := by
  obtain ⟨hpos, hmax, hle⟩ := h.threads_fit hargs
  have hrunnable : a.Runnable := ⟨hargs.memsize_nonneg hlong, hpos, hle⟩
  apply exists_bytes hrunnable
  by_contra hneg
  obtain ⟨as, out, hrun, _⟩ := h.exists_returned
  rcases run_negative hargs hlong hpos (by omega) hrun with hundef | ⟨r, hsorting, _⟩
  · cases hundef
  · cases hsorting

theorem SortsFile.exists_rounds {file : IndexFile T}
    (hargs : a.Accepted (filesize file.index.length))
    (hlong : IsLong (filesize file.index.length)) (h : a.SortsFile qsort file) :
    ∃ rounds, file.index.length = rounds * a.memsize.toNat := by
  have hnonneg := hargs.memsize_nonneg hlong
  obtain ⟨as, out, hrun, _⟩ := h.exists_returned
  obtain ⟨k, hk⟩ := run_counts hargs hlong hrun
  refine ⟨k, ?_⟩
  rw [← Int.toNat_of_nonneg hnonneg] at hk
  exact_mod_cast hk

/-- The file with its smallest record at the end is only sorted with sortable arguments. -/
theorem SortsFile.sortable {file : IndexFile T} (hfile : file.index = smallestLast high low m)
    (hlt : low < high) (hsort : qsort.Sorts) (hlong : IsLong (filesize file.index.length))
    (hargs : a.Accepted (filesize file.index.length)) (h : a.SortsFile qsort file) :
    a.Sortable (m + 1) := by
  have hlength : file.index.length = m + 1 := by rw [hfile, smallestLast_length]
  have hthreads := h.threads_fit hargs
  obtain ⟨size, hsize, hbytes, hbytesLt, hlarge⟩ := h.exists_size hargs hlong
  obtain ⟨rounds, hrounds⟩ := h.exists_rounds hargs hlong
  obtain ⟨as, out, hrun, hperm, hsorted⟩ := h.exists_returned
  have hrunnable : a.Runnable := ⟨hargs.memsize_nonneg hlong, hthreads.1, hthreads.2.2⟩
  have hmul := hargs.size_mul hrunnable
  have hpos : 0 < a.memsize.toNat := by
    apply Nat.pos_of_ne_zero
    intro hzero
    rw [hzero] at hrounds
    omega
  have hroundsPos : 0 < rounds := by
    apply Nat.pos_of_ne_zero
    rintro rfl
    omega
  have hchunked : a.Chunked file.index.length rounds size := ⟨hrunnable, hthreads.2.1, hbytes,
    hbytesLt, hsize, hrounds, hroundsPos, fun hzero => absurd hzero (Nat.ne_of_gt hpos), hlong⟩
  have hout : a.lastPass file.index.length (a.chunks qsort size rounds file.index) =
      some out.index ∧ PassesFit a.blockNum.toNat (16 * size) ∧
        (a.globals qsort).BlocksFit size := by
    rcases run_lawful hchunked hargs hrun with ⟨_, hlawful⟩ | ⟨hundef, _⟩
    · exact hlawful
    · cases hundef
  rw [hfile] at hperm
  have hnot := smallestLast_not_headIs hlt hperm hsorted
  obtain ⟨hlast, hpasses, hblocks⟩ := hout
  rw [hlength] at hchunked hrounds hlong
  rw [hlength, hfile] at hlast
  have hexact : size = a.size := by
    by_contra hne
    have hshort : size < a.size := Nat.lt_of_le_of_ne hsize hne
    have hblock : a.size ≤ a.memsize.toNat := by
      rw [← hmul]
      exact Nat.le_mul_of_pos_left _ (blockNum_pos hrunnable)
    have hbig := hlarge hshort
    exact hnot (hchunked.head_of_short hsort hshort (by omega) hlast)
  rw [← hexact] at hmul
  have htwo : IsTwoPower a.blockNum.toNat := by
    by_contra hne
    exact hnot (hchunked.head_of_blocks hsort hpos hmul hblocks hne hlast)
  have hchunkLt : 16 * a.memsize.toNat < 2 ^ 31 := by
    have hdouble := hpasses.2
    rwa [htwo, Nat.mul_assoc, Nat.mul_comm size, hmul] at hdouble
  have hfront : 2 ^ Nat.log2 (toInt rounds).toNat = rounds := by
    by_contra hne
    have hless := Nat.lt_of_le_of_ne hchunked.front_le hne
    exact hnot (hchunked.head_of_rounds hsort hpos hchunkLt hless hlast)
  have hall : 16 * (m + 1) < 2 ^ 31 := by
    have hint : IsInt (16 * a.memsize.toNat : ℕ) := by
      rw [IsInt]
      omega
    have hfit : (toInt rounds).toNat * a.memsize.toNat ≤
        (a.chunks qsort size rounds (smallestLast high low m)).length := by
      rw [(chunks_perm hsort size rounds _).length_eq, smallestLast_length, hrounds]
      exact Nat.mul_le_mul_right _ (toNat_toInt_le rounds)
    rw [hchunked.lastPass_eq _ hpos, toInt_of_isInt hint] at hlast
    have hdouble := ((mergeLoop_eq_some mergeBytes_merges (by omega) hfit hchunkLt).mp hlast).1.2
    rwa [hfront, Nat.mul_assoc, Nat.mul_comm _ rounds, ← hrounds] at hdouble
  refine ⟨hthreads, .inr ⟨hpos, ⟨rounds, by rw [hrounds, Nat.mul_comm]⟩, htwo, ?_, hall⟩⟩
  rw [hrounds, Nat.mul_div_cancel _ hpos]
  exact isTwoPower_iff.mpr ⟨_, hfront.symm⟩

/-- Exactly with sortable arguments every file of this many records is sorted. -/
theorem sortsFile_iff_sortable [Nontrivial T] (hsort : qsort.Sorts) {records : ℕ}
    (hlong : IsLong (filesize records)) (hargs : a.Accepted (filesize records)) :
    (∀ file : IndexFile T, file.index.length = records → a.SortsFile qsort file) ↔
      a.Sortable records := by
  constructor
  · intro hall
    cases records with
    | zero =>
      have hthreads := (hall ⟨⟨0, 0⟩, []⟩ rfl).threads_fit hargs
      exact ⟨hthreads, .inl rfl⟩
    | succ m =>
      obtain ⟨low, high, hlt⟩ := exists_pair_lt T
      have hlength : (smallestLast high low m).length = m + 1 := smallestLast_length
      have hfile := hall ⟨⟨0, 0⟩, smallestLast high low m⟩ hlength
      exact hfile.sortable rfl hlt hsort (by rwa [hlength]) (by rwa [hlength])
  · rintro h file rfl
    exact sortsFile_of_sortable hsort hlong hargs h

end Condition

/-- Two chunks of four blocks. -/
def twoChunks : Args := ⟨4, 4, 4, by decide, by decide, by decide⟩

theorem twoChunks_sortsFile :
    twoChunks.SortsFile Qsort.mergeSort ⟨⟨8, 0⟩, smallestLast 1 0 7⟩ :=
  (sortsFile_iff_sortable Qsort.mergeSort_sorts (by simp [IsLong, filesize])
    (by simp [Accepted, twoChunks, filesize, toSize, blockSize, toInt])).mpr (by decide) _
    smallestLast_length

/-- One chunk of three blocks. -/
def threeBlocksFile : IndexFile ℕ := ⟨⟨3, 0⟩, [⟨2, 0⟩, ⟨3, 1⟩, ⟨1, 2⟩]⟩

def oddBlocks : Args := ⟨3, 3, 3, by decide, by decide, by decide⟩

theorem oddBlocks_chunks : oddBlocks.chunks Qsort.mergeSort 1 1 threeBlocksFile.index =
    threeBlocksFile.index := by
  simp [chunks, oddBlocks, threeBlocksFile, mapBlocks, Globals.result, Globals.sortedAll, globals,
    Qsort.mergeSort, mergeTree, mergePass, mergeHalves, mergeRuns]

/-- The third block is not merged, and the file comes back as it was. -/
theorem odd_blocks_not_sorted : oddBlocks.Accepted (filesize threeBlocksFile.index.length) ∧
    ¬ threeBlocksFile.index.Pairwise Precedes ∧
      ∃ as, oddBlocks.Runs Qsort.mergeSort threeBlocksFile as (.returned threeBlocksFile) := by
  have hargs : oddBlocks.Accepted (filesize threeBlocksFile.index.length) := by
    simp [Accepted, oddBlocks, threeBlocksFile, filesize, toSize, blockSize, toInt]
  have hchunked : oddBlocks.Chunked threeBlocksFile.index.length 1 1 := by
    constructor <;>
      simp [oddBlocks, threeBlocksFile, filesize, IsLong, blockSize, size, toSize, toInt]
    constructor <;> decide
  have hblocks : (oddBlocks.globals (T := ℕ) Qsort.mergeSort).BlocksFit 1 := by
    intro block hblock
    simp only [globals_blockNum, oddBlocks, BlockFits] at hblock ⊢
    omega
  have hpasses : PassesFit oddBlocks.blockNum.toNat (16 * 1) := by
    constructor <;> decide
  have hlast : oddBlocks.lastPass threeBlocksFile.index.length
      (oddBlocks.chunks Qsort.mergeSort 1 1 threeBlocksFile.index) =
        some threeBlocksFile.index := by
    rw [oddBlocks_chunks]
    rfl
  refine ⟨hargs, by simp [threeBlocksFile, precedes_iff], ?_⟩
  obtain ⟨as, p, hrun, hended⟩ := hchunked.exists_ended hargs hblocks hpasses
  refine ⟨as, ?_⟩
  rcases run_lawful hchunked hargs hrun with hp | ⟨_, hnone⟩
  · cases p with
    | returned out =>
      obtain ⟨hheader, hindex, _, _⟩ := hp
      rw [hlast, Option.some_inj] at hindex
      have hout : out = threeBlocksFile := IndexFile.ext hheader hindex.symm
      rwa [hout] at hrun
    | sorting r => exact hended.elim
    | exited => exact hp.elim
    | undefined => exact hp.elim
  · rw [hlast] at hnone
    cases hnone

end Args

end OsispLabs.Lab6
