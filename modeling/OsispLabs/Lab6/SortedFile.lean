import OsispLabs.Lab6.MainRun

/-!
# The arguments with which a file is sorted

The merges reach every block and every chunk when their numbers are powers of two. The chunks have
to make up the file, and all sizes in bytes have to fit into an `int`.
-/
namespace OsispLabs.Lab6
open Lib

variable {T : Type*} [LinearOrder T]

namespace Globals

variable {g : Globals T} (hsort : g.qsort.Sorts)
include hsort

theorem result_perm (size : ℕ) (chunk : List (IndexS T)) : (g.result size chunk).Perm chunk :=
  (mergeTree_perm mergeRuns_perm _ _ _).trans (mapBlocks_perm hsort.perm)

/-- A chunk of `2 ^ n` blocks is sorted. -/
theorem result_sorted (hpos : 0 < g.blockNum) (htwo : IsTwoPower g.blockNum) {size : ℕ}
    {chunk : List (IndexS T)} (hchunk : chunk.length = g.blockNum * size) :
    (g.result size chunk).Pairwise Precedes := by
  have hlength : (g.sortedAll size chunk).length = g.blockNum * size := by
    rw [sortedAll, mapBlocks_length g.qsort.length_sort, hchunk]
  have heach : EachBlock (List.Pairwise Precedes) size g.blockNum (g.sortedAll size chunk) := by
    intro i hi
    rw [sortedAll, window_mapBlocks g.qsort.length_sort (Nat.le_of_eq hchunk.symm) hi, if_pos rfl]
    exact hsort.sorted _
  have htree := mergeTree_each mergeRuns_length mergeRuns_sorted hpos (Nat.le_of_eq hlength.symm)
    (heach.mono (Nat.le_of_eq htwo))
  rwa [htwo, Nat.mul_comm, ← hchunk, ← g.result_length size, result, List.take_length] at htree

end Globals

namespace Args

variable (a : Args) (qsort : Qsort T)

/-- The arguments with which every file of this many records is sorted. -/
def Sortable (records : ℕ) : Prop :=
  (1 ≤ a.threads ∧ a.threads ≤ 128 ∧ a.threads ≤ a.blockNum) ∧
    (records = 0 ∨ 0 < a.memsize.toNat ∧ a.memsize.toNat ∣ records ∧
      IsTwoPower a.blockNum.toNat ∧ IsTwoPower (records / a.memsize.toNat) ∧
      16 * records < 2 ^ 31)

instance (records : ℕ) : Decidable (a.Sortable records) := inferInstanceAs (Decidable (_ ∧ _))

/-- No interleaving does anything undefined or goes on for ever, and each one that is over has
left the header and the records, the records in order. -/
structure SortsFile (file : IndexFile T) : Prop where
  defined : ∀ as p, a.Runs qsort file as p → ¬ p.Faulty
  progress : ∀ as p, a.Runs qsort file as p → ¬ p.Ended →
    ∃ action, (a.next qsort (filesize file.index.length) p action).isSome
  bounded : ∃ n, ∀ as p, a.Runs qsort file as p → as.length ≤ n
  sorted : ∀ as p, a.Runs qsort file as p → p.Ended → ∃ out, p = .returned out ∧
    out.header = file.header ∧ out.index.Perm file.index ∧ out.index.Pairwise Precedes

variable {a qsort} {records rounds size : ℕ}

section Checks

variable (hlong : IsLong (filesize records)) (hargs : a.Accepted (filesize records))
include hlong hargs

/-- The first check of `main` lets no negative size pass. -/
theorem Accepted.memsize_nonneg : 0 ≤ a.memsize := by
  have hsize := hargs.1
  have hint := a.memsize_isInt
  simp only [IsLong, IsInt, filesize, toSize] at hlong hint hsize
  omega

theorem Accepted.memsize_le : a.memsize.toNat ≤ records := by
  have hsize := hargs.1
  have hint := a.memsize_isInt
  simp only [IsLong, IsInt, filesize, toSize] at hlong hint hsize
  omega

omit hlong in
/-- The blocks make up the chunk. -/
theorem Accepted.size_mul (h : a.Runnable) : a.blockNum.toNat * a.size = a.memsize.toNat := by
  have hnonneg := h.memsize_nonneg
  have hpos := blockNum_pos h
  have hdvd : ((a.blockNum.toNat : ℕ) : ℤ) ∣ (a.memsize.toNat : ℕ) := by
    rw [Int.toNat_of_nonneg hnonneg, Int.toNat_of_nonneg (by omega)]
    exact Int.dvd_of_tmod_eq_zero hargs.2.2.1
  exact Nat.mul_div_cancel' (Int.natCast_dvd_natCast.mp hdvd)

end Checks

section Content

variable (hsort : qsort.Sorts)
include hsort

theorem chunks_perm (size k : ℕ) (index : List (IndexS T)) :
    (a.chunks qsort size k index).Perm index :=
  mapBlocks_perm (Globals.result_perm hsort size)

/-- A file of `2 ^ n` sorted chunks is sorted by the last pass. -/
theorem chunks_sorted (hpos : 0 < a.blockNum.toNat) (htwo : IsTwoPower a.blockNum.toNat)
    (hsize : a.blockNum.toNat * size = a.memsize.toNat) (hrounds : 0 < rounds)
    (hroundsTwo : IsTwoPower rounds) {index : List (IndexS T)}
    (hindex : index.length = rounds * a.memsize.toNat) :
    (mergeTree mergeRuns rounds a.memsize.toNat (a.chunks qsort size rounds index)).Pairwise
      Precedes := by
  have hlength : (a.chunks qsort size rounds index).length = rounds * a.memsize.toNat := by
    rw [(chunks_perm hsort size rounds index).length_eq, hindex]
  have heach : EachBlock (List.Pairwise Precedes) a.memsize.toNat rounds
      (a.chunks qsort size rounds index) := by
    intro i hi
    have hend : (i + 1) * a.memsize.toNat ≤ index.length := by
      rw [hindex]
      exact Nat.mul_le_mul_right _ hi
    rw [Nat.succ_mul] at hend
    rw [chunks, window_mapBlocks ((a.globals qsort).result_length size)
      (Nat.le_of_eq hindex.symm) hi, if_pos rfl]
    exact Globals.result_sorted hsort hpos htwo
      (by rw [window_length hend, globals_blockNum, hsize])
  have htree := mergeTree_each mergeRuns_length mergeRuns_sorted hrounds
    (Nat.le_of_eq hlength.symm) (heach.mono (Nat.le_of_eq hroundsTwo))
  rwa [hroundsTwo, Nat.mul_comm, ← hlength, ← mergeTree_length mergeRuns_length rounds,
    List.take_length] at htree

end Content

/-- Such a file consists of whole chunks of whole blocks. -/
theorem Sortable.chunked (hlong : IsLong (filesize records))
    (hargs : a.Accepted (filesize records)) (h : a.Sortable records) :
    ∃ rounds, a.Chunked records rounds a.size ∧ a.OffsetsFit ∧ 16 * records < 2 ^ 31 ∧
      (records = 0 ∨ IsTwoPower a.blockNum.toNat ∧ IsTwoPower rounds) := by
  obtain ⟨⟨hpos, hmax, hle⟩, hrecords⟩ := h
  have hrunnable : a.Runnable := ⟨hargs.memsize_nonneg hlong, hpos, hle⟩
  have hmul := hargs.size_mul hrunnable
  have hmemsize := hargs.memsize_le hlong
  rcases hrecords with hzero | ⟨hchunk, hdvd, htwo, hroundsTwo, hlt⟩
  · have hnone : a.memsize.toNat = 0 := by
      omega
    have hsize : a.size = 0 := by
      rw [size, hnone, Nat.zero_div]
    refine ⟨1, ⟨hrunnable, hmax, ?_, ?_, Nat.le_refl _, ?_, Nat.one_pos, fun _ => rfl, hlong⟩,
      ?_, ?_, .inl hzero⟩
    · exact blockSize_exact hrunnable (by simp [hsize])
    · simp [hsize]
    · omega
    · simp [OffsetsFit, hsize]
    · simp [hzero]
  · have hrounds : records / a.memsize.toNat * a.memsize.toNat = records :=
      Nat.div_mul_cancel hdvd
    have hpos' := blockNum_pos hrunnable
    have hfit : a.OffsetsFit := by
      have hmax : max (a.blockNum.toNat - 1) (2 ^ Nat.log2 a.blockNum.toNat) =
          a.blockNum.toNat := by
        rw [htwo]
        omega
      rw [OffsetsFit, hmax, Nat.mul_assoc, Nat.mul_comm a.size, hmul]
      omega
    refine ⟨records / a.memsize.toNat, ⟨hrunnable, hmax, ?_, hfit.bytes_lt, Nat.le_refl _,
      hrounds.symm, Nat.div_pos hmemsize hchunk, ?_, hlong⟩, hfit, hlt, .inr ⟨htwo, hroundsTwo⟩⟩
    · exact blockSize_exact hrunnable hfit.bytes_lt
    · omega

theorem sortsFile_of_sortable (hsort : qsort.Sorts) {file : IndexFile T}
    (hlong : IsLong (filesize file.index.length))
    (hargs : a.Accepted (filesize file.index.length)) (h : a.Sortable file.index.length) :
    a.SortsFile qsort file := by
  obtain ⟨rounds, hchunked, hfit, hlt, htwo⟩ := h.chunked hlong hargs
  obtain ⟨hblocks, hpasses⟩ := (offsetsFit_iff qsort hchunked.runnable).mp hfit
  have hlength := (chunks_perm (a := a) hsort a.size rounds file.index).length_eq
  have hpass := hchunked.lastPass_of_fit (a.chunks qsort a.size rounds file.index) hlt hlength
  have hlawful : ∀ as p, a.Runs qsort file as p → a.Lawful qsort file rounds a.size p := by
    intro as p hrun
    rcases run_lawful hchunked hargs hrun with hp | ⟨_, hnone⟩
    · exact hp
    · rw [hpass] at hnone
      cases hnone
  constructor
  · intro as p hrun hfaulty
    have hp := hlawful as p hrun
    cases p with
    | sorting r =>
      obtain ⟨k, hk, hr⟩ := hp
      obtain ⟨bs, hchunk⟩ := hr.chunk
      obtain ⟨st, hs⟩ := State.run_defined (hchunked.startable qsort hk) hblocks hpasses hchunk
      exact hs.not_faulty hfaulty
    | undefined => exact hp
    | returned out => exact hfaulty
    | exited => exact hfaulty
  · intro as p hrun hnot
    exact (hlawful as p hrun).progress hchunked hblocks hpasses hnot
  · exact ⟨_, fun as p hrun => run_length_le hchunked hargs hrun⟩
  · intro as p hrun hended
    have hp := hlawful as p hrun
    cases p with
    | returned out =>
      obtain ⟨hheader, hindex, _, _⟩ := hp
      rw [hpass, Option.some_inj] at hindex
      have hperm : out.index.Perm file.index := by
        rw [← hindex]
        exact (mergeTree_perm mergeRuns_perm _ _ _).trans (chunks_perm hsort _ _ _)
      refine ⟨out, rfl, hheader, hperm, ?_⟩
      rcases htwo with hzero | ⟨htwo, hroundsTwo⟩
      · rw [List.length_eq_zero_iff.mp hzero, List.perm_nil] at hperm
        rw [hperm]
        exact List.Pairwise.nil
      · rw [← hindex]
        exact chunks_sorted hsort (blockNum_pos hchunked.runnable) htwo
          (hargs.size_mul hchunked.runnable) hchunked.rounds_pos hroundsTwo hchunked.records_eq
    | sorting r => exact hended.elim
    | exited => exact hp.elim
    | undefined => exact hp.elim

end Args

end OsispLabs.Lab6
