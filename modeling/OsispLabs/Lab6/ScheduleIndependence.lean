import OsispLabs.Lab6.BlockSize

/-!
# The interleaving does not matter

As long as the byte offsets fit into an `int`, the threads leave what a sequential program computes:
sort every block, then `merge_all`. Where they do not fit, some chunk is left unsorted or some
thread does something undefined.
-/
namespace OsispLabs.Lab6
open Lib

namespace Args

variable {T : Type*} [LT T] [DecidableLT T] (a : Args) (qsort : Qsort T)

/-- The sequential reference. -/
def sequential (mem : List (IndexS T)) : Option (List (IndexS T)) :=
  mergeAll a.blockNum.toNat a.size
    (mapBlocks qsort.sort a.size a.blockNum.toNat (fun _ => true) mem)

/-- No interleaving does anything undefined or goes on for ever, and each one that is over has
left what the reference computes. -/
structure ScheduleIndependent (mem : List (IndexS T)) : Prop where
  defined : ∀ as s, a.Reaches qsort mem as s → ¬ s.Faulty
  progress : ∀ as s, a.Reaches qsort mem as s → ¬ s.Finished →
    ∃ i, (s.next (a.globals qsort) i).isSome
  bounded : ∃ n, ∀ as s, a.Reaches qsort mem as s → as.length ≤ n
  content : ∀ as s, a.Reaches qsort mem as s → s.Finished → a.sequential qsort mem = some s.mem

variable {a qsort} {mem : List (IndexS T)}

/-- The reference computes the same tree of merges, through record offsets. -/
theorem sequential_eq (h : a.Runnable) (hfit : a.OffsetsFit)
    (hroom : a.memsize.toNat ≤ mem.length) :
    a.sequential qsort mem = some ((a.globals qsort).result a.size mem) := by
  have hpasses : PassesFit a.blockNum.toNat (1 * a.size) :=
    PassesFit.mono (by omega) ((offsetsFit_iff qsort h).mp hfit).2
  have hlen : a.blockNum.toNat * a.size ≤
      (mapBlocks qsort.sort a.size a.blockNum.toNat (fun _ => true) mem).length := by
    rw [mapBlocks_length qsort.length_sort]
    exact Nat.le_trans a.size_le hroom
  have hloop := mergeLoop_of_fit mergeRecords_merges Nat.one_pos hlen hpasses
  rw [Nat.one_mul] at hloop
  rw [sequential, mergeAll, hloop]
  rfl

theorem scheduleIndependent_of_fit (h : a.Runnable) (hfit : a.OffsetsFit)
    (hroom : a.memsize.toNat ≤ mem.length) : a.ScheduleIndependent qsort mem := by
  have hlt := hfit.bytes_lt
  have hstart := startable qsort h (blockSize_exact h hlt) hlt (Nat.le_refl _) hroom
  obtain ⟨hblocks, hpasses⟩ := (offsetsFit_iff qsort h).mp hfit
  constructor
  · intro as s hrun
    obtain ⟨st, hs⟩ := State.run_defined hstart hblocks hpasses hrun
    exact hs.not_faulty
  · intro as s hrun hnot
    obtain ⟨st, hs⟩ := State.run_defined hstart hblocks hpasses hrun
    exact hs.progress hnot
  · exact ⟨_, fun as s hrun => State.run_length_le hstart.threads_le hrun⟩
  · intro as s hrun hfinished
    obtain ⟨st, hs⟩ := State.run_defined hstart hblocks hpasses hrun
    rw [sequential_eq h hfit hroom, (hs.finished hstart.threads_pos hfinished).1]

/-- Some interleaving runs to its end. -/
theorem ScheduleIndependent.exists_finished (h : a.ScheduleIndependent qsort mem) :
    ∃ as s, a.Reaches qsort mem as s ∧ s.Finished := by
  obtain ⟨n, hn⟩ := h.bounded
  exact exists_exec_final h.progress hn

section Wrapped

variable [Inhabited T]

/-- A `qsort` that leaves a trace wherever it has been. -/
def marking : Qsort T where
  sort xs := List.replicate xs.length ⟨default, 1⟩
  length_sort _ := List.length_replicate

/-- A chunk without the trace in any of its blocks. -/
def unmarked (a : Args) : List (IndexS T) :=
  List.replicate (a.blockNum.toNat * a.size) ⟨default, 0⟩ ++
    List.replicate (a.memsize.toNat - a.blockNum.toNat * a.size) ⟨default, 1⟩

omit [LT T] [DecidableLT T] in
theorem unmarked_length (a : Args) : (unmarked a (T := T)).length = a.memsize.toNat := by
  have hle := a.size_le
  simp only [unmarked, List.length_append, List.length_replicate]
  omega

theorem sequential_marked {mem' : List (IndexS T)}
    (h : a.sequential marking (unmarked a) = some mem') : ∀ x ∈ mem', x = ⟨default, 1⟩ := by
  apply mergeLoop_forall (P := fun x => x = ⟨default, 1⟩)
    (fun _ _ _ _ hpair hmem => mergeRecords_forall hpair hmem) h
  apply mapBlocks_forall
  · intro ys x hx
    exact List.eq_of_mem_replicate hx
  · intro x hx
    rw [unmarked, List.drop_left' (List.length_replicate)] at hx
    exact List.eq_of_mem_replicate hx

theorem result_unmarked {size : ℕ} (hpos : 0 < a.blockNum.toNat) (hsize : size < a.size) :
    ⟨default, 0⟩ ∈ (a.globals (marking (T := T))).result size (unmarked a) := by
  have hlt : a.blockNum.toNat * size < a.blockNum.toNat * a.size :=
    Nat.mul_lt_mul_of_pos_left hsize hpos
  have hle := a.size_le
  have hperm := mergeTree_perm (mergeRuns_perm (T := T)) a.blockNum.toNat size
    ((a.globals marking).sortedAll size (unmarked a))
  have hblocks : a.blockNum.toNat * size ≤
      ((unmarked a (T := T)).take (a.blockNum.toNat * size)).length := by
    rw [List.length_take, unmarked_length]
    omega
  have hsplit := mapBlocks_append (f := (marking (T := T)).sort) (p := fun _ => true) hblocks
    ((unmarked a).drop (a.blockNum.toNat * size))
  rw [List.take_append_drop] at hsplit
  apply hperm.mem_iff.mpr
  rw [Globals.sortedAll]
  simp only [globals, hsplit, List.mem_append]
  right
  rw [unmarked, List.drop_append_of_le_length (by simp; omega), List.mem_append]
  left
  simp
  omega

end Wrapped

theorem offsetsFit_of_scheduleIndependent [Inhabited T] (h : a.Runnable)
    (hall : ∀ (qsort : Qsort T) mem, a.memsize.toNat ≤ mem.length →
      a.ScheduleIndependent qsort mem) : a.OffsetsFit := by
  have hmark := hall marking (unmarked a) (by rw [unmarked_length])
  obtain ⟨as, s, hrun, hfinished⟩ := hmark.exists_finished
  rcases offsetsFit_or_shorter h (unmarked_length a) hrun hfinished with
    hfit | ⟨size, hsize, hstart⟩
  · exact hfit
  · have hresult := (State.run_finished hstart hrun hfinished).1
    have hlast := result_unmarked (T := T) (blockNum_pos h) hsize
    rw [← hresult] at hlast
    have hsame := sequential_marked (hmark.content as s hrun hfinished) _ hlast
    cases hsame

/-- For a block count, a thread count and a chunk size of `main`: the result depends on nothing
else exactly if all offsets fit. -/
theorem scheduleIndependent_iff [Inhabited T] (hmem : 0 ≤ a.memsize) (hpos : 1 ≤ a.threads)
    (hle : a.threads ≤ a.blockNum) : (∀ (qsort : Qsort T) mem, a.memsize.toNat ≤ mem.length →
      a.ScheduleIndependent qsort mem) ↔ a.OffsetsFit := by
  have h : a.Runnable := ⟨hmem, hpos, hle⟩
  constructor
  · exact offsetsFit_of_scheduleIndependent h
  · intro hfit qsort mem hroom
    exact scheduleIndependent_of_fit h hfit hroom

def fiveBlocks : Args := ⟨10, 5, 2, by decide, by decide, by decide⟩

theorem scheduleIndependent_fiveBlocks :
    fiveBlocks.ScheduleIndependent Qsort.mergeSort (smallestLast 1 0 9) :=
  (scheduleIndependent_iff (a := fiveBlocks) (by decide) (by decide) (by decide)).mpr
    (by decide) Qsort.mergeSort (smallestLast 1 0 9) (by decide)

/-- One block of `2 ^ 28` records, whose size in bytes becomes `0` as an `int`. -/
def longBlock : Args := ⟨2 ^ 28, 1, 1, by simp [IsInt], by decide, by decide⟩

def longChunk : List (IndexS ℕ) := smallestLast 1 0 (2 ^ 28 - 1)

theorem longChunk_length : longChunk.length = 2 ^ 28 := by
  rw [longChunk, smallestLast_length, Nat.sub_add_cancel Nat.one_le_two_pow]

theorem longBlock_blockNum : longBlock.blockNum.toNat = 1 := by simp [longBlock]

theorem longBlock_sequential : longBlock.sequential Qsort.mergeSort longChunk =
    some (Qsort.mergeSort.sort longChunk) := by
  have hsize : longBlock.size = longChunk.length := by
    rw [longChunk_length]
    simp [longBlock, size]
  rw [sequential, mergeAll, mergeLoop, longBlock_blockNum, if_pos (Nat.le_refl 1), hsize]
  simp [mapBlocks]

theorem longBlock_startable :
    Startable (longBlock.globals Qsort.mergeSort) longBlock.threads.toNat 0 longChunk := by
  have hbytes : longBlock.blockSize = (16 * 0 : ℕ) := by
    simp [longBlock, blockSize, toSize, toInt]
  have hroom : longBlock.memsize.toNat ≤ longChunk.length := by
    rw [longChunk_length]
    simp [longBlock]
  have hrunnable : longBlock.Runnable := ⟨by decide, by decide, by decide⟩
  exact startable Qsort.mergeSort hrunnable hbytes (by simp) (Nat.zero_le _) hroom

theorem longBlock_finished : ∃ as s, longBlock.Reaches Qsort.mergeSort longChunk as s ∧
    s.Finished := by
  have hblocks : (longBlock.globals (T := ℕ) Qsort.mergeSort).BlocksFit 0 := fun block _ => by
    simp [BlockFits]
  have hpasses : PassesFit (longBlock.globals (T := ℕ) Qsort.mergeSort).blockNum (16 * 0) := by
    simp [PassesFit]
  exact State.exists_finished longBlock_startable hblocks hpasses

/-- The threads return without having sorted anything. -/
theorem long_block_not_sorted : ∃ as s, longBlock.Reaches Qsort.mergeSort longChunk as s ∧
    s.Finished ∧ longBlock.sequential Qsort.mergeSort longChunk ≠ some s.mem := by
  have hblocks : (longBlock.globals (T := ℕ) Qsort.mergeSort).BlocksFit 0 := fun block _ => by
    simp [BlockFits]
  have hpasses : PassesFit (longBlock.globals (T := ℕ) Qsort.mergeSort).blockNum (16 * 0) := by
    simp [PassesFit]
  obtain ⟨as, s, hrun, hfinished⟩ := longBlock_finished
  obtain ⟨st, hs⟩ := State.run_defined longBlock_startable hblocks hpasses hrun
  have hmem : s.mem = longChunk := by
    rw [(hs.finished longBlock_startable.threads_pos hfinished).1, Globals.result,
      Globals.sortedAll, globals_blockNum, longBlock_blockNum,
      mergeTree_of_le_one (Nat.le_refl 1)]
    simp [mapBlocks, globals, Qsort.mergeSort]
  refine ⟨as, s, hrun, hfinished, fun hsame => ?_⟩
  rw [longBlock_sequential, hmem, Option.some_inj] at hsame
  have hsorted := Qsort.mergeSort_sorts.sorted longChunk
  rw [hsame] at hsorted
  exact smallestLast_unsorted Nat.zero_lt_one (by simp) hsorted

end Args

end OsispLabs.Lab6
