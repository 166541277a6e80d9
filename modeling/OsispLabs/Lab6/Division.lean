import OsispLabs.Lab6.Exclusive
import OsispLabs.Lab6.ScheduleIndependence

/-!
# The division of a chunk

As long as the byte offsets fit into an `int`, the threads divide the blocks and the pairs of a
chunk in every interleaving. Otherwise a thread does something undefined, or the ranges that are
sorted are shorter than the blocks.
-/
namespace OsispLabs.Lab6
open Lib

namespace Args

variable {T : Type*} [LT T] [DecidableLT T] (a : Args) (qsort : Qsort T)

/-- This interleaving of the threads of a chunk ends in this state, with this record. -/
def Records (mem : List (IndexS T)) (as : List (Fin a.threads.toNat))
    (r : Recorded a.threads.toNat T) : Prop :=
  exec (Recorded.next (a.globals qsort)) (Recorded.start a.threads.toNat mem) as = some r

/-- No interleaving does anything undefined or goes on for ever, all divide the work, and those
that are over have done it. -/
structure DividesWork (mem : List (IndexS T)) : Prop where
  defined : ∀ as r, a.Records qsort mem as r → ¬ r.state.Faulty
  progress : ∀ as r, a.Records qsort mem as r → ¬ r.state.Finished →
    ∃ i, (r.next (a.globals qsort) i).isSome
  bounded : ∃ n, ∀ as r, a.Records qsort mem as r → as.length ≤ n
  divided : ∀ as r, a.Records qsort mem as r → r.Divided a.blockNum.toNat a.size
  complete : ∀ as r, a.Records qsort mem as r → r.state.Finished →
    r.Complete a.blockNum.toNat

variable {a qsort} {mem : List (IndexS T)} {as : List (Fin a.threads.toNat)}
  {r : Recorded a.threads.toNat T}

theorem Records.reaches (h : a.Records qsort mem as r) : a.Reaches qsort mem as r.state :=
  Recorded.exec_state h

theorem dividesWork_of_fit (h : a.Runnable) (hfit : a.OffsetsFit)
    (hroom : a.memsize.toNat ≤ mem.length) : a.DividesWork qsort mem := by
  have hlt := hfit.bytes_lt
  have hstart := startable qsort h (blockSize_exact h hlt) hlt (Nat.le_refl _) hroom
  have hindependent : a.ScheduleIndependent qsort mem := scheduleIndependent_of_fit h hfit hroom
  constructor
  · intro as r hrun
    exact hindependent.defined as r.state hrun.reaches
  · intro as r hrun hnot
    obtain ⟨i, hi⟩ := hindependent.progress as r.state hrun.reaches hnot
    exact ⟨i, by rwa [Recorded.next, Option.isSome_map]⟩
  · obtain ⟨n, hn⟩ := hindependent.bounded
    exact ⟨n, fun as r hrun => hn as r.state hrun.reaches⟩
  · intro as r hrun
    have hdef := hindependent.defined as r.state hrun.reaches
    obtain ⟨⟨st, hl⟩, hc, hw⟩ := (Recorded.run_consistent hstart hrun).resolve_left hdef
    exact hc.divided hl hw hstart.room hstart.threads_pos
  · intro as r hrun hfinished
    have hdef := hindependent.defined as r.state hrun.reaches
    have hc := ((Recorded.run_consistent hstart hrun).resolve_left hdef).2.1
    exact hc.complete hstart.threads_pos hfinished

omit [LT T] [DecidableLT T] in
/-- When all blocks have been sorted as blocks of `size` records, no other size fits the record. -/
theorem size_eq_of_complete {size : ℕ} (h : a.Runnable)
    (hcomplete : r.Complete a.blockNum.toNat) (hsize : r.Whole a.blockNum.toNat size)
    (hwhole : r.Whole a.blockNum.toNat a.size) : size = a.size := by
  have hone := hcomplete.sorted 0 (blockNum_pos h)
  have hmem : 0 ∈ r.sorts.map Operation.index := by
    rw [← List.count_pos_iff]
    exact Nat.lt_of_lt_of_eq Nat.one_pos hone.symm
  obtain ⟨o, ho, -⟩ := List.mem_map.mp hmem
  rw [← (hsize.sorts o ho).2.2, (hwhole.sorts o ho).2.2]

theorem offsetsFit_of_dividesWork (h : a.Runnable) (hlen : mem.length = a.memsize.toNat)
    (hwork : a.DividesWork qsort mem) : a.OffsetsFit := by
  obtain ⟨n, hn⟩ := hwork.bounded
  obtain ⟨as, r, hrun, hfinished⟩ := exists_exec_final hwork.progress hn
  rcases offsetsFit_or_shorter h hlen (Records.reaches hrun) hfinished with
    hfit | ⟨size, hsize, hstart⟩
  · exact hfit
  · have hw := ((Recorded.run_consistent hstart hrun).resolve_left hfinished.not_faulty).2.2
    have hsame := size_eq_of_complete h (hwork.complete as r hrun hfinished) hw
      (hwork.divided as r hrun).whole
    exact absurd hsame (Nat.ne_of_lt hsize)

/-- For a block count, a thread count and a chunk size of `main`: the threads divide the work
exactly if all offsets fit. -/
theorem dividesWork_iff [Inhabited T] (hmem : 0 ≤ a.memsize) (hpos : 1 ≤ a.threads)
    (hle : a.threads ≤ a.blockNum) : (∀ (qsort : Qsort T) mem, a.memsize.toNat ≤ mem.length →
      a.DividesWork qsort mem) ↔ a.OffsetsFit := by
  have h : a.Runnable := ⟨hmem, hpos, hle⟩
  constructor
  · intro hall
    have hlen := unmarked_length (T := T) a
    exact offsetsFit_of_dividesWork h hlen (hall marking (unmarked a) (Nat.le_of_eq hlen.symm))
  · intro hfit qsort mem hroom
    exact dividesWork_of_fit h hfit hroom

theorem dividesWork_fiveBlocks : fiveBlocks.DividesWork Qsort.mergeSort (smallestLast 1 0 9) :=
  (dividesWork_iff (a := fiveBlocks) (by decide) (by decide) (by decide)).mpr (by decide)
    Qsort.mergeSort (smallestLast 1 0 9) (by decide)

/-- All threads have returned, and no thread has sorted a record. -/
theorem long_block_not_divided : ∃ as r, longBlock.Records Qsort.mergeSort longChunk as r ∧
    r.state.Finished ∧ (∀ o ∈ r.sorts, o.length = 0) ∧
      ¬ r.Divided longBlock.blockNum.toNat longBlock.size := by
  obtain ⟨as, s, hrun, hfinished⟩ := longBlock_finished
  obtain ⟨r, hrecords, rfl⟩ := Recorded.exists_exec
    (r := Recorded.start longBlock.threads.toNat longChunk) hrun
  obtain ⟨-, hc, hw⟩ :=
    (Recorded.run_consistent longBlock_startable hrecords).resolve_left hfinished.not_faulty
  refine ⟨as, r, hrecords, hfinished, fun o ho => (hw.sorts o ho).2.2, fun hdivided => ?_⟩
  have hrunnable : longBlock.Runnable := ⟨by decide, by decide, by decide⟩
  have hcomplete := hc.complete longBlock_startable.threads_pos hfinished
  have hsame := size_eq_of_complete hrunnable hcomplete hw hdivided.whole
  rw [size, longBlock_blockNum, longBlock] at hsame
  simp at hsame

end Args

end OsispLabs.Lab6
