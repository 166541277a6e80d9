import Mathlib.Order.Lattice
import OsispLabs.Lib.Execution
import OsispLabs.Lib.MachineInt
import OsispLabs.Lib.MergeTree
import OsispLabs.Lib.TwoWayMerge

/-!
# Records and the merges of index files

The record area of a mapped index file is a list of `index_s`. A range operation (`qsort`,
`merge`) is given by the position it writes to and the records it writes there; it has no value
when an `int` product overflows or the range leaves the area.
-/
namespace OsispLabs.Lab6
open Lib

/-- `index_s` -/
structure IndexS (T : Type*) where
  timeMark : T
  recno : UInt64
  deriving DecidableEq

/-- A position of the record area and the records that are written from there on. -/
abbrev Write (T : Type*) := ℕ × List (IndexS T)

/-- `qsort` rewrites the range it is given, as a fixed function of the range. -/
structure Qsort (T : Type*) where
  sort : List (IndexS T) → List (IndexS T)
  length_sort : ∀ xs, (sort xs).length = xs.length

variable {T : Type*}

/-- `qsort(start, count, sizeof(index_s), compare_index_s)` -/
def Qsort.range (qsort : Qsort T) (mem : List (IndexS T)) (start : ℤ) (count : ℕ) :
    Option (Write T) :=
  if 0 ≤ start ∧ start.toNat + count ≤ mem.length then
    some (start.toNat, qsort.sort (window mem start.toNat count))
  else none

section Definitions

variable [LT T] [DecidableLT T]

def compareIndexS (a b : IndexS T) : ℤ :=
  if a.timeMark < b.timeMark then -1 else if b.timeMark < a.timeMark then 1 else 0

/-- The three loops of `merge`: what they put into `temp`. -/
def mergeRuns : List (IndexS T) → List (IndexS T) → List (IndexS T)
  | [], run2 => run2
  | run1, [] => run1
  | x :: run1, y :: run2 =>
    if x.timeMark < y.timeMark then x :: mergeRuns run1 (y :: run2)
    else y :: mergeRuns (x :: run1) run2

/-- `merge(start1, start2, count)`, in records; `2 * count` records are copied to `start1`. -/
def merge (mem : List (IndexS T)) (start1 start2 count : ℤ) : Option (Write T) :=
  (intMul count 2).bind fun twice =>
    if 0 ≤ start1 ∧ 0 ≤ start2 ∧ 0 ≤ count ∧ start1 + twice ≤ mem.length ∧
        start2 + count ≤ mem.length then
      some (start1.toNat, mergeRuns (window mem start1.toNat count.toNat)
        (window mem start2.toNat count.toNat))
    else none

/-- The merge in the loops of `sort_thread` and `lastMerge`, through byte offsets. -/
def mergeBytes (mem : List (IndexS T)) (tmpBlockSize : ℤ) (tmpId : ℕ) : Option (Write T) :=
  (intMul (2 * tmpId : ℕ) tmpBlockSize).bind fun offset1 =>
    (intMul (2 * tmpId + 1 : ℕ) tmpBlockSize).bind fun offset2 =>
      merge mem (offset1 / 16) (offset2 / 16) (toInt (toSize tmpBlockSize / 16))

/-- The merge in the loop of `merge_all`, through record offsets. -/
def mergeRecords (mem : List (IndexS T)) (mergeSize : ℤ) (i : ℕ) : Option (Write T) :=
  (intMul (2 * i : ℕ) mergeSize).bind fun offset1 =>
    (intMul (2 * i + 1 : ℕ) mergeSize).bind fun offset2 => merge mem offset1 offset2 mergeSize

end Definitions

/-- Merge one pair and copy the result back. -/
def mergePair (pair : List (IndexS T) → ℤ → ℕ → Option (Write T)) (size : ℤ)
    (mem : List (IndexS T)) (i : ℕ) : Option (List (IndexS T)) :=
  (pair mem size i).map fun write => overwrite mem write.1 write.2

/-- The loop of `merge_all` and `lastMerge`: merge the pairs, double the size, halve the count. -/
def mergeLoop (pair : List (IndexS T) → ℤ → ℕ → Option (Write T)) (blocks : ℕ) (size : ℤ)
    (mem : List (IndexS T)) : Option (List (IndexS T)) :=
  if blocks ≤ 1 then some mem
  else (exec (mergePair pair size) mem (List.range (blocks / 2))).bind fun mem' =>
    (intMul size 2).bind fun size' => mergeLoop pair (blocks / 2) size' mem'

section Functions

variable [LT T] [DecidableLT T]

/-- `merge_all(tmpStart, blocks, blockSize)` -/
def mergeAll (blocks : ℕ) (blockSize : ℤ) (mem : List (IndexS T)) : Option (List (IndexS T)) :=
  mergeLoop mergeRecords blocks blockSize mem

/-- `lastMerge(start, filesize)`, with its conversions of the number of chunks and of the chunk
size to `int`. -/
def lastMerge (memsize filesize : ℤ) (mem : List (IndexS T)) : Option (List (IndexS T)) :=
  if toSize (memsize * 16) = 0 then none
  else mergeLoop mergeBytes (toInt (toSize (filesize - 16) / toSize (memsize * 16))).toNat
    (toInt (memsize * 16)) mem

theorem mergeRuns_nil_right (run1 : List (IndexS T)) : mergeRuns run1 [] = run1 := by
  cases run1 <;> simp [mergeRuns]

/-- The three loops merge as the library does. -/
theorem mergeRuns_eq_map (run1 run2 : List (IndexS T)) :
    mergeRuns run1 run2 =
      (mergeTagged (fun x y => x.timeMark < y.timeMark) run1 run2).map Prod.snd := by
  induction run1, run2 using mergeRuns.induct with
  | case1 run2 => simp [mergeRuns, mergeTagged, Function.comp_def]
  | case2 run1 h => simp [mergeRuns, mergeTagged, Function.comp_def]
  | case3 x run1 y run2 hlt ih => simp [mergeRuns, mergeTagged, hlt, ih]
  | case4 x run1 y run2 hnot ih => simp [mergeRuns, mergeTagged, hnot, ih]

theorem mergeRuns_perm (run1 run2 : List (IndexS T)) :
    (mergeRuns run1 run2).Perm (run1 ++ run2) := by
  rw [mergeRuns_eq_map]
  exact (mergeTagged_interleaves run1 run2).perm

theorem mergeRuns_length (run1 run2 : List (IndexS T)) :
    (mergeRuns run1 run2).length = run1.length + run2.length := by
  rw [(mergeRuns_perm run1 run2).length_eq, List.length_append]

/-- The merged run starts with the first record of one of the two runs. -/
theorem mergeRuns_head? (P : IndexS T → Prop) (run1 run2 : List (IndexS T))
    (h1 : ∀ x ∈ run1.head?, P x) (h2 : ∀ x ∈ run2.head?, P x) :
    ∀ x ∈ (mergeRuns run1 run2).head?, P x := by
  cases run1 with
  | nil => simpa [mergeRuns] using h2
  | cons x run1 =>
    cases run2 with
    | nil => simpa [mergeRuns] using h1
    | cons y run2 =>
      by_cases h : x.timeMark < y.timeMark
      · simpa [mergeRuns, h] using h1
      · simpa [mergeRuns, h] using h2

end Functions

section Order

variable [LinearOrder T]

/-- The order of `compare_index_s`. -/
def Precedes (a b : IndexS T) : Prop := compareIndexS a b ≤ 0

theorem precedes_iff (a b : IndexS T) : Precedes a b ↔ a.timeMark ≤ b.timeMark := by
  by_cases h : a.timeMark < b.timeMark
  · simp [Precedes, compareIndexS, h, le_of_lt h]
  · by_cases h' : b.timeMark < a.timeMark
    · simp [Precedes, compareIndexS, h, h']
    · simp [Precedes, compareIndexS, h, h', le_of_not_gt h']

theorem mergeOrder_precedes (run1 run2 : List (IndexS T)) :
    MergeOrder (fun x y => x.timeMark < y.timeMark) Precedes run1 run2 where
  trans hab hbc := by
    rw [precedes_iff] at hab hbc ⊢
    exact le_trans hab hbc
  le_of_lt _ _ hlt := (precedes_iff _ _).mpr (le_of_lt hlt)
  not_le_of_lt _ _ hlt := by
    rw [precedes_iff]
    exact not_le_of_gt hlt
  le_of_not_lt _ _ hnot := (precedes_iff _ _).mpr (le_of_not_gt hnot)

theorem mergeRuns_sorted (run1 run2 : List (IndexS T)) (h1 : run1.Pairwise Precedes)
    (h2 : run2.Pairwise Precedes) : (mergeRuns run1 run2).Pairwise Precedes := by
  have hpairwise := pairwise_mergeTagged (mergeOrder_precedes run1 run2) h1 h2
  rw [mergeRuns_eq_map, List.pairwise_map]
  exact hpairwise.imp And.left

/-- `qsort` returns a permutation of its range, sorted by `compare_index_s`. -/
structure Qsort.Sorts (qsort : Qsort T) : Prop where
  perm : ∀ xs, (qsort.sort xs).Perm xs
  sorted : ∀ xs, (qsort.sort xs).Pairwise Precedes

/-- A `qsort` that sorts. -/
def Qsort.mergeSort : Qsort T where
  sort xs := xs.mergeSort fun x y => decide (x.timeMark ≤ y.timeMark)
  length_sort xs := List.length_mergeSort xs

theorem Qsort.mergeSort_sorts : (Qsort.mergeSort (T := T)).Sorts where
  perm xs := List.mergeSort_perm xs _
  sorted xs := by
    have hsorted : (xs.mergeSort fun x y => decide (x.timeMark ≤ y.timeMark)).Pairwise
        fun x y => decide (x.timeMark ≤ y.timeMark) = true := by
      apply List.pairwise_mergeSort
      · intro x y z hxy hyz
        simp at hxy hyz ⊢
        exact le_trans hxy hyz
      · intro x y
        simp [le_total]
    apply hsorted.imp
    intro x y hxy
    simpa [precedes_iff] using hxy

/-- Equal records before a smaller one. -/
def smallestLast (high low : T) (n : ℕ) : List (IndexS T) :=
  List.replicate n ⟨high, 0⟩ ++ [⟨low, 0⟩]

variable {high low : T} {n : ℕ}

omit [LinearOrder T] in
theorem smallestLast_length : (smallestLast high low n).length = n + 1 := by
  simp [smallestLast]

theorem smallestLast_unsorted (hlt : low < high) (hpos : 0 < n) :
    ¬ (smallestLast high low n).Pairwise Precedes := by
  intro h
  have hlast := (List.pairwise_append.mp h).2.2 ⟨high, 0⟩
    (List.mem_replicate.mpr ⟨Nat.ne_of_gt hpos, rfl⟩) ⟨low, 0⟩ (List.mem_singleton_self _)
  rw [precedes_iff] at hlast
  exact absurd hlast (not_le_of_gt hlt)

end Order

end OsispLabs.Lab6
