import OsispLabs.Lab6.SortThread

/-!
# `main`

The checks of the arguments, the loop over the chunks of the mapped file and the last merge. The
loop runs until the number of sorted records equals the number of records of the file.
-/
namespace OsispLabs.Lab6
open Lib

/-- `index_hdr_s`; the program neither reads nor writes it. -/
structure IndexHdrS where
  records : UInt64
  idx : UInt64
  deriving DecidableEq

/-- An index file: the header and the records. -/
@[ext] structure IndexFile (T : Type*) where
  header : IndexHdrS
  index : List (IndexS T)

/-- `st_size` of an index file with this number of records. -/
def filesize (records : ℕ) : ℤ := 16 + 16 * records

/-- The arguments, as `atoi` returns them. -/
structure Args where
  memsize : ℤ
  blockNum : ℤ
  threads : ℤ
  memsize_isInt : IsInt memsize
  blockNum_isInt : IsInt blockNum
  threads_isInt : IsInt threads

/-- A round of the chunk loop: `tmpStart` lies behind the records in `sorted`. -/
structure Round (threads : ℕ) (T : Type*) where
  header : IndexHdrS
  countSortIndex : ℤ
  sorted : List (IndexS T)
  chunk : State threads T

inductive Program (threads : ℕ) (T : Type*)
  | exited
  | undefined
  | sorting (round : Round threads T)
  | returned (file : IndexFile T)

/-- The end of `main`, after the last merge. -/
def Program.finish {threads : ℕ} {T : Type*} (header : IndexHdrS) :
    Option (List (IndexS T)) → Program threads T
  | some index => .returned ⟨header, index⟩
  | none => .undefined

/-- A step of a thread, or `main` joining the threads of a chunk. -/
inductive Action (threads : ℕ)
  | thread (i : Fin threads)
  | join

namespace Args

variable {T : Type*} (a : Args)

/-- `memsize / blockNum * sizeof(index_s)`, converted to `int`. -/
def blockSize : ℤ := toInt (toSize (a.memsize.tdiv a.blockNum * 16))

/-- `main` does not exit at one of its checks, and `memsize % blockNum` is defined. -/
def Accepted (filesize : ℤ) : Prop :=
  toSize (a.memsize * 16) ≤ toSize (filesize - 16) ∧ a.blockNum ≠ 0 ∧
    a.memsize.tmod a.blockNum = 0 ∧ toSize a.blockSize % 16 = 0

instance (filesize : ℤ) : Decidable (a.Accepted filesize) :=
  inferInstanceAs (Decidable (_ ∧ _))

theorem blockSize_isInt : IsInt a.blockSize := isInt_toInt _

def globals (qsort : Qsort T) : Globals T where
  qsort := qsort
  blockNum := a.blockNum.toNat
  blockSize := a.blockSize

@[simp] theorem globals_blockSize (qsort : Qsort T) :
    (a.globals qsort).blockSize = a.blockSize := by
  simp only [globals]

@[simp] theorem globals_blockNum (qsort : Qsort T) :
    (a.globals qsort).blockNum = a.blockNum.toNat := rfl

/-- The threads of a chunk are started. The barrier must have a positive count, and `threadArgs`
and `blockMap` an entry for each thread. -/
def startChunk (header : IndexHdrS) (countSortIndex : ℤ) (sorted rest : List (IndexS T)) :
    Program a.threads.toNat T :=
  if 0 < a.threads ∧ a.threads ≤ 128 ∧ a.threads ≤ a.blockNum then
    .sorting ⟨header, countSortIndex, sorted, State.start a.threads.toNat rest⟩
  else .undefined

/-- `main` for a file of this size that holds these whole records behind its header. -/
def mainOn (filesize : ℤ) (file : IndexFile T) : Program a.threads.toNat T :=
  if toSize (filesize - 16) < toSize (a.memsize * 16) then .exited
  else if a.blockNum = 0 then .undefined
  else if a.memsize.tmod a.blockNum ≠ 0 then .exited
  else if toSize a.blockSize % 16 ≠ 0 then .exited
  else a.startChunk file.header 0 [] file.index

/-- `main` for a file that is a header and records. -/
def main (file : IndexFile T) : Program a.threads.toNat T :=
  a.mainOn (filesize file.index.length) file

variable [LT T] [DecidableLT T]

/-- This interleaving of the threads of a chunk ends in this state. -/
def Reaches (qsort : Qsort T) (mem : List (IndexS T)) (as : List (Fin a.threads.toNat))
    (s : State a.threads.toNat T) : Prop :=
  exec (State.next (a.globals qsort)) (State.start a.threads.toNat mem) as = some s

/-- The end of a round, with the loop test, and what follows the loop. -/
def endChunk (filesize : ℤ) (r : Round a.threads.toNat T) : Program a.threads.toNat T :=
  let countSortIndex := r.countSortIndex + a.memsize
  let sorted := r.sorted ++ r.chunk.mem.take a.memsize.toNat
  let rest := r.chunk.mem.drop a.memsize.toNat
  if ¬ IsLong countSortIndex then .undefined
  else if toSize countSortIndex ≠ toSize (filesize - 16) / 16 then
    a.startChunk r.header countSortIndex sorted rest
  else if toSize (a.memsize * 16) ≠ toSize (filesize - 16) then
    .finish r.header (lastMerge a.memsize filesize (sorted ++ rest))
  else .returned ⟨r.header, sorted ++ rest⟩

/-- One step of the program. -/
def next (qsort : Qsort T) (filesize : ℤ) :
    Program a.threads.toNat T → Action a.threads.toNat → Option (Program a.threads.toNat T)
  | .sorting r, .thread i =>
    (r.chunk.next (a.globals qsort) i).map fun chunk => .sorting { r with chunk := chunk }
  | .sorting r, .join => if r.chunk.Finished then some (a.endChunk filesize r) else none
  | _, _ => none

variable {a} {qsort : Qsort T} {filesize : ℤ} {r : Round a.threads.toNat T}
  {q : Program a.threads.toNat T}

theorem next_thread_eq_some {i : Fin a.threads.toNat} :
    a.next qsort filesize (.sorting r) (.thread i) = some q ↔
      ∃ chunk, r.chunk.next (a.globals qsort) i = some chunk ∧
        .sorting { r with chunk := chunk } = q := by
  rw [next, Option.map_eq_some_iff]

theorem next_join_eq_some : a.next qsort filesize (.sorting r) .join = some q ↔
    r.chunk.Finished ∧ a.endChunk filesize r = q := by
  rw [next, Option.ite_none_right_eq_some, Option.some_inj]

end Args

end OsispLabs.Lab6
