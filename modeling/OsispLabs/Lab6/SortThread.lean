import Mathlib.Data.Fintype.Basic
import OsispLabs.Lab6.Merge

/-!
# The threads of one chunk

`main` marks the blocks `0 .. threads - 1`, starts `sort_thread` for the threads `1 .. threads - 1`
and runs it as thread `0` itself; no thread gets past the first barrier before `main` has come to
it. The memory is the record area from `tmpStart` on. A `qsort` or a `merge` reads its range in
one step and writes it in a later one.
-/
namespace OsispLabs.Lab6
open Lib

/-- The globals that the threads read. -/
structure Globals (T : Type*) where
  qsort : Qsort T
  blockNum : ℕ
  blockSize : ℤ

/-- The next statement of a thread, with the locals it still needs. -/
inductive Pc (T : Type*)
  | ready
  | own
  | sorting (block : ℕ) (write : Write T)
  | lock
  | find
  | mark (block : ℕ)
  | unlock (nextBlock : Option ℕ)
  | claimed (block : ℕ)
  | exhausted
  | pass (mergeBlocks : ℕ) (tmpBlockSize : ℤ)
  | pair (mergeBlocks : ℕ) (tmpBlockSize : ℤ) (tmpId : ℕ)
  | merging (mergeBlocks : ℕ) (tmpBlockSize : ℤ) (tmpId : ℕ) (write : Write T)
  | passed (mergeBlocks : ℕ) (tmpBlockSize : ℤ)
  | done
  | undefined

/-- `threads` threads; `arrived` of them are in the barrier. -/
structure State (threads : ℕ) (T : Type*) where
  mem : List (IndexS T)
  blockMap : ℕ → Bool
  mapMutex : Bool
  arrived : ℕ
  waiting : Fin threads → Bool
  pc : Fin threads → Pc T

variable {threads : ℕ} {T : Type*} (g : Globals T)

/-- `find_next_free_block` -/
def Globals.findNextFreeBlock (blockMap : ℕ → Bool) : Option ℕ :=
  (List.range g.blockNum).find? fun i => !blockMap i

/-- The `qsort` of a block, through its byte offset. -/
def Globals.sortBlock (mem : List (IndexS T)) (block : ℕ) : Option (Write T) :=
  (intMul block g.blockSize).bind fun offset =>
    g.qsort.range mem (offset / 16) (toSize g.blockSize / 16)

namespace State

def start (threads : ℕ) (mem : List (IndexS T)) : State threads T where
  mem := mem
  blockMap i := decide (i < threads)
  mapMutex := false
  arrived := 0
  waiting _ := false
  pc _ := .ready

def goto (s : State threads T) (i : Fin threads) (pc : Pc T) : State threads T :=
  { s with pc := Function.update s.pc i pc }

/-- `pthread_barrier_wait`; the last thread to arrive releases all. -/
def barrierWait (s : State threads T) (i : Fin threads) (pc : Pc T) : State threads T :=
  if s.arrived + 1 = threads then { s.goto i pc with arrived := 0, waiting := fun _ => false }
  else { s.goto i pc with
    arrived := s.arrived + 1, waiting := Function.update s.waiting i true }

def store (s : State threads T) (write : Write T) : State threads T :=
  { s with mem := overwrite s.mem write.1 write.2 }

def startSort (s : State threads T) (i : Fin threads) (block : ℕ) : State threads T :=
  match g.sortBlock s.mem block with
  | some write => s.goto i (.sorting block write)
  | none => s.goto i .undefined

variable [LT T] [DecidableLT T]

def startMerge (s : State threads T) (i : Fin threads) (mergeBlocks : ℕ) (tmpBlockSize : ℤ)
    (tmpId : ℕ) : State threads T :=
  match mergeBytes s.mem tmpBlockSize tmpId with
  | some write => s.goto i (.merging mergeBlocks tmpBlockSize tmpId write)
  | none => s.goto i .undefined

/-- One step of `sort_thread` in thread `i`. -/
def next (s : State threads T) (i : Fin threads) : Option (State threads T) :=
  if s.waiting i then none
  else match s.pc i with
  | .ready => some (s.barrierWait i .own)
  | .own => some (s.startSort g i i)
  | .sorting _ write => some ((s.store write).goto i .lock)
  | .lock => if s.mapMutex then none else some ({ s with mapMutex := true }.goto i .find)
  | .find =>
    match g.findNextFreeBlock s.blockMap with
    | some block => some (s.goto i (.mark block))
    | none => some (s.goto i (.unlock none))
  | .mark block =>
    some ({ s with blockMap := Function.update s.blockMap block true }.goto i
      (.unlock (some block)))
  | .unlock (some block) => some ({ s with mapMutex := false }.goto i (.claimed block))
  | .unlock none => some ({ s with mapMutex := false }.goto i .exhausted)
  | .claimed block => some (s.startSort g i block)
  | .exhausted => some (s.barrierWait i (.pass g.blockNum g.blockSize))
  | .pass mergeBlocks tmpBlockSize =>
    if 1 < mergeBlocks then some (s.goto i (.pair mergeBlocks tmpBlockSize i))
    else some (s.barrierWait i .done)
  | .pair mergeBlocks tmpBlockSize tmpId =>
    if tmpId < mergeBlocks / 2 then
      if i < mergeBlocks / 2 then some (s.startMerge i mergeBlocks tmpBlockSize tmpId)
      else some (s.goto i (.pair mergeBlocks tmpBlockSize (tmpId + threads)))
    else some (s.barrierWait i (.passed mergeBlocks tmpBlockSize))
  | .merging mergeBlocks tmpBlockSize tmpId write =>
    some ((s.store write).goto i (.pair mergeBlocks tmpBlockSize (tmpId + threads)))
  | .passed mergeBlocks tmpBlockSize =>
    match intMul tmpBlockSize 2 with
    | some doubled => some (s.goto i (.pass (mergeBlocks / 2) doubled))
    | none => some (s.goto i .undefined)
  | .done | .undefined => none

end State

def Pc.isDone : Pc T → Bool
  | .done => true
  | _ => false

/-- Every thread has returned. -/
def State.Finished (s : State threads T) : Prop :=
  ∀ i, (s.pc i).isDone = true ∧ s.waiting i = false

instance (s : State threads T) : Decidable s.Finished := inferInstanceAs (Decidable (∀ _, _ ∧ _))

theorem Pc.isDone_iff {pc : Pc T} : pc.isDone = true ↔ pc = .done := by
  cases pc <;> simp [isDone]

/-- The block that a thread is about to sort. -/
def Pc.toSort (i : ℕ) : Pc T → Option ℕ
  | .own => some i
  | .claimed block => some block
  | _ => none

theorem Pc.toSort_cases {pc : Pc T} {i block : ℕ} (h : pc.toSort i = some block) :
    pc = .own ∧ block = i ∨ pc = .claimed block := by
  cases pc <;> simp_all [toSort]

namespace State

variable [LT T] [DecidableLT T]

/-- What a step of thread `i` can do. -/
inductive Step (s : State threads T) (i : Fin threads) : State threads T → Prop
  | enter (hpc : s.pc i = .ready) : Step s i (s.barrierWait i .own)
  | sort (block : ℕ) (write : Write T) (hpc : (s.pc i).toSort i = some block)
      (hwrite : g.sortBlock s.mem block = some write) : Step s i (s.goto i (.sorting block write))
  | sortUndefined (block : ℕ) (hpc : (s.pc i).toSort i = some block)
      (hwrite : g.sortBlock s.mem block = none) : Step s i (s.goto i .undefined)
  | sorted (block : ℕ) (write : Write T) (hpc : s.pc i = .sorting block write) :
    Step s i ((s.store write).goto i .lock)
  | lock (hpc : s.pc i = .lock) (hfree : s.mapMutex = false) :
    Step s i ({ s with mapMutex := true }.goto i .find)
  | found (block : ℕ) (hpc : s.pc i = .find)
      (hfind : g.findNextFreeBlock s.blockMap = some block) : Step s i (s.goto i (.mark block))
  | notFound (hpc : s.pc i = .find) (hfind : g.findNextFreeBlock s.blockMap = none) :
    Step s i (s.goto i (.unlock none))
  | mark (block : ℕ) (hpc : s.pc i = .mark block) :
    Step s i ({ s with blockMap := Function.update s.blockMap block true }.goto i
      (.unlock (some block)))
  | unlock (block : ℕ) (hpc : s.pc i = .unlock (some block)) :
    Step s i ({ s with mapMutex := false }.goto i (.claimed block))
  | unlockLast (hpc : s.pc i = .unlock none) :
    Step s i ({ s with mapMutex := false }.goto i .exhausted)
  | exhaust (hpc : s.pc i = .exhausted) :
    Step s i (s.barrierWait i (.pass g.blockNum g.blockSize))
  | pass (blocks : ℕ) (size : ℤ) (hpc : s.pc i = .pass blocks size) (hone : 1 < blocks) :
    Step s i (s.goto i (.pair blocks size i))
  | leave (blocks : ℕ) (size : ℤ) (hpc : s.pc i = .pass blocks size) (hone : ¬ 1 < blocks) :
    Step s i (s.barrierWait i .done)
  | merge (blocks : ℕ) (size : ℤ) (tmpId : ℕ) (write : Write T)
      (hpc : s.pc i = .pair blocks size tmpId) (hid : tmpId < blocks / 2)
      (hwrite : mergeBytes s.mem size tmpId = some write) :
    Step s i (s.goto i (.merging blocks size tmpId write))
  | mergeUndefined (blocks : ℕ) (size : ℤ) (tmpId : ℕ)
      (hpc : s.pc i = .pair blocks size tmpId) (hid : tmpId < blocks / 2)
      (hwrite : mergeBytes s.mem size tmpId = none) : Step s i (s.goto i .undefined)
  | skip (blocks : ℕ) (size : ℤ) (tmpId : ℕ) (hpc : s.pc i = .pair blocks size tmpId)
      (hid : tmpId < blocks / 2) (hthread : ¬ i < blocks / 2) :
    Step s i (s.goto i (.pair blocks size (tmpId + threads)))
  | merged (blocks : ℕ) (size : ℤ) (tmpId : ℕ) (write : Write T)
      (hpc : s.pc i = .merging blocks size tmpId write) :
    Step s i ((s.store write).goto i (.pair blocks size (tmpId + threads)))
  | passEnd (blocks : ℕ) (size : ℤ) (tmpId : ℕ) (hpc : s.pc i = .pair blocks size tmpId)
      (hid : ¬ tmpId < blocks / 2) : Step s i (s.barrierWait i (.passed blocks size))
  | double (blocks : ℕ) (size doubled : ℤ) (hpc : s.pc i = .passed blocks size)
      (hdouble : intMul size 2 = some doubled) : Step s i (s.goto i (.pass (blocks / 2) doubled))
  | doubleUndefined (blocks : ℕ) (size : ℤ) (hpc : s.pc i = .passed blocks size)
      (hdouble : intMul size 2 = none) : Step s i (s.goto i .undefined)

variable {g} {s t : State threads T} {i : Fin threads}

theorem startSort_step {block : ℕ} (hpc : (s.pc i).toSort i = some block) :
    Step g s i (s.startSort g i block) := by
  unfold startSort
  split
  · rename_i write hwrite
    exact .sort block write hpc hwrite
  · rename_i hwrite
    exact .sortUndefined block hpc hwrite

theorem next_step (h : s.next g i = some t) : s.waiting i = false ∧ Step g s i t := by
  by_cases hwait : s.waiting i
  · simp [next, hwait] at h
  · refine ⟨by simpa using hwait, ?_⟩
    simp only [next, hwait, Bool.false_eq_true, if_false] at h
    split at h <;> rename_i hpc
    · cases h
      exact .enter hpc
    · cases h
      exact startSort_step (by rw [hpc]; rfl)
    · cases h
      exact .sorted _ _ hpc
    · split at h
      · cases h
      · rename_i hfree
        cases h
        exact .lock hpc (by simpa using hfree)
    · split at h <;> cases h
      · exact .found _ hpc ‹_›
      · exact .notFound hpc ‹_›
    · cases h
      exact .mark _ hpc
    · cases h
      exact .unlock _ hpc
    · cases h
      exact .unlockLast hpc
    · cases h
      exact startSort_step (by rw [hpc]; rfl)
    · cases h
      exact .exhaust hpc
    · split at h <;> cases h
      · exact .pass _ _ hpc ‹_›
      · exact .leave _ _ hpc ‹_›
    · split at h
      · split at h <;> cases h
        · unfold startMerge
          split
          · exact .merge _ _ _ _ hpc ‹_› ‹_›
          · exact .mergeUndefined _ _ _ hpc ‹_› ‹_›
        · exact .skip _ _ _ hpc ‹_› ‹_›
      · cases h
        exact .passEnd _ _ _ hpc ‹_›
    · cases h
      exact .merged _ _ _ _ hpc
    · split at h <;> cases h
      · exact .double _ _ _ hpc ‹_›
      · exact .doubleUndefined _ _ hpc ‹_›
    · cases h
    · cases h

end State

end OsispLabs.Lab6
