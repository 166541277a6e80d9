import OsispLabs.Lab6.ChunkRun

/-!
# What every thread has done

The threads of a chunk with a record of the blocks they sorted, the pairs they merged in each pass
and the barrier waits they made. The position of a thread determines its own record, and the
barrier keeps the numbers of waits together.
-/
namespace OsispLabs.Lab6
open Lib

/-- A block sorted or a pair merged, with the records that were written. -/
structure Operation (threads : ℕ) where
  thread : Fin threads
  index : ℕ
  start : ℕ
  length : ℕ
  deriving DecidableEq

/-- The threads with their record; merges are listed with the number of their pass. -/
structure Recorded (threads : ℕ) (T : Type*) where
  state : State threads T
  sorts : List (Operation threads)
  merges : List (ℕ × Operation threads)
  passes : Fin threads → ℕ
  waits : Fin threads → ℕ

variable {threads : ℕ} {T : Type*}

section Notes

/-- The sort that the next step completes. -/
def Pc.sortDone (i : Fin threads) : Pc T → List (Operation threads)
  | .sorting block write => [⟨i, block, write.1, write.2.length⟩]
  | _ => []

/-- The merge that the next step completes. -/
def Pc.mergeDone (i : Fin threads) (pass : ℕ) : Pc T → List (ℕ × Operation threads)
  | .merging _ _ tmpId write => [(pass, ⟨i, tmpId, write.1, write.2.length⟩)]
  | _ => []

/-- One when the next step enters the barrier. -/
def Pc.arrives : Pc T → ℕ
  | .ready | .exhausted => 1
  | .pass blocks _ => if 1 < blocks then 0 else 1
  | .pair blocks _ tmpId => if tmpId < blocks / 2 then 0 else 1
  | _ => 0

/-- One when the next step halves `merge_blocks`. -/
def Pc.halves : Pc T → ℕ
  | .passed _ _ => 1
  | _ => 0

/-- The thread is in the loop of a merge pass. -/
def Pc.inPass : Pc T → Bool
  | .pair .. | .merging .. => true
  | _ => false

/-- The records that the thread is sorting or merging: the first one and their number. -/
def Pc.range : Pc T → Option (ℕ × ℕ)
  | .sorting _ write | .merging _ _ _ write => some (write.1, write.2.length)
  | _ => none

end Notes

namespace Recorded

variable [LT T] [DecidableLT T] (g : Globals T)

def start (threads : ℕ) (mem : List (IndexS T)) : Recorded threads T :=
  ⟨.start threads mem, [], [], fun _ => 0, fun _ => 0⟩

/-- The step of thread `i` to the state `s`. -/
def note (r : Recorded threads T) (i : Fin threads) (s : State threads T) : Recorded threads T where
  state := s
  sorts := r.sorts ++ (r.state.pc i).sortDone i
  merges := r.merges ++ (r.state.pc i).mergeDone i (r.passes i)
  passes := Function.update r.passes i (r.passes i + (r.state.pc i).halves)
  waits := Function.update r.waits i (r.waits i + (r.state.pc i).arrives)

def next (r : Recorded threads T) (i : Fin threads) : Option (Recorded threads T) :=
  (r.state.next g i).map (r.note i)

/-- How often a block has been sorted. -/
def sortCount (r : Recorded threads T) (block : ℕ) : ℕ :=
  (r.sorts.map Operation.index).count block

/-- How often a pair has been merged in a pass. -/
def mergeCount (r : Recorded threads T) (pass pair : ℕ) : ℕ :=
  (r.merges.map fun m => (m.1, m.2.index)).count (pass, pair)

variable {g} {r r' : Recorded threads T} {i : Fin threads}

theorem next_eq_some (h : r.next g i = some r') :
    r.state.waiting i = false ∧ State.Step g r.state i r'.state ∧ r' = r.note i r'.state := by
  obtain ⟨s, hs, rfl⟩ := Option.map_eq_some_iff.mp h
  obtain ⟨hwait, hstep⟩ := State.next_step hs
  exact ⟨hwait, hstep, rfl⟩

/-- The record does not influence the threads. -/
theorem exec_map_state (r : Recorded threads T) (as : List (Fin threads)) :
    (exec (next g) r as).map state = exec (State.next g) r.state as := by
  apply exec_map
  intro r i
  rw [next, Option.map_map]
  exact Option.map_id'

theorem exec_state {as : List (Fin threads)} (h : exec (next g) r as = some r') :
    exec (State.next g) r.state as = some r'.state := by
  rw [← exec_map_state, h, Option.map_some]

theorem exists_exec {as : List (Fin threads)} {s : State threads T}
    (h : exec (State.next g) r.state as = some s) :
    ∃ r', exec (next g) r as = some r' ∧ r'.state = s := by
  rw [← exec_map_state] at h
  exact Option.map_eq_some_iff.mp h

end Recorded

end OsispLabs.Lab6
