import OsispLabs.Lab6.Progress

/-!
# Runs of one chunk

The step lemmas carried through a whole run, from the start of the threads to their return.
-/
namespace OsispLabs.Lab6
open Lib

/-- The threads can be started: the block size is exact and the blocks lie in the memory. -/
structure Startable {T : Type*} (g : Globals T) (threads size : ℕ) (mem₀ : List (IndexS T)) :
    Prop where
  threads_pos : 0 < threads
  threads_le : threads ≤ g.blockNum
  bytes : g.blockSize = (16 * size : ℕ)
  bytes_lt : 16 * size < 2 ^ 31
  room : g.blockNum * size ≤ mem₀.length

namespace State

variable {T : Type*} {threads : ℕ} [LT T] [DecidableLT T] {g : Globals T} {size : ℕ}
  {mem₀ : List (IndexS T)} {s t : State threads T} {i : Fin threads} {st : Stage T}

/-- Some thread has done something undefined. -/
def Faulty (s : State threads T) : Prop := ∃ i, s.pc i = .undefined

theorem Step.faulty (h : Step g s i t) (hs : s.Faulty) : t.Faulty := by
  obtain ⟨j, hj⟩ := hs
  exact ⟨j, h.stuck hj⟩

theorem Lawful.not_faulty (hs : s.Lawful g size mem₀ st) : ¬ s.Faulty := by
  rintro ⟨i, hundef⟩
  cases hwait : s.waiting i with
  | true =>
    have hwaits := hs.phased.waits i hwait
    rw [hundef] at hwaits
    cases st <;> exact hwaits
  | false =>
    have hruns := hs.phased.runs i hwait
    rw [hundef] at hruns
    cases st <;> exact hruns

omit [LT T] [DecidableLT T] in
theorem Finished.not_faulty (h : s.Finished) : ¬ s.Faulty := by
  rintro ⟨i, hundef⟩
  have hdone := Pc.isDone_iff.mp (h i).1
  rw [hundef] at hdone
  cases hdone

/-- Every interleaving keeps the invariant, up to the first undefined step. -/
theorem run_lawful (hg : Startable g threads size mem₀) {as : List (Fin threads)}
    (hrun : exec (next g) (start threads mem₀) as = some s) :
    s.Faulty ∨ ∃ st, s.Lawful g size mem₀ st := by
  apply exec_invariant (I := fun s => s.Faulty ∨ ∃ st, s.Lawful g size mem₀ st) _ _ hrun
  · intro s i t hs hnext
    obtain ⟨hwait, hstep⟩ := next_step hnext
    rcases hs with hfaulty | ⟨st, hlawful⟩
    · exact .inl (hstep.faulty hfaulty)
    · by_cases hdef : t.pc i = .undefined
      · exact .inl ⟨i, hdef⟩
      · exact .inr (hstep.lawful hg.bytes hg.bytes_lt hg.room
          (Nat.lt_of_lt_of_le hg.threads_pos hg.threads_le) hwait hlawful hdef)
  · exact .inr ⟨_, start_lawful hg.threads_pos hg.threads_le⟩

/-- When the offsets fit, no interleaving does anything undefined. -/
theorem run_defined (hg : Startable g threads size mem₀) (hblocks : g.BlocksFit size)
    (hpasses : PassesFit g.blockNum (16 * size)) {as : List (Fin threads)}
    (hrun : exec (next g) (start threads mem₀) as = some s) :
    ∃ st, s.Lawful g size mem₀ st := by
  apply exec_invariant (I := fun s => ∃ st, s.Lawful g size mem₀ st) _ _ hrun
  · rintro s i t ⟨st, hs⟩ hnext
    obtain ⟨hwait, hstep⟩ := next_step hnext
    have hdef := hstep.defined hg.bytes hg.bytes_lt hg.room hblocks hpasses hwait hs
    exact hstep.lawful hg.bytes hg.bytes_lt hg.room
      (Nat.lt_of_lt_of_le hg.threads_pos hg.threads_le) hwait hs hdef
  · exact ⟨_, start_lawful hg.threads_pos hg.threads_le⟩

theorem run_claiming (hle : threads ≤ g.blockNum) {as : List (Fin threads)}
    (hrun : exec (next g) (start threads mem₀) as = some s) : s.Claiming g.blockNum :=
  exec_invariant (I := fun s : State threads T => s.Claiming g.blockNum)
    (fun _ _ _ hs hnext => (next_step hnext).2.claiming hs) (start_claiming mem₀ hle) hrun

/-- An interleaving makes a bounded number of steps. -/
theorem run_length_le (hle : threads ≤ g.blockNum) {as : List (Fin threads)}
    (hrun : exec (next g) (start threads mem₀) as = some s) :
    as.length ≤ (start threads mem₀).remaining g := by
  have h := exec_length_le (I := fun s : State threads T => s.Claiming g.blockNum)
    (m := fun s => s.remaining g) (fun s i t hs hnext => (next_step hnext).2.claiming hs)
    (fun s i t hs hnext => (next_step hnext).2.remaining hs) (start_claiming mem₀ hle) hrun
  omega

/-- When the offsets fit, some interleaving runs to its end. -/
theorem exists_finished (hg : Startable g threads size mem₀) (hblocks : g.BlocksFit size)
    (hpasses : PassesFit g.blockNum (16 * size)) :
    ∃ as s, exec (next g) (start threads mem₀) as = some s ∧ s.Finished := by
  apply exists_exec_final (n := (start threads mem₀).remaining g)
  · intro as s hrun hnot
    obtain ⟨st, hs⟩ := run_defined hg hblocks hpasses hrun
    exact hs.progress hnot
  · intro as s hrun
    exact run_length_le hg.threads_le hrun

/-- When all threads have returned, the memory is the merged one and all offsets have fitted. -/
theorem Lawful.finished (hs : s.Lawful g size mem₀ st) (hpos : 0 < threads) (h : s.Finished) :
    s.mem = g.result size mem₀ ∧ PassesFit g.blockNum (16 * size) ∧ g.BlocksFit size := by
  have hruns := hs.phased.runs ⟨0, hpos⟩ (h _).2
  rw [Pc.isDone_iff.mp (h _).1] at hruns
  obtain rfl := hruns.eq_ended
  exact ⟨hs.content, hs.valid⟩

/-- A run in which all threads have returned has merged the blocks. -/
theorem run_finished (hg : Startable g threads size mem₀) {as : List (Fin threads)}
    (hrun : exec (next g) (start threads mem₀) as = some s) (h : s.Finished) :
    s.mem = g.result size mem₀ ∧ PassesFit g.blockNum (16 * size) ∧ g.BlocksFit size := by
  obtain ⟨st, hs⟩ := (run_lawful hg hrun).resolve_left h.not_faulty
  exact hs.finished hg.threads_pos h

end State

end OsispLabs.Lab6
