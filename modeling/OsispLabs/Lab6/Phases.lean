import OsispLabs.Lab6.Claims
import OsispLabs.Lab6.MergeLoop

/-!
# The phases between two barriers

All threads of a chunk are in one stage: before the first barrier, sorting blocks, in one pass of
the merge loop, or at the end. The barrier takes them to the next stage together.
-/
namespace OsispLabs.Lab6
open Lib

variable {T : Type*}

/-- A stage; a merge pass starts from the memory `base`. -/
inductive Stage (T : Type*)
  | starting
  | sorting
  | merging (blocks size : ℕ) (base : List (IndexS T))
  | ended

/-- The byte offset of a block fits into an `int`. -/
def BlockFits (size block : ℕ) : Prop := block * (16 * size) < 2 ^ 31

/-- What `qsort` writes for a block of `size` records. -/
def Globals.sortedBlock (g : Globals T) (size : ℕ) (mem : List (IndexS T)) (block : ℕ) : Write T :=
  (block * size, g.qsort.sort (window mem (block * size) size))

/-- The memory after every block has been sorted. -/
def Globals.sortedAll (g : Globals T) (size : ℕ) (mem : List (IndexS T)) : List (IndexS T) :=
  mapBlocks g.qsort.sort size g.blockNum (fun _ => true) mem

instance (size block : ℕ) : Decidable (BlockFits size block) := inferInstanceAs (Decidable (_ < _))

theorem Globals.sortBlock_eq {g : Globals T} {size : ℕ} (hsize : g.blockSize = (16 * size : ℕ))
    (hfit : 16 * size < 2 ^ 31) (mem : List (IndexS T)) (block : ℕ) :
    g.sortBlock mem block =
      if BlockFits size block ∧ block * size + size ≤ mem.length then
        some (g.sortedBlock size mem block) else none := by
  have hcount : toSize ((16 * size : ℕ) : ℤ) / 16 = size := by
    rw [toSize_of_nonneg (by omega) (by omega), Int.toNat_natCast]
    omega
  have hoffset : ((block * (16 * size) : ℕ) : ℤ) / 16 = (block * size : ℕ) := by
    rw [Nat.mul_left_comm]
    omega
  rw [sortBlock, hsize, intMul_natCast, hcount]
  by_cases h : block * (16 * size) < 2 ^ 31
  · have hfits : BlockFits size block := h
    have hpos : (0 : ℤ) ≤ (block * size : ℕ) := Int.natCast_nonneg _
    rw [if_pos h, Option.bind_some, hoffset, Qsort.range, Int.toNat_natCast]
    simp only [hpos, hfits, true_and, sortedBlock]
  · have hnot : ¬ (BlockFits size block ∧ block * size + size ≤ mem.length) := fun hall => h hall.1
    rw [if_neg h, if_neg hnot, Option.bind_none]

/-- The positions between the first barrier and the second. -/
def Pc.sorts : Pc T → Bool
  | .own | .sorting .. | .lock | .find | .mark _ | .unlock _ | .claimed _ | .exhausted => true
  | _ => false

theorem Pc.sorts_of_toSort {pc : Pc T} {i block : ℕ} (h : pc.toSort i = some block) :
    pc.sorts = true := by
  rcases Pc.toSort_cases h with ⟨rfl, -⟩ | rfl <;> rfl

section Stages

variable [LT T] [DecidableLT T] (g : Globals T) (size : ℕ) (mem₀ : List (IndexS T))

/-- Where thread `i` of `threads` can be in a stage, outside the barrier. -/
def Stage.Runs (threads i : ℕ) : Stage T → Pc T → Prop
  | .starting, .ready => True
  | .sorting, .sorting block write =>
    write = g.sortedBlock size mem₀ block ∧ BlockFits size block
  | .sorting, .own | .sorting, .lock | .sorting, .find | .sorting, .mark _ | .sorting, .unlock _
  | .sorting, .claimed _ | .sorting, .exhausted => True
  | .merging blocks run _, .pass blocks' bytes =>
    blocks' = blocks ∧ bytes = (16 * run : ℕ) ∧ 16 * run < 2 ^ 31
  | .merging blocks run _, .pair blocks' bytes tmpId =>
    blocks' = blocks ∧ bytes = (16 * run : ℕ) ∧ 16 * run < 2 ^ 31 ∧ 1 < blocks ∧
      tmpId % threads = i
  | .merging blocks run base, .merging blocks' bytes tmpId write =>
    blocks' = blocks ∧ bytes = (16 * run : ℕ) ∧ 16 * run < 2 ^ 31 ∧ 1 < blocks ∧
      tmpId % threads = i ∧ tmpId < blocks / 2 ∧ write = pairWrite base run tmpId ∧
      PairFits (16 * run) tmpId
  | .merging blocks run _, .passed blocks' bytes =>
    1 < blocks' ∧ blocks' / 2 = blocks ∧ bytes * 2 = (16 * run : ℕ)
  | .ended, .done => True
  | _, _ => False

/-- Where a thread that waits in the barrier goes on. -/
def Stage.Waits : Stage T → Pc T → Prop
  | .starting, .own => True
  | .sorting, .pass blocks bytes => blocks = g.blockNum ∧ bytes = g.blockSize
  | .merging blocks run _, .passed blocks' bytes =>
    blocks' = blocks ∧ bytes = (16 * run : ℕ) ∧ 1 < blocks
  | .merging blocks run _, .done => blocks ≤ 1 ∧ 16 * run < 2 ^ 31
  | _, _ => False

/-- The stage behind the barrier. -/
def Stage.next : Stage T → Stage T
  | .starting => .sorting
  | .sorting => .merging g.blockNum size (g.sortedAll size mem₀)
  | .merging blocks run base =>
    if 1 < blocks then .merging (blocks / 2) (2 * run) (mergePass mergeRuns blocks run base)
    else .ended
  | .ended => .ended

variable {g size mem₀}

/-- Released from the barrier, a thread is at its place in the next stage. -/
theorem Stage.release {st : Stage T} {pc : Pc T} {threads i : ℕ}
    (hsize : g.blockSize = (16 * size : ℕ)) (hfit : 16 * size < 2 ^ 31) (h : st.Waits g pc) :
    (st.next g size mem₀).Runs g size mem₀ threads i pc := by
  cases st with
  | starting => cases pc <;> first | exact h.elim | trivial
  | sorting =>
    cases pc <;> first | exact h.elim | skip
    exact ⟨h.1, h.2.trans hsize, hfit⟩
  | merging blocks run base =>
    cases pc <;> first | exact h.elim | skip
    · rename_i blocks' bytes
      obtain ⟨rfl, rfl, hone⟩ := h
      rw [Stage.next, if_pos hone]
      exact ⟨hone, rfl, by omega⟩
    · rw [Stage.next, if_neg (Nat.not_lt_of_le h.1)]
      trivial
  | ended => cases pc <;> exact h.elim

section Runs

variable {st : Stage T} {pc : Pc T} {threads i blocks tmpId : ℕ} {bytes : ℤ} {write : Write T}

theorem Stage.Runs.eq_starting (h : st.Runs g size mem₀ threads i .ready) : st = .starting := by
  cases st <;> first | rfl | exact h.elim

theorem Stage.Runs.eq_sorting (h : st.Runs g size mem₀ threads i pc) (hpc : pc.sorts = true) :
    st = .sorting := by
  cases st <;> cases pc <;> first | rfl | exact h.elim | cases hpc

theorem Stage.Runs.eq_ended (h : st.Runs g size mem₀ threads i .done) : st = .ended := by
  cases st <;> first | rfl | exact h.elim

/-- A thread at the head of the merge loop is in the stage of this pass. -/
theorem Stage.Runs.pass (h : st.Runs g size mem₀ threads i (.pass blocks bytes)) :
    ∃ run base, st = .merging blocks run base ∧ bytes = (16 * run : ℕ) ∧ 16 * run < 2 ^ 31 := by
  cases st with
  | merging blocks' run base =>
    obtain ⟨rfl, hbytes, hrun⟩ := h
    exact ⟨run, base, rfl, hbytes, hrun⟩
  | starting | sorting | ended => exact h.elim

theorem Stage.Runs.pair (h : st.Runs g size mem₀ threads i (.pair blocks bytes tmpId)) :
    ∃ run base, st = .merging blocks run base ∧ bytes = (16 * run : ℕ) ∧ 16 * run < 2 ^ 31 ∧
      1 < blocks ∧ tmpId % threads = i := by
  cases st with
  | merging blocks' run base =>
    obtain ⟨rfl, hbytes, hrun, hone, hmod⟩ := h
    exact ⟨run, base, rfl, hbytes, hrun, hone, hmod⟩
  | starting | sorting | ended => exact h.elim

theorem Stage.Runs.merging (h : st.Runs g size mem₀ threads i (.merging blocks bytes tmpId write)) :
    ∃ run base, st = .merging blocks run base ∧ bytes = (16 * run : ℕ) ∧ 16 * run < 2 ^ 31 ∧
      1 < blocks ∧ tmpId % threads = i ∧ tmpId < blocks / 2 ∧ write = pairWrite base run tmpId ∧
      PairFits (16 * run) tmpId := by
  cases st with
  | merging blocks' run base =>
    obtain ⟨rfl, hbytes, hrun, hone, hmod, hid, hwrite, hfits⟩ := h
    exact ⟨run, base, rfl, hbytes, hrun, hone, hmod, hid, hwrite, hfits⟩
  | starting | sorting | ended => exact h.elim

theorem Stage.Runs.passed (h : st.Runs g size mem₀ threads i (.passed blocks bytes)) :
    ∃ run base, st = .merging (blocks / 2) run base ∧ 1 < blocks ∧ bytes * 2 = (16 * run : ℕ) := by
  cases st with
  | merging blocks' run base =>
    obtain ⟨hone, rfl, hbytes⟩ := h
    exact ⟨run, base, rfl, hone, hbytes⟩
  | starting | sorting | ended => exact h.elim

end Runs

end Stages

namespace State

variable {threads : ℕ} [LT T] [DecidableLT T] (g : Globals T) (size : ℕ) (mem₀ : List (IndexS T))

/-- Every thread is where the stage allows it, and the barrier counts the threads in it. -/
structure Phased (st : Stage T) (s : State threads T) : Prop where
  runs : ∀ i : Fin threads, s.waiting i = false → st.Runs g size mem₀ threads i (s.pc i)
  waits : ∀ i, s.waiting i = true → st.Waits g (s.pc i)
  count : total Bool.toNat s.waiting = s.arrived
  room : s.arrived < threads

variable {g size mem₀} {s t : State threads T} {i : Fin threads} {st : Stage T} {new : Pc T}

theorem start_phased (mem : List (IndexS T)) (hpos : 0 < threads) :
    (start threads mem).Phased g size mem₀ .starting where
  runs i _ := trivial
  waits i h := by simp [start] at h
  count := total_eq_zero fun i => rfl
  room := hpos

/-- A thread that moves outside the barrier. -/
theorem Phased.move (hs : s.Phased g size mem₀ st) (hwait : s.waiting i = false)
    (hnew : t.pc = Function.update s.pc i new) (hwaiting : t.waiting = s.waiting)
    (harrived : t.arrived = s.arrived) (hruns : st.Runs g size mem₀ threads i new) :
    t.Phased g size mem₀ st where
  runs := by
    rw [hwaiting]
    exact forall_moved (P := fun j pc => s.waiting j = false → st.Runs g size mem₀ threads j pc)
      hs.runs hnew fun _ => hruns
  waits := by
    rw [hwaiting]
    apply forall_moved (P := fun j pc => s.waiting j = true → st.Waits g pc) hs.waits hnew
    simp [hwait]
  count := by rw [hwaiting, harrived, hs.count]
  room := by rw [harrived]; exact hs.room

theorem Phased.others (hs : s.Phased g size mem₀ st) (hwait : s.waiting i = false)
    (hlast : s.arrived + 1 = threads) {j : Fin threads} (hj : j ≠ i) : s.waiting j = true :=
  others_waiting hs.count hwait hlast hj

theorem Phased.arrive (hs : s.Phased g size mem₀ st) (hwait : s.waiting i = false)
    (hnew : st.Waits g new) (hmore : s.arrived + 1 ≠ threads) :
    (s.barrierWait i new).Phased g size mem₀ st := by
  have hcount := total_update Bool.toNat s.waiting i true
  rw [hwait, hs.count] at hcount
  have hroom := hs.room
  rw [barrierWait, if_neg hmore]
  constructor
  · intro j hj
    by_cases hji : j = i
    · subst hji
      simp at hj
    · simp only [goto, Function.update_of_ne hji] at hj ⊢
      exact hs.runs j hj
  · intro j hj
    by_cases hji : j = i
    · subst hji
      simp only [goto, Function.update_self]
      exact hnew
    · simp only [goto, Function.update_of_ne hji] at hj ⊢
      exact hs.waits j hj
  · exact Nat.add_right_cancel hcount
  · dsimp only
    omega

theorem Phased.release (hs : s.Phased g size mem₀ st) (hwait : s.waiting i = false)
    (hnew : st.Waits g new) (hlast : s.arrived + 1 = threads)
    (hsize : g.blockSize = (16 * size : ℕ)) (hfit : 16 * size < 2 ^ 31) :
    (s.barrierWait i new).Phased g size mem₀ (st.next g size mem₀) := by
  rw [barrierWait, if_pos hlast]
  constructor
  · intro j _
    apply Stage.release hsize hfit
    by_cases hji : j = i
    · subst hji
      simp only [goto, Function.update_self]
      exact hnew
    · simp only [goto, Function.update_of_ne hji]
      exact hs.waits j (hs.others hwait hlast hji)
  · intro j hj
    cases hj
  · exact total_eq_zero fun _ => rfl
  · exact Nat.lt_of_lt_of_le (Nat.succ_pos _) (Nat.le_of_eq hlast)

end State

end OsispLabs.Lab6
