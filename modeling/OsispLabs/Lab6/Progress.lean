import Mathlib.Data.Finset.Card
import OsispLabs.Lab6.Interleaving

/-!
# Every chunk is finished

Until all threads have returned some thread can move, and each step uses up some of the work that
is left.
-/
namespace OsispLabs.Lab6
open Lib

variable {T : Type*} {threads : ℕ} (g : Globals T)

/-- A bound on the steps that a thread can still make without claiming a block. -/
def Pc.rank (blockNum : ℕ) : Pc T → ℕ
  | .ready => 6 * blockNum + 10
  | .own | .claimed _ => 6 * blockNum + 9
  | .sorting _ _ => 6 * blockNum + 8
  | .lock => 6 * blockNum + 7
  | .find => 6 * blockNum + 6
  | .mark _ => 6 * blockNum + 5
  | .unlock none => 6 * blockNum + 4
  | .unlock (some _) => 6 * blockNum + 10
  | .exhausted => 6 * blockNum + 3
  | .pass blocks _ => 6 * blocks + 2
  | .pair blocks _ tmpId => 6 * (blocks / 2) + 4 + 2 * (blocks / 2 - tmpId)
  | .merging blocks _ tmpId _ => 6 * (blocks / 2) + 5 + 2 * (blocks / 2 - (tmpId + 1))
  | .passed blocks _ => 6 * (blocks / 2) + 3
  | .done | .undefined => 0

namespace State

/-- The blocks that nobody has claimed. -/
def unclaimed (s : State threads T) : Finset ℕ :=
  (Finset.range g.blockNum).filter fun block => s.blockMap block = false

/-- A bound on the steps that are left. -/
def remaining (s : State threads T) : ℕ :=
  6 * (s.unclaimed g).card + total (Pc.rank g.blockNum) s.pc

variable {g} {s t : State threads T} {i : Fin threads} {old new : Pc T}

theorem remaining_move (hpc : s.pc i = old) (hnew : t.pc = Function.update s.pc i new)
    (hmap : t.blockMap = s.blockMap) (hrank : new.rank g.blockNum < old.rank g.blockNum) :
    t.remaining g < s.remaining g := by
  have hcount := total_update (Pc.rank g.blockNum) s.pc i new
  rw [hpc] at hcount
  simp only [remaining, unclaimed, hmap, hnew]
  omega

theorem remaining_mark {block : ℕ} (hpc : s.pc i = .mark block) (hlt : block < g.blockNum)
    (hfree : s.blockMap block = false) :
    ({ s with blockMap := Function.update s.blockMap block true }.goto i
      (.unlock (some block))).remaining g < s.remaining g := by
  let t := { s with blockMap := Function.update s.blockMap block true }.goto i
    (.unlock (some block))
  have hcount := total_update (Pc.rank g.blockNum) s.pc i (.unlock (some block))
  rw [hpc] at hcount
  have hcard : (t.unclaimed g).card < (s.unclaimed g).card := by
    apply Finset.card_lt_card
    rw [Finset.ssubset_iff_of_subset]
    · exact ⟨block, by simp [unclaimed, hlt, hfree], by simp [t, unclaimed, goto]⟩
    · intro b hb
      by_cases h : b = block
      · simp [t, unclaimed, goto, h] at hb
      · simpa [t, unclaimed, goto, h] using hb
  have hpcs : t.pc = Function.update s.pc i (.unlock (some block)) := rfl
  change t.remaining g < s.remaining g
  simp only [Pc.rank] at hcount
  rw [remaining, remaining, hpcs]
  omega

variable [LT T] [DecidableLT T]

/-- Each step uses up some of the work. -/
theorem Step.remaining (h : Step g s i t) (hs : s.Claiming g.blockNum) :
    t.remaining g < s.remaining g := by
  have hthreads : 0 < threads := Nat.lt_of_le_of_lt (Nat.zero_le _) i.isLt
  cases h with
  | enter hpc => exact remaining_move hpc (s.barrierWait_pc i _) (by simp) (by simp [Pc.rank])
  | sort block write hpc hwrite =>
    refine remaining_move (t := s.goto i (.sorting block write)) rfl rfl rfl ?_
    rcases Pc.toSort_cases hpc with ⟨hold, -⟩ | hold <;> simp [hold, Pc.rank]
  | sortUndefined block hpc hwrite =>
    refine remaining_move (t := s.goto i .undefined) rfl rfl rfl ?_
    rcases Pc.toSort_cases hpc with ⟨hold, -⟩ | hold <;> simp [hold, Pc.rank]
  | sorted block write hpc => exact remaining_move hpc rfl rfl (by simp [Pc.rank])
  | lock hpc hfree => exact remaining_move hpc rfl rfl (by simp [Pc.rank])
  | found block hpc hfind => exact remaining_move hpc rfl rfl (by simp [Pc.rank])
  | notFound hpc hfind => exact remaining_move hpc rfl rfl (by simp [Pc.rank])
  | mark block hpc =>
    exact remaining_mark hpc (hs.free i block hpc).1 (hs.free i block hpc).2
  | unlock block hpc => exact remaining_move hpc rfl rfl (by simp [Pc.rank])
  | unlockLast hpc => exact remaining_move hpc rfl rfl (by simp [Pc.rank])
  | exhaust hpc => exact remaining_move hpc (s.barrierWait_pc i _) (by simp) (by simp [Pc.rank])
  | pass blocks bytes hpc hone =>
    refine remaining_move hpc rfl rfl ?_
    simp only [Pc.rank]
    omega
  | leave blocks bytes hpc hone =>
    exact remaining_move hpc (s.barrierWait_pc i _) (by simp) (by simp [Pc.rank])
  | merge blocks bytes tmpId write hpc hid hwrite =>
    refine remaining_move hpc rfl rfl ?_
    simp only [Pc.rank]
    omega
  | mergeUndefined blocks bytes tmpId hpc hid hwrite =>
    exact remaining_move hpc rfl rfl (by simp [Pc.rank])
  | skip blocks bytes tmpId hpc hid hthread =>
    refine remaining_move hpc rfl rfl ?_
    simp only [Pc.rank]
    omega
  | merged blocks bytes tmpId write hpc =>
    refine remaining_move hpc rfl rfl ?_
    simp only [Pc.rank]
    omega
  | passEnd blocks bytes tmpId hpc hid =>
    refine remaining_move hpc (s.barrierWait_pc i _) (by simp) ?_
    simp only [Pc.rank]
    omega
  | double blocks bytes doubled hpc hdouble =>
    refine remaining_move hpc rfl rfl ?_
    simp only [Pc.rank]
    omega
  | doubleUndefined blocks bytes hpc hdouble =>
    exact remaining_move hpc rfl rfl (by simp [Pc.rank])

/-- A thread outside the barrier can move, unless it waits for the mutex or is at its end. -/
theorem next_isSome (hwait : s.waiting i = false) (hlock : s.pc i = .lock → s.mapMutex = false)
    (hdone : s.pc i ≠ .done) (hdef : s.pc i ≠ .undefined) : (s.next g i).isSome := by
  simp only [next, hwait]
  cases hpc : s.pc i with
  | lock => simp [hlock hpc]
  | find => cases hfind : g.findNextFreeBlock s.blockMap <;> simp
  | unlock nextBlock => cases nextBlock <;> simp
  | pass blocks bytes => by_cases h : 1 < blocks <;> simp [h]
  | pair blocks bytes tmpId =>
    by_cases h : tmpId < blocks / 2
    · by_cases hi : i < blocks / 2 <;> simp [h, hi]
    · simp [h]
  | passed blocks bytes => cases hdouble : intMul bytes 2 <;> simp [hdouble]
  | done => exact absurd hpc hdone
  | undefined => exact absurd hpc hdef
  | _ => simp

variable {size : ℕ} {mem₀ : List (IndexS T)} {st : Stage T}

/-- Until all threads have returned, some thread can move. -/
theorem Lawful.progress (hs : s.Lawful g size mem₀ st) (h : ¬ s.Finished) :
    ∃ i, (s.next g i).isSome := by
  by_contra hnone
  have hstuck : ∀ i, ¬ (s.next g i).isSome := fun i hi => hnone ⟨i, hi⟩
  have hmutex : s.mapMutex = false := by
    by_contra hheld
    rw [Bool.not_eq_false] at hheld
    obtain ⟨i, hinside⟩ := hs.claiming.locked hheld
    have hwait : s.waiting i = false := by
      by_contra hin
      rw [Bool.not_eq_false] at hin
      have hwaits := hs.phased.waits i hin
      cases hpc : s.pc i <;> rw [hpc] at hinside hwaits <;>
        first | (cases st <;> exact hwaits) | cases hinside
    apply hstuck i
    apply next_isSome hwait <;> intro hpc <;> simp [hpc, Pc.inside] at hinside
  have hdone : ∀ i, s.waiting i = false → s.pc i = .done := by
    intro i hwait
    by_contra hnot
    apply hstuck i
    apply next_isSome hwait (fun _ => hmutex) hnot
    intro hundef
    have hruns := hs.phased.runs i hwait
    rw [hundef] at hruns
    cases st <;> exact hruns
  have hall : ¬ ∀ i, s.waiting i = true := fun hall => by
    have hcount := total_toNat_add_not s.waiting
    rw [hs.phased.count, total_eq_zero (fun i => by rw [hall i]; rfl), Fintype.card_fin] at hcount
    have hroom := hs.phased.room
    omega
  apply h
  rw [not_forall] at hall
  obtain ⟨i, hi⟩ := hall
  rw [Bool.not_eq_true] at hi
  have hruns := hs.phased.runs i hi
  rw [hdone i hi] at hruns
  obtain rfl := hruns.eq_ended
  intro j
  have hwait : s.waiting j = false := by
    by_contra hin
    rw [Bool.not_eq_false] at hin
    have hwaits := hs.phased.waits j hin
    cases hpc : s.pc j <;> rw [hpc] at hwaits <;> exact hwaits
  exact ⟨Pc.isDone_iff.mpr (hdone j hwait), hwait⟩

end State

end OsispLabs.Lab6
