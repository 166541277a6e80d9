import OsispLabs.Lab6.Phases

/-!
# What the memory holds

In every interleaving the memory is determined by the blocks that have been sorted and the pairs
that have been merged: the threads work on disjoint ranges.
-/
namespace OsispLabs.Lab6
open Lib

variable {T : Type*} {threads : ℕ}

/-- The pair at which a thread stands in a pass. -/
def Pc.tmpId : Pc T → ℕ
  | .pair _ _ tmpId | .merging _ _ tmpId _ => tmpId
  | _ => 0

namespace State

/-- The block has been sorted and written back. -/
def sortedBlocks (s : State threads T) (block : ℕ) : Bool :=
  s.blockMap block && decide (∀ i, (s.pc i).holds i ≠ some block)

/-- Of its own pairs, thread `i` has merged those below this number. -/
def progress (s : State threads T) (blocks : ℕ) (i : Fin threads) : ℕ :=
  if s.waiting i then blocks else (s.pc i).tmpId

/-- The pair has been merged and written back; it belongs to thread `pair % threads`. -/
def mergedPairs (s : State threads T) (blocks pair : ℕ) : Bool :=
  decide (∃ i : Fin threads, pair % threads = i ∧ pair < s.progress blocks i)

section SortedBlocks

variable {s t : State threads T} {i : Fin threads} {old new : Pc T} {blockNum block : ℕ}

theorem sortedBlocks_of_holds (h : (s.pc i).holds i = some block) :
    s.sortedBlocks block = false := by
  have hnot : ¬ ∀ j, (s.pc j).holds j ≠ some block := fun hall => hall i h
  simp [sortedBlocks, hnot]

theorem sortedBlocks_move (hpc : s.pc i = old) (hnew : t.pc = Function.update s.pc i new)
    (hmap : t.blockMap = s.blockMap) (hholds : new.holds i = old.holds i) :
    t.sortedBlocks = s.sortedBlocks := by
  have hsame : ∀ j, (t.pc j).holds j = (s.pc j).holds j := by
    apply forall_moved (P := fun j pc => pc.holds j = (s.pc j).holds j) (fun _ => rfl) hnew
    rw [hholds, hpc]
  funext b
  simp only [sortedBlocks, hmap, hsame]

/-- A thread that holds the block neither before nor after its step makes no difference. -/
theorem forall_holds_update {b : ℕ} (hold : (s.pc i).holds i ≠ some b)
    (hnew : new.holds i ≠ some b) :
    (∀ j, (Function.update s.pc i new j).holds j ≠ some b) ↔ ∀ j, (s.pc j).holds j ≠ some b := by
  apply forall_congr'
  intro j
  by_cases hj : j = i
  · subst hj
    rw [Function.update_self]
    exact iff_of_true hnew hold
  · rw [Function.update_of_ne hj]

/-- A block that is marked is not sorted yet. -/
theorem sortedBlocks_mark (hs : s.Claiming blockNum) (hpc : s.pc i = .mark block) :
    ({ s with blockMap := Function.update s.blockMap block true }.goto i
      (.unlock (some block))).sortedBlocks = s.sortedBlocks := by
  funext b
  by_cases hb : b = block
  · subst hb
    rw [sortedBlocks_of_holds (i := i) (by simp [goto, Pc.holds])]
    simp [sortedBlocks, (hs.free i b hpc).2]
  · have hsame : (∀ j, (Function.update s.pc i (.unlock (some block)) j).holds j ≠ some b) ↔
        ∀ j, (s.pc j).holds j ≠ some b := by
      apply forall_holds_update
      · simp [hpc, Pc.holds]
      · simp [Pc.holds, Ne.symm hb]
    simp only [sortedBlocks, goto, hsame, Function.update_of_ne hb]

/-- Writing a block back. -/
theorem sortedBlocks_sorted (hs : s.Claiming blockNum) {write : Write T}
    (hpc : s.pc i = .sorting block write) :
    ((s.store write).goto i .lock).sortedBlocks = Function.update s.sortedBlocks block true := by
  have hheld : (s.pc i).holds i = some block := by rw [hpc]; rfl
  funext b
  by_cases hb : b = block
  · subst hb
    have hnone : ∀ j, (Function.update s.pc i .lock j).holds j ≠ some b := by
      intro j h
      by_cases hj : j = i
      · subst hj
        simp [Pc.holds] at h
      · rw [Function.update_of_ne hj] at h
        exact hj (hs.once j i b h hheld)
    simp [sortedBlocks, goto, store, hnone, (hs.held i b hheld).2]
  · have hsame : (∀ j, (Function.update s.pc i .lock j).holds j ≠ some b) ↔
        ∀ j, (s.pc j).holds j ≠ some b := by
      apply forall_holds_update
      · simp [hpc, Pc.holds, Ne.symm hb]
      · simp [Pc.holds]
    simp only [sortedBlocks, goto, store, hsame, Function.update_of_ne hb]

/-- Once a thread has found no free block and nobody holds one, all blocks are sorted. -/
theorem sortedBlocks_all (hs : s.Claiming blockNum) (hfull : (s.pc i).sawFull = true)
    (hnone : ∀ j, (s.pc j).holds j = none) (hlt : block < blockNum) :
    s.sortedBlocks block = true := by
  simp [sortedBlocks, hs.full i hfull block hlt, hnone]

end SortedBlocks

section MergedPairs

variable {s t : State threads T} {i : Fin threads} {blocks pair : ℕ}

theorem mergedPairs_eq_true : s.mergedPairs blocks pair = true ↔
    ∃ i : Fin threads, pair % threads = i ∧ pair < s.progress blocks i := by
  simp [mergedPairs]

/-- The pair's own thread decides. -/
theorem mergedPairs_of_thread (hi : pair % threads = i) :
    s.mergedPairs blocks pair = decide (pair < s.progress blocks i) := by
  by_cases h : pair < s.progress blocks i
  · rw [decide_eq_true h]
    exact mergedPairs_eq_true.mpr ⟨i, hi, h⟩
  · have hnot : ¬ s.mergedPairs blocks pair = true := fun hm => by
      obtain ⟨j, hj, hlt⟩ := mergedPairs_eq_true.mp hm
      have hji : j = i := Fin.ext (hj.symm.trans hi)
      exact h (hji ▸ hlt)
    simp [h, hnot]

theorem mergedPairs_congr (h : ∀ j : Fin threads, pair % threads = j →
    (pair < t.progress blocks j ↔ pair < s.progress blocks j)) :
    t.mergedPairs blocks pair = s.mergedPairs blocks pair := by
  have hiff : (∃ j : Fin threads, pair % threads = j ∧ pair < t.progress blocks j) ↔
      ∃ j : Fin threads, pair % threads = j ∧ pair < s.progress blocks j := by
    apply exists_congr
    intro j
    exact and_congr_right (h j)
  simp only [mergedPairs, hiff]

theorem progress_move_ne {new : Pc T} (hnew : t.pc = Function.update s.pc i new)
    (hwaiting : t.waiting = s.waiting) {j : Fin threads} (hj : j ≠ i) :
    t.progress blocks j = s.progress blocks j := by
  simp only [progress, hwaiting, hnew, Function.update_of_ne hj]

/-- A thread that does not pass over this pair. -/
theorem mergedPairs_move {old new : Pc T} (hwait : s.waiting i = false) (hpc : s.pc i = old)
    (hnew : t.pc = Function.update s.pc i new) (hwaiting : t.waiting = s.waiting)
    (hsame : pair % threads = i → (pair < new.tmpId ↔ pair < old.tmpId)) :
    t.mergedPairs blocks pair = s.mergedPairs blocks pair := by
  apply mergedPairs_congr
  intro j hmod
  by_cases hj : j = i
  · subst hj
    simp only [progress, hwaiting, hwait, hnew, Function.update_self, hpc]
    exact hsame hmod
  · rw [progress_move_ne hnew hwaiting hj]

/-- Pairs are merged in steps of `threads` by the same thread. -/
theorem eq_of_mod_eq {a b : ℕ} (hmod : a % threads = b % threads) (hle : a ≤ b)
    (hlt : b < a + threads) : b = a := by
  have hzero := Nat.sub_mod_eq_zero_of_mod_eq hmod.symm
  rw [Nat.mod_eq_of_lt (by omega)] at hzero
  omega

end MergedPairs

end State

section Content

variable [LT T] [DecidableLT T] (g : Globals T) (size : ℕ) (mem₀ : List (IndexS T))

/-- The blocks sorted and all passes made. -/
def Globals.result : List (IndexS T) :=
  mergeTree mergeRuns g.blockNum size (g.sortedAll size mem₀)

/-- Every block's offset fits into an `int`. -/
def Globals.BlocksFit : Prop := ∀ block < g.blockNum, BlockFits size block

/-- What is known of a pass when it starts. -/
structure MergeStage (blocks run : ℕ) (base : List (IndexS T)) : Prop where
  positive : 0 < blocks
  length : base.length = mem₀.length
  room : blocks * run ≤ mem₀.length
  result : mergeTree mergeRuns blocks run base = g.result size mem₀
  passes : PassesFit blocks (16 * run) → PassesFit g.blockNum (16 * size)
  fits : PassesFit g.blockNum (16 * size) → PassesFit blocks (16 * run)
  blocksFit : g.BlocksFit size

def Stage.Valid : Stage T → Prop
  | .starting | .sorting => True
  | .merging blocks run base => MergeStage g size mem₀ blocks run base
  | .ended => PassesFit g.blockNum (16 * size) ∧ g.BlocksFit size

namespace State

/-- The memory while blocks are sorted. -/
structure SortContent (s : State threads T) : Prop where
  mem : s.mem = mapBlocks g.qsort.sort size g.blockNum s.sortedBlocks mem₀
  fits : ∀ block < g.blockNum, s.sortedBlocks block = true → BlockFits size block

/-- The memory during a pass. -/
structure MergeContent (blocks run : ℕ) (base : List (IndexS T)) (s : State threads T) :
    Prop where
  mem : s.mem = mapBlocks (mergeHalves mergeRuns run) (2 * run) (blocks / 2)
    (s.mergedPairs blocks) base
  fits : ∀ pair < blocks / 2, s.mergedPairs blocks pair = true → PairFits (16 * run) pair

def Content : Stage T → State threads T → Prop
  | .starting, s | .sorting, s => s.SortContent g size mem₀
  | .merging blocks run base, s => s.MergeContent blocks run base
  | .ended, s => s.mem = g.result size mem₀

/-- The invariant of all interleavings. -/
structure Lawful (st : Stage T) (s : State threads T) : Prop where
  claiming : s.Claiming g.blockNum
  phased : s.Phased g size mem₀ st
  valid : st.Valid g size mem₀
  content : s.Content g size mem₀ st

end State

end Content

namespace State

variable [LT T] [DecidableLT T] {g : Globals T} {size : ℕ} {mem₀ base : List (IndexS T)}
  {s t : State threads T} {i : Fin threads} {old new : Pc T} {st : Stage T} {blocks run : ℕ}

theorem start_lawful (hpos : 0 < threads) (hle : threads ≤ g.blockNum) :
    (start threads mem₀).Lawful g size mem₀ .starting where
  claiming := start_claiming mem₀ hle
  phased := start_phased mem₀ hpos
  valid := trivial
  content := by
    have hnone : ∀ block, (start threads mem₀).sortedBlocks block = false := fun block => by
      by_cases h : block < threads
      · exact sortedBlocks_of_holds (i := ⟨block, h⟩) rfl
      · simp [sortedBlocks, start, h]
    constructor
    · rw [mapBlocks_none fun block _ => hnone block]
      rfl
    · intro block _ h
      simp [hnone] at h

section Sorting

omit [LT T] [DecidableLT T] in
theorem SortContent.length (hs : s.SortContent g size mem₀) : s.mem.length = mem₀.length := by
  rw [hs.mem, mapBlocks_length g.qsort.length_sort]

omit [LT T] [DecidableLT T] in
theorem SortContent.of_eq (hs : s.SortContent g size mem₀) (hmem : t.mem = s.mem)
    (hsorted : t.sortedBlocks = s.sortedBlocks) : t.SortContent g size mem₀ where
  mem := by rw [hmem, hsorted, hs.mem]
  fits := by
    rw [hsorted]
    exact hs.fits

omit [LT T] [DecidableLT T] in
/-- A thread that takes or passes on a block. -/
theorem SortContent.move (hs : s.SortContent g size mem₀) (hpc : s.pc i = old)
    (hnew : t.pc = Function.update s.pc i new) (hmap : t.blockMap = s.blockMap)
    (hmem : t.mem = s.mem) (hholds : new.holds i = old.holds i) : t.SortContent g size mem₀ :=
  hs.of_eq hmem (sortedBlocks_move hpc hnew hmap hholds)

omit [LT T] [DecidableLT T] in
/-- A block that a thread holds has its first content. -/
theorem SortContent.window_eq (hs : s.SortContent g size mem₀)
    (hroom : g.blockNum * size ≤ mem₀.length) {block : ℕ} (hlt : block < g.blockNum)
    (hheld : (s.pc i).holds i = some block) :
    window s.mem (block * size) size = window mem₀ (block * size) size := by
  rw [hs.mem, window_mapBlocks g.qsort.length_sort hroom hlt, sortedBlocks_of_holds hheld]
  simp

omit [LT T] [DecidableLT T] in
theorem SortContent.sorted (hs : s.SortContent g size mem₀) (hc : s.Claiming g.blockNum)
    (hroom : g.blockNum * size ≤ mem₀.length) {block : ℕ}
    (hpc : s.pc i = .sorting block (g.sortedBlock size mem₀ block)) (hfits : BlockFits size block) :
    ((s.store (g.sortedBlock size mem₀ block)).goto i .lock).SortContent g size mem₀ := by
  have hlt : block < g.blockNum := (hc.held i block (by rw [hpc]; rfl)).1
  constructor
  · rw [sortedBlocks_sorted hc hpc, ← overwrite_mapBlocks g.qsort.length_sort hroom hlt, ← hs.mem]
    rfl
  · rw [sortedBlocks_sorted hc hpc]
    intro b hb h
    by_cases hbb : b = block
    · exact hbb ▸ hfits
    · rw [Function.update_of_ne hbb] at h
      exact hs.fits b hb h

end Sorting

section Merging

theorem MergeContent.length (hs : s.MergeContent blocks run base) :
    s.mem.length = base.length := by
  rw [hs.mem, mapBlocks_length (mergeHalves_length mergeRuns_length run)]

theorem MergeContent.of_eq (hs : s.MergeContent blocks run base) (hmem : t.mem = s.mem)
    (hmerged : ∀ pair < blocks / 2, t.mergedPairs blocks pair = s.mergedPairs blocks pair) :
    t.MergeContent blocks run base where
  mem := by rw [hmem, hs.mem, mapBlocks_congr hmerged]
  fits pair hlt h := hs.fits pair hlt (hmerged pair hlt ▸ h)

/-- At the start of a pass nothing is merged. -/
theorem MergeContent.fresh (hmem : t.mem = base) (hzero : ∀ j, t.progress blocks j = 0) :
    t.MergeContent blocks run base := by
  have hnone : ∀ pair, t.mergedPairs blocks pair = false := by
    simp [mergedPairs, hzero]
  constructor
  · rw [hmem, mapBlocks_none fun pair _ => hnone pair]
  · intro pair _ h
    simp [hnone] at h

/-- A pair that is not merged has its first content. -/
theorem MergeContent.pairWrite_eq (hs : s.MergeContent blocks run base)
    (hroom : blocks * run ≤ base.length) {pair : ℕ} (hlt : pair < blocks / 2)
    (hnot : s.mergedPairs blocks pair = false) :
    pairWrite s.mem run pair = pairWrite base run pair := by
  have hwindow := window_mapBlocks (p := s.mergedPairs blocks)
    (mergeHalves_length (mergeRuns_length (T := T)) run)
    (Nat.le_trans (pairs_le blocks run) hroom) hlt
  rw [← hs.mem, hnot] at hwindow
  simp only [Bool.false_eq_true, if_false] at hwindow
  rw [pairWrite, pairWrite, hwindow]

theorem MergeContent.merged (hs : s.MergeContent blocks run base)
    (hroom : blocks * run ≤ base.length) (hwait : s.waiting i = false) {bytes : ℤ} {tmpId : ℕ}
    (hpc : s.pc i = .merging blocks bytes tmpId (pairWrite base run tmpId))
    (hmod : tmpId % threads = i) (hlt : tmpId < blocks / 2) (hfits : PairFits (16 * run) tmpId) :
    ((s.store (pairWrite base run tmpId)).goto i
      (.pair blocks bytes (tmpId + threads))).MergeContent blocks run base := by
  let t := (s.store (pairWrite base run tmpId)).goto i (.pair blocks bytes (tmpId + threads))
  have hother : ∀ pair, pair ≠ tmpId → t.mergedPairs blocks pair = s.mergedPairs blocks pair := by
    intro pair hne
    refine mergedPairs_move (t := t) hwait hpc rfl rfl fun hpair => ?_
    simp only [Pc.tmpId]
    constructor
    · intro h
      by_contra hge
      exact hne (eq_of_mod_eq (hmod.trans hpair.symm) (by omega) h)
    · intro h
      omega
  have hself : t.mergedPairs blocks tmpId = true := by
    have hpos : 0 < threads := Nat.lt_of_le_of_lt (Nat.zero_le _) i.isLt
    rw [mergedPairs_of_thread hmod]
    simp [t, progress, goto, store, hwait, Pc.tmpId, hpos]
  have hdone : ∀ pair < blocks / 2, Function.update (s.mergedPairs blocks) tmpId true pair =
      t.mergedPairs blocks pair := by
    intro pair _
    by_cases h : pair = tmpId
    · rw [h, hself, Function.update_self]
    · rw [Function.update_of_ne h, hother pair h]
  constructor
  · rw [← mapBlocks_congr hdone, ← overwrite_mapBlocks (mergeHalves_length mergeRuns_length run)
      (Nat.le_trans (pairs_le blocks run) hroom) hlt, ← hs.mem]
    rfl
  · intro pair hpair h
    by_cases hp : pair = tmpId
    · exact hp ▸ hfits
    · exact hs.fits pair hpair (hother pair hp ▸ h)

omit [LT T] [DecidableLT T] in
/-- When all threads have come to the end of a pass, all its pairs are merged. -/
theorem mergedPairs_all (hpos : 0 < threads) (h : ∀ j, blocks / 2 ≤ s.progress blocks j) :
    ∀ pair < blocks / 2, s.mergedPairs blocks pair = true := by
  intro pair hlt
  rw [mergedPairs_of_thread (i := ⟨pair % threads, Nat.mod_lt _ hpos⟩) rfl, decide_eq_true_eq]
  exact Nat.lt_of_lt_of_le hlt (h _)

end Merging

end State

end OsispLabs.Lab6
