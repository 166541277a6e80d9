import OsispLabs.Lab6.Schedule

/-!
# All interleavings of one chunk

A step of any thread keeps the invariant or is undefined; when the offsets fit no step is
undefined.
-/
namespace OsispLabs.Lab6
open Lib

namespace State

variable {T : Type*} {threads : ℕ} [LT T] [DecidableLT T] {g : Globals T} {size : ℕ}
  {mem₀ base : List (IndexS T)} {s t : State threads T} {i : Fin threads} {old new : Pc T}
  {st : Stage T} {blocks run : ℕ}

section Barrier

theorem Lawful.arrive (hs : s.Lawful g size mem₀ st) (hwait : s.waiting i = false)
    (hsize : g.blockSize = (16 * size : ℕ)) (hfit : 16 * size < 2 ^ 31)
    (hclaiming : (s.barrierWait i new).Claiming g.blockNum) (hnew : st.Waits g new)
    (hsame : s.arrived + 1 ≠ threads → (s.barrierWait i new).Content g size mem₀ st)
    (hnext : s.arrived + 1 = threads → (st.next g size mem₀).Valid g size mem₀ ∧
      (s.barrierWait i new).Content g size mem₀ (st.next g size mem₀)) :
    ∃ st', (s.barrierWait i new).Lawful g size mem₀ st' := by
  by_cases hlast : s.arrived + 1 = threads
  · exact ⟨_, hclaiming, hs.phased.release hwait hnew hlast hsize hfit, (hnext hlast).1,
      (hnext hlast).2⟩
  · exact ⟨st, hclaiming, hs.phased.arrive hwait hnew hlast, hs.valid, hsame hlast⟩

omit [LT T] [DecidableLT T] in
theorem release_progress (hlast : s.arrived + 1 = threads) (j : Fin threads) :
    (s.barrierWait i new).progress blocks j = (Function.update s.pc i new j).tmpId := by
  simp [barrierWait, hlast, progress, goto]

/-- When the last thread arrives and no thread is inside a pair, a pass starts. -/
theorem release_fresh (hlast : s.arrived + 1 = threads) (hmem : s.mem = base)
    (hnew : new.tmpId = 0) (hother : ∀ j, j ≠ i → (s.pc j).tmpId = 0) :
    (s.barrierWait i new).MergeContent blocks run base := by
  apply MergeContent.fresh
  · rw [barrierWait_mem, hmem]
  · intro j
    rw [release_progress hlast]
    by_cases hj : j = i
    · rw [hj, Function.update_self, hnew]
    · rw [Function.update_of_ne hj, hother j hj]

omit [LT T] [DecidableLT T] in
theorem arrive_progress (hmore : s.arrived + 1 ≠ threads) (j : Fin threads) :
    (s.barrierWait i new).progress blocks j =
      if j = i then blocks else s.progress blocks j := by
  by_cases hj : j = i
  · subst hj
    simp [barrierWait, hmore, progress, goto]
  · simp [barrierWait, hmore, progress, goto, hj]

/-- The last thread comes to the end of the sorting. -/
theorem Lawful.sorted_all (hs : s.Lawful g size mem₀ .sorting) (hwait : s.waiting i = false)
    (hroom : g.blockNum * size ≤ mem₀.length) (hpos : 0 < g.blockNum) (hpc : s.pc i = .exhausted)
    (hlast : s.arrived + 1 = threads) :
    MergeStage g size mem₀ g.blockNum size (g.sortedAll size mem₀) ∧
      (s.barrierWait i (.pass g.blockNum g.blockSize)).MergeContent g.blockNum size
        (g.sortedAll size mem₀) := by
  have hother : ∀ j, j ≠ i → ∃ blocks bytes, s.pc j = .pass blocks bytes := by
    intro j hj
    have hwaits := hs.phased.waits j (hs.phased.others hwait hlast hj)
    cases hold : s.pc j <;> rw [hold] at hwaits <;> first | exact hwaits.elim | exact ⟨_, _, rfl⟩
  have hnone : ∀ j, (s.pc j).holds j = none := by
    intro j
    by_cases hj : j = i
    · rw [hj, hpc]
      rfl
    · obtain ⟨blocks, bytes, hold⟩ := hother j hj
      rw [hold]
      rfl
  have hall : ∀ block < g.blockNum, s.sortedBlocks block = true := fun block =>
    sortedBlocks_all hs.claiming (i := i) (by rw [hpc]; rfl) hnone
  have hcontent : s.SortContent g size mem₀ := hs.content
  have hmem : s.mem = g.sortedAll size mem₀ := by
    rw [hcontent.mem, Globals.sortedAll]
    exact mapBlocks_congr hall
  refine ⟨⟨hpos, ?_, hroom, rfl, fun h => h, fun h => h, fun block hlt => ?_⟩, ?_⟩
  · exact mapBlocks_length g.qsort.length_sort
  · exact hcontent.fits block hlt (hall block hlt)
  · apply release_fresh hlast hmem rfl
    intro j hj
    obtain ⟨blocks, bytes, hold⟩ := hother j hj
    rw [hold]
    rfl

/-- The last thread comes to the end of a pass. -/
theorem Lawful.passed_all (hs : s.Lawful g size mem₀ (.merging blocks run base))
    (hwait : s.waiting i = false) {bytes : ℤ} {tmpId : ℕ} (hpc : s.pc i = .pair blocks bytes tmpId)
    (hid : ¬ tmpId < blocks / 2) (hone : 1 < blocks) (hlast : s.arrived + 1 = threads) :
    MergeStage g size mem₀ (blocks / 2) (2 * run) (mergePass mergeRuns blocks run base) ∧
      (s.barrierWait i (.passed blocks bytes)).MergeContent (blocks / 2) (2 * run)
        (mergePass mergeRuns blocks run base) := by
  have hcontent : s.MergeContent blocks run base := hs.content
  have hstage : MergeStage g size mem₀ blocks run base := hs.valid
  have hother : ∀ j, j ≠ i → s.waiting j = true := fun j hj => hs.phased.others hwait hlast hj
  have hprogress : ∀ j, blocks / 2 ≤ s.progress blocks j := by
    intro j
    by_cases hj : j = i
    · subst hj
      simp only [progress, hwait, hpc, Pc.tmpId]
      simpa using hid
    · simp only [progress, hother j hj, if_true]
      exact Nat.div_le_self blocks 2
  have hall := mergedPairs_all (Nat.lt_of_le_of_lt (Nat.zero_le _) i.isLt) hprogress
  have hmem : s.mem = mergePass mergeRuns blocks run base := by
    rw [hcontent.mem, mergePass]
    exact mapBlocks_congr hall
  constructor
  · constructor
    · omega
    · rw [mergePass_length mergeRuns_length, hstage.length]
    · exact Nat.le_trans (pairs_le blocks run) hstage.room
    · rw [← hstage.result, mergeTree_of_one_lt hone]
    · intro hrest
      apply hstage.passes
      rw [Nat.mul_left_comm] at hrest
      exact (passesFit_halve hone).mpr
        ⟨fun pair hlt => hcontent.fits pair hlt (hall pair hlt), hrest⟩
    · intro hfits
      rw [Nat.mul_left_comm]
      exact ((passesFit_halve hone).mp (hstage.fits hfits)).2
    · exact hstage.blocksFit
  · apply release_fresh hlast hmem rfl
    intro j hj
    have hwaits := hs.phased.waits j (hother j hj)
    cases hold : s.pc j <;> rw [hold] at hwaits <;> first | exact hwaits.elim | rfl

/-- The last thread leaves the merge loop. -/
theorem Lawful.left_all (hs : s.Lawful g size mem₀ (.merging blocks run base))
    (hone : ¬ 1 < blocks) (hrun : 16 * run < 2 ^ 31) :
    (PassesFit g.blockNum (16 * size) ∧ g.BlocksFit size) ∧ s.mem = g.result size mem₀ := by
  have hcontent : s.MergeContent blocks run base := hs.content
  have hstage : MergeStage g size mem₀ blocks run base := hs.valid
  have hhalf : blocks / 2 = 0 := by omega
  refine ⟨⟨hstage.passes (passesFit_of_le_one (by omega) hrun), hstage.blocksFit⟩, ?_⟩
  rw [hcontent.mem, hhalf, ← hstage.result, mergeTree_of_le_one (by omega)]
  rfl

end Barrier

/-- A thread that moves outside the barrier. -/
theorem Lawful.move (hs : s.Lawful g size mem₀ st) (hwait : s.waiting i = false)
    (hclaiming : t.Claiming g.blockNum) (hnew : t.pc = Function.update s.pc i new)
    (hwaiting : t.waiting = s.waiting) (harrived : t.arrived = s.arrived)
    (hruns : st.Runs g size mem₀ threads i new) (hcontent : t.Content g size mem₀ st) :
    ∃ st', t.Lawful g size mem₀ st' :=
  ⟨st, hclaiming, hs.phased.move hwait hnew hwaiting harrived hruns, hs.valid, hcontent⟩

/-- A thread that moves while it looks for blocks. -/
theorem Lawful.search (hs : s.Lawful g size mem₀ st) (hwait : s.waiting i = false)
    (hclaiming : t.Claiming g.blockNum) (hpc : s.pc i = old) (hold : old.sorts = true)
    (hnew : t.pc = Function.update s.pc i new) (hwaiting : t.waiting = s.waiting)
    (harrived : t.arrived = s.arrived) (hmem : t.mem = s.mem) (hmap : t.blockMap = s.blockMap)
    (hholds : new.holds i = old.holds i)
    (hruns : Stage.sorting.Runs g size mem₀ threads i new) : ∃ st', t.Lawful g size mem₀ st' := by
  subst hpc
  obtain rfl := (hs.phased.runs i hwait).eq_sorting hold
  have hcontent : s.SortContent g size mem₀ := hs.content
  exact hs.move hwait hclaiming hnew hwaiting harrived hruns
    (hcontent.move rfl hnew hmap hmem hholds)

/-- A thread that begins to sort a block it holds. -/
theorem Lawful.sort (hs : s.Lawful g size mem₀ st) (hwait : s.waiting i = false)
    (hsize : g.blockSize = (16 * size : ℕ)) (hfit : 16 * size < 2 ^ 31)
    (hroom : g.blockNum * size ≤ mem₀.length) {block : ℕ} {write : Write T}
    (hpc : (s.pc i).toSort i = some block) (hwrite : g.sortBlock s.mem block = some write)
    (hclaiming : (s.goto i (.sorting block write)).Claiming g.blockNum) :
    ∃ st', (s.goto i (.sorting block write)).Lawful g size mem₀ st' := by
  obtain rfl := (hs.phased.runs i hwait).eq_sorting (Pc.sorts_of_toSort hpc)
  have hheld := Pc.holds_of_toSort hpc
  have hcontent : s.SortContent g size mem₀ := hs.content
  rw [Globals.sortBlock_eq hsize hfit] at hwrite
  split at hwrite
  · rename_i hfits
    have hlt := (hs.claiming.held i block hheld).1
    obtain rfl := Option.some.inj hwrite
    refine hs.move hwait hclaiming rfl rfl rfl ⟨?_, hfits.1⟩ ?_
    · rw [Globals.sortedBlock, hcontent.window_eq hroom hlt hheld]
      rfl
    · exact hcontent.move rfl rfl rfl rfl hheld.symm
  · cases hwrite

/-- Each step keeps the invariant, unless its thread becomes undefined. -/
theorem Step.lawful (hsize : g.blockSize = (16 * size : ℕ)) (hfit : 16 * size < 2 ^ 31)
    (hroom : g.blockNum * size ≤ mem₀.length) (hpos : 0 < g.blockNum) (h : Step g s i t)
    (hwait : s.waiting i = false) (hs : s.Lawful g size mem₀ st) (hdef : t.pc i ≠ .undefined) :
    ∃ st', t.Lawful g size mem₀ st' := by
  have hclaiming := h.claiming hs.claiming
  have hruns := hs.phased.runs i hwait
  cases h with
  | enter hpc =>
    rw [hpc] at hruns
    obtain rfl := hruns.eq_starting
    have hcontent : s.SortContent g size mem₀ := hs.content
    have hmove := hcontent.move hpc (s.barrierWait_pc i .own) (by simp) (by simp) rfl
    exact hs.arrive hwait hsize hfit hclaiming trivial (fun _ => hmove) fun _ => ⟨trivial, hmove⟩
  | sort block write hpc hwrite => exact hs.sort hwait hsize hfit hroom hpc hwrite hclaiming
  | sortUndefined block hpc hwrite => exact absurd (by simp [goto]) hdef
  | sorted block write hpc =>
    rw [hpc] at hruns
    obtain rfl := hruns.eq_sorting rfl
    obtain ⟨rfl, hfits⟩ := hruns
    have hcontent : s.SortContent g size mem₀ := hs.content
    exact hs.move hwait hclaiming rfl rfl rfl trivial
      (hcontent.sorted hs.claiming hroom hpc hfits)
  | lock hpc hfree => exact hs.search hwait hclaiming hpc rfl rfl rfl rfl rfl rfl rfl trivial
  | found block hpc hfind =>
    exact hs.search hwait hclaiming hpc rfl rfl rfl rfl rfl rfl rfl trivial
  | notFound hpc hfind =>
    exact hs.search hwait hclaiming hpc rfl rfl rfl rfl rfl rfl rfl trivial
  | mark block hpc =>
    rw [hpc] at hruns
    obtain rfl := hruns.eq_sorting rfl
    have hcontent : s.SortContent g size mem₀ := hs.content
    exact hs.move hwait hclaiming rfl rfl rfl trivial
      (hcontent.of_eq rfl (sortedBlocks_mark hs.claiming hpc))
  | unlock block hpc => exact hs.search hwait hclaiming hpc rfl rfl rfl rfl rfl rfl rfl trivial
  | unlockLast hpc => exact hs.search hwait hclaiming hpc rfl rfl rfl rfl rfl rfl rfl trivial
  | exhaust hpc =>
    rw [hpc] at hruns
    obtain rfl := hruns.eq_sorting rfl
    have hcontent : s.SortContent g size mem₀ := hs.content
    exact hs.arrive hwait hsize hfit hclaiming ⟨rfl, rfl⟩
      (fun _ => hcontent.move hpc (s.barrierWait_pc i _) (by simp) (by simp) rfl)
      (hs.sorted_all hwait hroom hpos hpc)
  | pass blocks bytes hpc hone =>
    rw [hpc] at hruns
    obtain ⟨run, base, rfl, rfl, hrun⟩ := hruns.pass
    have hcontent : s.MergeContent blocks run base := hs.content
    refine hs.move hwait hclaiming rfl rfl rfl ⟨rfl, rfl, hrun, hone, Nat.mod_eq_of_lt i.isLt⟩ ?_
    refine hcontent.of_eq rfl fun pair _ => mergedPairs_move hwait hpc rfl rfl fun hmod => ?_
    have hle := Nat.mod_le pair threads
    simp only [Pc.tmpId]
    omega
  | leave blocks bytes hpc hone =>
    rw [hpc] at hruns
    obtain ⟨run, base, rfl, rfl, hrun⟩ := hruns.pass
    have hcontent : s.MergeContent blocks run base := hs.content
    apply hs.arrive hwait hsize hfit hclaiming ⟨by omega, hrun⟩
    · intro _
      refine hcontent.of_eq (by simp) fun pair hlt => ?_
      omega
    · intro _
      have hleft := hs.left_all hone hrun
      rw [Stage.next, if_neg hone]
      exact ⟨hleft.1, by simpa [Content] using hleft.2⟩
  | merge blocks bytes tmpId write hpc hid hwrite =>
    rw [hpc] at hruns
    obtain ⟨run, base, rfl, rfl, hrun, hone, hmod⟩ := hruns.pair
    have hcontent : s.MergeContent blocks run base := hs.content
    have hstage : MergeStage g size mem₀ blocks run base := hs.valid
    rw [mergeBytes_merges s.mem run tmpId hrun (by omega)] at hwrite
    split at hwrite
    · rename_i hfits
      obtain rfl := Option.some.inj hwrite
      have hnot : s.mergedPairs blocks tmpId = false := by
        rw [mergedPairs_of_thread hmod]
        simp [progress, hwait, hpc, Pc.tmpId]
      refine hs.move hwait hclaiming rfl rfl rfl ⟨rfl, rfl, hrun, hone, hmod, hid, ?_, hfits.1⟩ ?_
      · exact hcontent.pairWrite_eq (hstage.length ▸ hstage.room) hid hnot
      · exact hcontent.of_eq rfl fun pair _ => mergedPairs_move hwait hpc rfl rfl fun _ => Iff.rfl
    · cases hwrite
  | mergeUndefined blocks bytes tmpId hpc hid hwrite => exact absurd (by simp [goto]) hdef
  | skip blocks bytes tmpId hpc hid hthread =>
    rw [hpc] at hruns
    obtain ⟨run, base, rfl, rfl, hrun, hone, hmod⟩ := hruns.pair
    have hle := Nat.mod_le tmpId threads
    omega
  | merged blocks bytes tmpId write hpc =>
    rw [hpc] at hruns
    obtain ⟨run, base, rfl, rfl, hrun, hone, hmod, hid, rfl, hfits⟩ := hruns.merging
    have hcontent : s.MergeContent blocks run base := hs.content
    have hstage : MergeStage g size mem₀ blocks run base := hs.valid
    refine hs.move hwait hclaiming rfl rfl rfl ⟨rfl, rfl, hrun, hone, ?_⟩ ?_
    · rw [Nat.add_mod_right, hmod]
    · exact hcontent.merged (hstage.length ▸ hstage.room) hwait hpc hmod hid hfits
  | passEnd blocks bytes tmpId hpc hid =>
    rw [hpc] at hruns
    obtain ⟨run, base, rfl, rfl, hrun, hone, hmod⟩ := hruns.pair
    have hcontent : s.MergeContent blocks run base := hs.content
    apply hs.arrive hwait hsize hfit hclaiming ⟨rfl, rfl, hone⟩
    · intro hmore
      refine hcontent.of_eq (by simp) fun pair hlt => mergedPairs_congr fun j _ => ?_
      rw [arrive_progress hmore]
      by_cases hj : j = i
      · subst hj
        simp only [if_true, progress, hwait, hpc, Pc.tmpId]
        simp
        omega
      · rw [if_neg hj]
    · intro hlast
      rw [Stage.next, if_pos hone]
      exact hs.passed_all hwait hpc hid hone hlast
  | double blocks bytes doubled hpc hdouble =>
    rw [hpc] at hruns
    obtain ⟨run, base, rfl, hone, hbytes⟩ := hruns.passed
    obtain ⟨hint, rfl⟩ := intMul_eq_some.mp hdouble
    have hcontent : s.MergeContent (blocks / 2) run base := hs.content
    refine hs.move hwait hclaiming rfl rfl rfl ⟨rfl, hbytes, ?_⟩ ?_
    · rw [IsInt] at hint
      omega
    · exact hcontent.of_eq rfl fun pair _ => mergedPairs_move hwait hpc rfl rfl fun _ => Iff.rfl
  | doubleUndefined blocks bytes hpc hdouble => exact absurd (by simp [goto]) hdef

/-- When the offsets fit, no step is undefined. -/
theorem Step.defined (hsize : g.blockSize = (16 * size : ℕ)) (hfit : 16 * size < 2 ^ 31)
    (hroom : g.blockNum * size ≤ mem₀.length) (hblocks : g.BlocksFit size)
    (hpasses : PassesFit g.blockNum (16 * size)) (h : Step g s i t) (hwait : s.waiting i = false)
    (hs : s.Lawful g size mem₀ st) : t.pc i ≠ .undefined := by
  have hruns := hs.phased.runs i hwait
  cases h with
  | sortUndefined block hpc hwrite =>
    obtain rfl := hruns.eq_sorting (Pc.sorts_of_toSort hpc)
    have hcontent : s.SortContent g size mem₀ := hs.content
    have hlt := (hs.claiming.held i block (Pc.holds_of_toSort hpc)).1
    have hend := Nat.le_trans (Nat.mul_le_mul_right size hlt) hroom
    rw [Nat.succ_mul] at hend
    rw [Globals.sortBlock_eq hsize hfit, hcontent.length,
      if_pos ⟨hblocks block hlt, hend⟩] at hwrite
    cases hwrite
  | mergeUndefined blocks bytes tmpId hpc hid hwrite =>
    rw [hpc] at hruns
    obtain ⟨run, base, rfl, rfl, hrun, hone, hmod⟩ := hruns.pair
    have hcontent : s.MergeContent blocks run base := hs.content
    have hstage : MergeStage g size mem₀ blocks run base := hs.valid
    have hpair := ((passesFit_halve hone).mp (hstage.fits hpasses)).1 tmpId hid
    have hend : (tmpId + 1) * (2 * run) ≤ mem₀.length :=
      Nat.le_trans (Nat.mul_le_mul_right _ hid) (Nat.le_trans (pairs_le blocks run) hstage.room)
    rw [mergeBytes_merges s.mem run tmpId hrun (by omega), hcontent.length, hstage.length,
      if_pos ⟨hpair, hend⟩] at hwrite
    cases hwrite
  | doubleUndefined blocks bytes hpc hdouble =>
    rw [hpc] at hruns
    obtain ⟨run, base, rfl, hone, hbytes⟩ := hruns.passed
    have hstage : MergeStage g size mem₀ (blocks / 2) run base := hs.valid
    have hlarge := (hstage.fits hpasses).run_lt
    rw [intMul, if_pos (by rw [IsInt]; omega)] at hdouble
    cases hdouble
  | enter hpc | exhaust hpc | leave blocks bytes hpc hone | passEnd blocks bytes tmpId hpc hid =>
    simp
  | _ => simp [goto]

/-- A thread that is undefined stays so. -/
theorem Step.stuck (h : Step g s i t) {j : Fin threads} (hj : s.pc j = .undefined) :
    t.pc j = .undefined := by
  have hstay : ∀ {u : State threads T} {pc : Pc T}, u.pc = Function.update s.pc i pc →
      s.pc i ≠ .undefined → u.pc j = .undefined := by
    intro u pc hu hi
    have hji : j ≠ i := fun h => hi (h ▸ hj)
    rw [hu, Function.update_of_ne hji, hj]
  cases h with
  | enter hpc => exact hstay (s.barrierWait_pc i _) (by simp [hpc])
  | exhaust hpc => exact hstay (s.barrierWait_pc i _) (by simp [hpc])
  | leave blocks bytes hpc hone => exact hstay (s.barrierWait_pc i _) (by simp [hpc])
  | passEnd blocks bytes tmpId hpc hid => exact hstay (s.barrierWait_pc i _) (by simp [hpc])
  | sort block write hpc hwrite => exact hstay rfl fun h => by simp [h, Pc.toSort] at hpc
  | sortUndefined block hpc hwrite => exact hstay rfl fun h => by simp [h, Pc.toSort] at hpc
  | lock hpc hfree => exact hstay rfl (by simp [hpc])
  | found block hpc hfind => exact hstay rfl (by simp [hpc])
  | notFound hpc hfind => exact hstay rfl (by simp [hpc])
  | pass blocks bytes hpc hone => exact hstay rfl (by simp [hpc])
  | merge blocks bytes tmpId write hpc hid hwrite => exact hstay rfl (by simp [hpc])
  | mergeUndefined blocks bytes tmpId hpc hid hwrite => exact hstay rfl (by simp [hpc])
  | skip blocks bytes tmpId hpc hid hthread => exact hstay rfl (by simp [hpc])
  | double blocks bytes doubled hpc hdouble => exact hstay rfl (by simp [hpc])
  | doubleUndefined blocks bytes hpc hdouble => exact hstay rfl (by simp [hpc])
  | sorted _ _ hpc | mark _ hpc | unlock _ hpc | unlockLast hpc | merged _ _ _ _ hpc =>
    exact hstay rfl (by simp [hpc])

end State

end OsispLabs.Lab6
