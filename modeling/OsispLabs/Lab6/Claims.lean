import OsispLabs.Lab6.SortThread
import OsispLabs.Lib.Counting

/-!
# The claim map

Under `map_mutex` every block is claimed by one thread: by number for the blocks that `main` marks,
through `find_next_free_block` for the others.
-/
namespace OsispLabs.Lab6
open Lib

variable {threads : ℕ} {T : Type*} {g : Globals T}

/-- The thread is between locking and unlocking `map_mutex`. -/
def Pc.inside : Pc T → Bool
  | .find | .mark _ | .unlock _ => true
  | _ => false

/-- The block that thread `i` has claimed and not yet written back. -/
def Pc.holds (i : ℕ) : Pc T → Option ℕ
  | .ready | .own => some i
  | .sorting block _ | .unlock (some block) | .claimed block => some block
  | _ => none

theorem Pc.holds_of_toSort {pc : Pc T} {i block : ℕ} (h : pc.toSort i = some block) :
    pc.holds i = some block := by
  rcases Pc.toSort_cases h with ⟨rfl, rfl⟩ | rfl <;> rfl

/-- The thread has found no free block. -/
def Pc.sawFull : Pc T → Bool
  | .unlock none | .exhausted | .pass .. | .pair .. | .merging .. | .passed .. | .done => true
  | _ => false

theorem Globals.findNextFreeBlock_some {blockMap : ℕ → Bool} {block : ℕ}
    (h : g.findNextFreeBlock blockMap = some block) :
    block < g.blockNum ∧ blockMap block = false := by
  have hmem := List.mem_of_find?_eq_some h
  have hfree := List.find?_some h
  exact ⟨by simpa using hmem, by simpa using hfree⟩

theorem Globals.findNextFreeBlock_none {blockMap : ℕ → Bool}
    (h : g.findNextFreeBlock blockMap = none) : ∀ block < g.blockNum, blockMap block = true := by
  intro block hlt
  have hmark := List.find?_eq_none.mp h block (by simpa using hlt)
  simpa using hmark

namespace State

section BarrierWait

variable (s : State threads T) (i : Fin threads) (pc : Pc T)

@[simp] theorem barrierWait_pc : (s.barrierWait i pc).pc = Function.update s.pc i pc := by
  unfold barrierWait
  split <;> rfl

@[simp] theorem barrierWait_blockMap : (s.barrierWait i pc).blockMap = s.blockMap := by
  unfold barrierWait
  split <;> rfl

@[simp] theorem barrierWait_mapMutex : (s.barrierWait i pc).mapMutex = s.mapMutex := by
  unfold barrierWait
  split <;> rfl

@[simp] theorem barrierWait_mem : (s.barrierWait i pc).mem = s.mem := by
  unfold barrierWait
  split <;> rfl

end BarrierWait

/-- When the last thread arrives, all others are in the barrier. -/
theorem others_waiting {s : State threads T} {i : Fin threads}
    (hcount : total Bool.toNat s.waiting = s.arrived) (hwait : s.waiting i = false)
    (hlast : s.arrived + 1 = threads) {j : Fin threads} (hj : j ≠ i) : s.waiting j = true := by
  have hout := total_toNat_add_not s.waiting
  rw [hcount, Fintype.card_fin] at hout
  cases hjwait : s.waiting j with
  | true => rfl
  | false =>
    have hone : total (fun b : Bool => (!b).toNat) s.waiting ≤ 1 := by omega
    exact absurd (eq_of_total_le_one hone (by rw [hjwait]; decide) (by rw [hwait]; decide)) hj

/-- The claim map, its mutex and the threads agree. -/
structure Claiming (blockNum : ℕ) (s : State threads T) : Prop where
  mutex : total (fun pc => pc.inside.toNat) s.pc = s.mapMutex.toNat
  free : ∀ i block, s.pc i = .mark block → block < blockNum ∧ s.blockMap block = false
  held : ∀ i block, (s.pc i).holds i = some block → block < blockNum ∧ s.blockMap block = true
  once : ∀ i j block, (s.pc i).holds i = some block → (s.pc j).holds j = some block → i = j
  full : ∀ i, (s.pc i).sawFull = true → ∀ block < blockNum, s.blockMap block = true

variable {s t : State threads T} {i j : Fin threads} {old new : Pc T} {blockNum : ℕ}

theorem start_claiming (mem : List (IndexS T)) (hle : threads ≤ blockNum) :
    (start threads mem).Claiming blockNum where
  mutex := total_eq_zero fun i => rfl
  free i block h := by simp [start] at h
  held i block h := by
    simp only [start, Pc.holds, Option.some.injEq] at h
    simp only [start, decide_eq_true_eq]
    omega
  once i j block hi hj := by
    simp only [start, Pc.holds, Option.some.injEq] at hi hj
    omega
  full i h := by simp [start, Pc.sawFull] at h

theorem Claiming.mapMutex (hs : s.Claiming blockNum) (h : (s.pc i).inside = true) :
    s.mapMutex = true := by
  have hle := apply_le_total (fun pc : Pc T => pc.inside.toNat) s.pc i
  rw [hs.mutex, h] at hle
  cases hmutex : s.mapMutex with
  | true => rfl
  | false =>
    rw [hmutex] at hle
    exact absurd hle (by decide)

theorem Claiming.alone (hs : s.Claiming blockNum) (hi : (s.pc i).inside = true)
    (hj : (s.pc j).inside = true) : i = j := by
  apply eq_of_total_le_one (w := fun pc : Pc T => pc.inside.toNat) (f := s.pc)
  · rw [hs.mutex]
    exact Bool.toNat_le s.mapMutex
  · simp [hi]
  · simp [hj]

theorem Claiming.locked (hs : s.Claiming blockNum) (h : s.mapMutex = true) :
    ∃ i, (s.pc i).inside = true := by
  have hpos : 0 < total (fun pc : Pc T => pc.inside.toNat) s.pc := by
    rw [hs.mutex, h]
    decide
  obtain ⟨i, hi⟩ := exists_of_total_pos hpos
  refine ⟨i, ?_⟩
  cases hin : (s.pc i).inside with
  | true => rfl
  | false =>
    rw [hin] at hi
    exact absurd hi (by decide)

/-- A property of all threads after one of them moved. -/
theorem forall_moved {P : Fin threads → Pc T → Prop} (hs : ∀ j, P j (s.pc j))
    (hnew : t.pc = Function.update s.pc i new) (hi : P i new) : ∀ j, P j (t.pc j) := by
  rw [hnew]
  exact (Function.forall_update_iff s.pc P).mpr ⟨hi, fun j _ => hs j⟩

/-- A step that marks no block. -/
theorem Claiming.move (hs : s.Claiming blockNum) (hpc : s.pc i = old)
    (hnew : t.pc = Function.update s.pc i new) (hmap : t.blockMap = s.blockMap)
    (hmutex : t.mapMutex.toNat + old.inside.toNat = s.mapMutex.toNat + new.inside.toNat)
    (hmark : ∀ block, new = .mark block → block < blockNum ∧ s.blockMap block = false)
    (hholds : ∀ block, new.holds i = some block → old.holds i = some block)
    (hfull : new.sawFull = true → ∀ block < blockNum, s.blockMap block = true) :
    t.Claiming blockNum := by
  have hold : ∀ j block, (t.pc j).holds j = some block → (s.pc j).holds j = some block := by
    apply forall_moved (P := fun j pc => ∀ block, pc.holds j = some block →
      (s.pc j).holds j = some block) (fun j block h => h) hnew
    rw [hpc]
    exact hholds
  constructor
  · have hcount := total_update (fun pc => pc.inside.toNat) s.pc i new
    rw [hpc, hs.mutex] at hcount
    rw [hnew]
    omega
  · rw [hmap]
    exact forall_moved (P := fun _ pc => ∀ block, pc = .mark block →
      block < blockNum ∧ s.blockMap block = false) hs.free hnew hmark
  · intro j block h
    rw [hmap]
    exact hs.held j block (hold j block h)
  · intro j k block hj hk
    exact hs.once j k block (hold j block hj) (hold k block hk)
  · rw [hmap]
    exact forall_moved (P := fun _ pc => pc.sawFull = true →
      ∀ block < blockNum, s.blockMap block = true) hs.full hnew hfull

theorem Claiming.mark (hs : s.Claiming blockNum) {block : ℕ} (hpc : s.pc i = .mark block) :
    ({ s with blockMap := Function.update s.blockMap block true }.goto i
      (.unlock (some block))).Claiming blockNum := by
  have hlt := (hs.free i block hpc).1
  have hfree := (hs.free i block hpc).2
  have hkeep : ∀ b, s.blockMap b = true → Function.update s.blockMap block true b = true := by
    intro b hb
    by_cases h : b = block <;> simp [h, hb]
  have hother : ∀ j, (s.pc j).holds j ≠ some block := fun j h => by
    simp [(hs.held j block h).2] at hfree
  constructor
  · have hcount := total_update (fun pc => pc.inside.toNat) s.pc i (.unlock (some block))
    rw [hpc, hs.mutex] at hcount
    exact Nat.add_right_cancel hcount
  · intro j b h
    by_cases hj : j = i
    · subst hj
      simp [goto] at h
    · simp only [goto, Function.update_of_ne hj] at h
      exact absurd (hs.alone (by simp [h, Pc.inside]) (by simp [hpc, Pc.inside])) hj
  · apply forall_moved (P := fun j pc => ∀ b, pc.holds j = some b → b < blockNum ∧
      Function.update s.blockMap block true b = true) _ rfl
    · intro b h
      obtain rfl : block = b := by simpa [Pc.holds] using h
      simp [hlt]
    · intro j b h
      exact ⟨(hs.held j b h).1, hkeep b (hs.held j b h).2⟩
  · intro j k b hj hk
    by_cases hji : j = i <;> by_cases hki : k = i
    · rw [hji, hki]
    · subst hji
      simp only [goto, Function.update_self, Function.update_of_ne hki] at hj hk
      obtain rfl : block = b := by simpa [Pc.holds] using hj
      exact absurd hk (hother k)
    · subst hki
      simp only [goto, Function.update_self, Function.update_of_ne hji] at hj hk
      obtain rfl : block = b := by simpa [Pc.holds] using hk
      exact absurd hj (hother j)
    · simp only [goto, Function.update_of_ne hji, Function.update_of_ne hki] at hj hk
      exact hs.once j k b hj hk
  · intro j h b hb
    by_cases hj : j = i
    · subst hj
      simp [goto, Pc.sawFull] at h
    · simp only [goto, Function.update_of_ne hj] at h
      exact hkeep b (hs.full j h b hb)

variable [LT T] [DecidableLT T]

theorem Step.claiming (h : Step g s i t) (hs : s.Claiming g.blockNum) : t.Claiming g.blockNum := by
  cases h with
  | enter hpc =>
    exact hs.move hpc (s.barrierWait_pc i .own) (by simp) (by simp [Pc.inside]) nofun
      (fun _ h => h) nofun
  | sort block write hpc hwrite =>
    refine hs.move (t := s.goto i (.sorting block write)) rfl rfl rfl ?_ nofun ?_ nofun
    · rcases Pc.toSort_cases hpc with ⟨hold, -⟩ | hold <;> rw [hold] <;> rfl
    · intro b h
      rw [Pc.holds_of_toSort hpc]
      exact h
  | sortUndefined block hpc hwrite =>
    refine hs.move (t := s.goto i .undefined) rfl rfl rfl ?_ nofun nofun nofun
    rcases Pc.toSort_cases hpc with ⟨hold, -⟩ | hold <;> rw [hold] <;> rfl
  | sorted block write hpc => exact hs.move hpc rfl rfl rfl nofun nofun nofun
  | lock hpc hfree => exact hs.move hpc rfl rfl (by simp [goto, hfree, Pc.inside]) nofun nofun nofun
  | found block hpc hfind =>
    refine hs.move hpc rfl rfl rfl (fun b h => ?_) nofun nofun
    obtain rfl : block = b := by simpa using h
    exact g.findNextFreeBlock_some hfind
  | notFound hpc hfind =>
    exact hs.move hpc rfl rfl rfl nofun nofun fun _ => g.findNextFreeBlock_none hfind
  | mark block hpc => exact hs.mark hpc
  | unlock block hpc =>
    have hmutex := hs.mapMutex (i := i) (by rw [hpc]; rfl)
    exact hs.move hpc rfl rfl (by simp [goto, hmutex, Pc.inside]) nofun (fun _ h => h) nofun
  | unlockLast hpc =>
    have hmutex := hs.mapMutex (i := i) (by rw [hpc]; rfl)
    exact hs.move hpc rfl rfl (by simp [goto, hmutex, Pc.inside]) nofun nofun fun _ =>
      hs.full i (by rw [hpc]; rfl)
  | exhaust hpc =>
    exact hs.move hpc (s.barrierWait_pc i _) (by simp) (by simp [Pc.inside]) nofun nofun fun _ =>
      hs.full i (by rw [hpc]; rfl)
  | pass blocks size hpc hone =>
    exact hs.move hpc rfl rfl rfl nofun nofun fun _ => hs.full i (by rw [hpc]; rfl)
  | leave blocks size hpc hone =>
    exact hs.move hpc (s.barrierWait_pc i _) (by simp) (by simp [Pc.inside]) nofun nofun fun _ =>
      hs.full i (by rw [hpc]; rfl)
  | merge blocks size tmpId write hpc hid hwrite =>
    exact hs.move hpc rfl rfl rfl nofun nofun fun _ => hs.full i (by rw [hpc]; rfl)
  | mergeUndefined blocks size tmpId hpc hid hwrite =>
    exact hs.move hpc rfl rfl rfl nofun nofun nofun
  | skip blocks size tmpId hpc hid hthread =>
    exact hs.move hpc rfl rfl rfl nofun nofun fun _ => hs.full i (by rw [hpc]; rfl)
  | merged blocks size tmpId write hpc =>
    exact hs.move hpc rfl rfl rfl nofun nofun fun _ => hs.full i (by rw [hpc]; rfl)
  | passEnd blocks size tmpId hpc hid =>
    exact hs.move hpc (s.barrierWait_pc i _) (by simp) (by simp [Pc.inside]) nofun nofun fun _ =>
      hs.full i (by rw [hpc]; rfl)
  | double blocks size doubled hpc hdouble =>
    exact hs.move hpc rfl rfl rfl nofun nofun fun _ => hs.full i (by rw [hpc]; rfl)
  | doubleUndefined blocks size hpc hdouble =>
    exact hs.move hpc rfl rfl rfl nofun nofun nofun

end State

end OsispLabs.Lab6
