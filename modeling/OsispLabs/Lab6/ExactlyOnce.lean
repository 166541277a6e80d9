import OsispLabs.Lab6.History

/-!
# Each block and each pair exactly once

The record of every interleaving that does nothing undefined: which blocks are sorted, which pairs
of a pass are merged, and how the positions of different threads are related.
-/
namespace OsispLabs.Lab6
open Lib

variable {threads : ℕ} {T : Type*}

/-- Thread `i` at its position, after `p` passes and `w` barrier waits. -/
def Pc.Placed (g : Globals T) (threads i p w : ℕ) : Pc T → Prop
  | .ready => p = 0 ∧ w = 0
  | .own | .sorting _ _ | .lock | .find | .mark _ | .unlock _ | .claimed _ | .exhausted =>
    p = 0 ∧ w = 1
  | .pass blocks bytes =>
    blocks = g.blockNum / 2 ^ p ∧ bytes = g.blockSize * 2 ^ p ∧ w = 2 + p
  | .pair blocks bytes tmpId =>
    blocks = g.blockNum / 2 ^ p ∧ bytes = g.blockSize * 2 ^ p ∧ w = 2 + p ∧ tmpId % threads = i
  | .merging blocks bytes tmpId _ =>
    blocks = g.blockNum / 2 ^ p ∧ bytes = g.blockSize * 2 ^ p ∧ w = 2 + p ∧
      tmpId % threads = i ∧ tmpId < blocks / 2
  | .passed blocks bytes =>
    blocks = g.blockNum / 2 ^ p ∧ bytes = g.blockSize * 2 ^ p ∧ w = 3 + p
  | .done => g.blockNum / 2 ^ p ≤ 1 ∧ w = 3 + p
  | .undefined => False

/-- Of its pairs in its present pass, the thread has merged those below this number. -/
def Pc.cursor : Pc T → ℕ
  | .pair _ _ tmpId | .merging _ _ tmpId _ => tmpId
  | .passed blocks _ => blocks
  | _ => 0

namespace State

variable [LT T] [DecidableLT T] {g : Globals T} {s t : State threads T} {i : Fin threads}

theorem Step.placed (h : Step g s i t) (hdef : t.pc i ≠ .undefined) {p w : ℕ}
    (hs : (s.pc i).Placed g threads i p w) : (t.pc i).Placed g threads i
      (p + (s.pc i).halves) (w + (s.pc i).arrives) := by
  cases h with
  | sort block write hpc hwrite =>
    rcases Pc.toSort_cases hpc with ⟨hold, -⟩ | hold <;> rw [hold] at hs ⊢ <;>
      simpa [goto, Pc.Placed, Pc.halves, Pc.arrives] using hs
  | sortUndefined block hpc hwrite => exact absurd (by simp [goto]) hdef
  | mergeUndefined blocks size tmpId hpc hid hwrite => exact absurd (by simp [goto]) hdef
  | doubleUndefined blocks size hpc hdouble => exact absurd (by simp [goto]) hdef
  | enter hpc | exhaust hpc =>
    rw [hpc] at hs
    obtain ⟨rfl, rfl⟩ := hs
    simp [hpc, Pc.Placed, Pc.halves, Pc.arrives]
  | sorted block write hpc | lock hpc hfree | found block hpc hfind | notFound hpc hfind
  | mark block hpc | unlock block hpc | unlockLast hpc =>
    rw [hpc] at hs
    simpa [goto, hpc, Pc.Placed, Pc.halves, Pc.arrives] using hs
  | pass blocks size hpc hone =>
    rw [hpc] at hs
    have hmod := Nat.mod_eq_of_lt i.isLt
    simpa [goto, hpc, Pc.Placed, Pc.halves, Pc.arrives, hone, hmod] using hs
  | leave blocks size hpc hone =>
    rw [hpc] at hs
    obtain ⟨rfl, rfl, rfl⟩ := hs
    simp [hpc, Pc.Placed, Pc.halves, Pc.arrives, hone]
    omega
  | merge blocks size tmpId write hpc hid hwrite =>
    rw [hpc] at hs
    simpa [goto, hpc, Pc.Placed, Pc.halves, Pc.arrives, hid] using hs
  | skip blocks size tmpId hpc hid hthread =>
    rw [hpc] at hs
    simpa [goto, hpc, Pc.Placed, Pc.halves, Pc.arrives, hid] using hs
  | merged blocks size tmpId write hpc =>
    rw [hpc] at hs
    obtain ⟨rfl, rfl, rfl, hmod, hid⟩ := hs
    simpa [goto, hpc, Pc.Placed, Pc.halves, Pc.arrives] using hmod
  | passEnd blocks size tmpId hpc hid =>
    rw [hpc] at hs
    obtain ⟨rfl, rfl, rfl, hmod⟩ := hs
    simp [hpc, Pc.Placed, Pc.halves, Pc.arrives, hid]
    omega
  | double blocks size doubled hpc hdouble =>
    rw [hpc] at hs
    obtain ⟨rfl, rfl, rfl⟩ := hs
    obtain ⟨-, rfl⟩ := intMul_eq_some.mp hdouble
    simp [goto, hpc, Pc.Placed, Pc.halves, Pc.arrives, Nat.div_div_eq_div_mul, pow_succ]
    exact ⟨Int.mul_assoc _ _ _, by omega⟩

theorem Step.pc_other (h : Step g s i t) {j : Fin threads} (hj : j ≠ i) : t.pc j = s.pc j := by
  have hbarrier : ∀ pc, (s.barrierWait i pc).pc j = s.pc j := fun pc => by
    rw [barrierWait_pc, Function.update_of_ne hj]
  cases h with
  | enter => exact hbarrier _
  | exhaust => exact hbarrier _
  | leave => exact hbarrier _
  | passEnd => exact hbarrier _
  | sort | sortUndefined | sorted | lock | found | notFound | mark | unlock | unlockLast | pass
  | merge | mergeUndefined | skip | merged | double | doubleUndefined =>
    exact Function.update_of_ne hj _ _

/-- A step into the barrier and a step outside it. -/
theorem Step.barrier (h : Step g s i t)
    (hothers : s.arrived + 1 = threads → ∀ j, j ≠ i → s.waiting j = true) :
    (s.pc i).arrives = 0 ∧ t.waiting = s.waiting ∧ t.arrived = s.arrived ∨
    (s.pc i).arrives = 1 ∧ s.arrived + 1 ≠ threads ∧ t.arrived = s.arrived + 1 ∧
      t.waiting = Function.update s.waiting i true ∨
    (s.pc i).arrives = 1 ∧ (∀ j, j ≠ i → s.waiting j = true) ∧ t.arrived = 0 ∧
      ∀ j, t.waiting j = false := by
  have hbarrier : ∀ pc, (s.pc i).arrives = 1 → t = s.barrierWait i pc →
      (s.pc i).arrives = 1 ∧ s.arrived + 1 ≠ threads ∧ t.arrived = s.arrived + 1 ∧
        t.waiting = Function.update s.waiting i true ∨
      (s.pc i).arrives = 1 ∧ (∀ j, j ≠ i → s.waiting j = true) ∧ t.arrived = 0 ∧
        ∀ j, t.waiting j = false := by
    rintro pc harrives rfl
    by_cases hlast : s.arrived + 1 = threads
    · right
      rw [barrierWait, if_pos hlast]
      exact ⟨harrives, hothers hlast, rfl, fun _ => rfl⟩
    · left
      rw [barrierWait, if_neg hlast]
      exact ⟨harrives, hlast, rfl, rfl⟩
  cases h with
  | enter hpc => exact .inr (hbarrier _ (by rw [hpc]; rfl) rfl)
  | exhaust hpc => exact .inr (hbarrier _ (by rw [hpc]; rfl) rfl)
  | leave blocks size hpc hone => exact .inr (hbarrier _ (by simp [hpc, Pc.arrives, hone]) rfl)
  | passEnd blocks size tmpId hpc hid =>
    exact .inr (hbarrier _ (by simp [hpc, Pc.arrives, hid]) rfl)
  | sort block write hpc hwrite =>
    left
    refine ⟨?_, rfl, rfl⟩
    rcases Pc.toSort_cases hpc with ⟨hold, -⟩ | hold <;> rw [hold] <;> rfl
  | sortUndefined block hpc hwrite =>
    left
    refine ⟨?_, rfl, rfl⟩
    rcases Pc.toSort_cases hpc with ⟨hold, -⟩ | hold <;> rw [hold] <;> rfl
  | pass blocks size hpc hone => exact .inl ⟨by simp [hpc, Pc.arrives, hone], rfl, rfl⟩
  | merge blocks size tmpId write hpc hid hwrite | mergeUndefined blocks size tmpId hpc hid hwrite
  | skip blocks size tmpId hpc hid hthread => exact .inl ⟨by simp [hpc, Pc.arrives, hid], rfl, rfl⟩
  | sorted _ _ hpc | lock hpc | found _ hpc | notFound hpc | mark _ hpc | unlock _ hpc
  | unlockLast hpc | merged _ _ _ _ hpc | double _ _ _ hpc | doubleUndefined _ _ hpc =>
    exact .inl ⟨by rw [hpc]; rfl, rfl, rfl⟩

/-- A step adds the block it completes to the sorted ones. -/
theorem Step.sortedBlocks (h : Step g s i t) (hdef : t.pc i ≠ .undefined)
    (hs : s.Claiming g.blockNum) (b : ℕ) : (t.sortedBlocks b).toNat =
      (s.sortedBlocks b).toNat + (((s.pc i).sortDone i).map Operation.index).count b := by
  have hmove : ∀ {new}, t.pc = Function.update s.pc i new → t.blockMap = s.blockMap →
      new.holds i = (s.pc i).holds i → (s.pc i).sortDone i = [] → (t.sortedBlocks b).toNat =
        (s.sortedBlocks b).toNat + (((s.pc i).sortDone i).map Operation.index).count b := by
    intro new hnew hmap hholds hnone
    rw [sortedBlocks_move rfl hnew hmap hholds, hnone]
    rfl
  cases h with
  | sorted block write hpc =>
    have hheld : (s.pc i).holds i = some block := by rw [hpc]; rfl
    rw [sortedBlocks_sorted hs hpc, hpc]
    by_cases hb : b = block
    · subst hb
      rw [Function.update_self, sortedBlocks_of_holds hheld]
      simp [Pc.sortDone]
    · rw [Function.update_of_ne hb]
      simp [Pc.sortDone, Ne.symm hb]
  | mark block hpc =>
    rw [sortedBlocks_mark hs hpc, hpc]
    rfl
  | sort block write hpc hwrite =>
    refine hmove rfl rfl (Pc.holds_of_toSort hpc).symm ?_
    rcases Pc.toSort_cases hpc with ⟨hold, -⟩ | hold <;> rw [hold] <;> rfl
  | enter hpc => exact hmove (s.barrierWait_pc i _) (by simp) (by rw [hpc]; rfl) (by rw [hpc]; rfl)
  | exhaust hpc =>
    exact hmove (s.barrierWait_pc i _) (by simp) (by rw [hpc]; rfl) (by rw [hpc]; rfl)
  | leave _ _ hpc =>
    exact hmove (s.barrierWait_pc i _) (by simp) (by rw [hpc]; rfl) (by rw [hpc]; rfl)
  | passEnd _ _ _ hpc =>
    exact hmove (s.barrierWait_pc i _) (by simp) (by rw [hpc]; rfl) (by rw [hpc]; rfl)
  | sortUndefined block hpc hwrite => exact absurd (by simp [goto]) hdef
  | mergeUndefined blocks size tmpId hpc hid hwrite => exact absurd (by simp [goto]) hdef
  | doubleUndefined blocks size hpc hdouble => exact absurd (by simp [goto]) hdef
  | lock hpc | found _ hpc | notFound hpc | unlock _ hpc | unlockLast hpc | pass _ _ hpc
  | merge _ _ _ _ hpc | skip _ _ _ hpc | merged _ _ _ _ hpc | double _ _ _ hpc =>
    exact hmove rfl rfl (by rw [hpc]; rfl) (by rw [hpc]; rfl)

end State

/-- The pair of a pass has been merged, as the thread's position and its passes tell. -/
def Pc.Merged (blockNum passes q k : ℕ) (pc : Pc T) : Prop :=
  k < blockNum / 2 ^ q / 2 ∧ (q < passes ∨ q = passes ∧ k < pc.cursor)

instance (blockNum passes q k : ℕ) (pc : Pc T) : Decidable (pc.Merged blockNum passes q k) :=
  inferInstanceAs (Decidable (_ ∧ _))

theorem Pc.merged_congr {blockNum p q k : ℕ} {old new : Pc T}
    (h : k < blockNum / 2 ^ p / 2 → (k < new.cursor ↔ k < old.cursor)) :
    new.Merged blockNum p q k ↔ old.Merged blockNum p q k := by
  apply and_congr_right
  intro hk
  apply or_congr_right
  apply and_congr_right
  rintro rfl
  exact h hk

namespace State

variable [LT T] [DecidableLT T] {g : Globals T} {s t : State threads T} {i : Fin threads}

/-- Of the pairs that belong to its thread, a step adds the one it completes to the merged ones. -/
theorem Step.merged_iff (h : Step g s i t) (hdef : t.pc i ≠ .undefined) {p w : ℕ}
    (hs : (s.pc i).Placed g threads i p w) (q : ℕ) {k : ℕ} (hk : k % threads = i) :
    (t.pc i).Merged g.blockNum (p + (s.pc i).halves) q k ↔
      (s.pc i).Merged g.blockNum p q k ∨ (q, k) ∈ ((s.pc i).mergeDone i p).map
        fun m => (m.1, m.2.index) := by
  have hle := Nat.mod_le k threads
  have hquiet : ∀ {new}, t.pc = Function.update s.pc i new → (s.pc i).halves = 0 →
      (s.pc i).mergeDone i p = [] →
      (k < g.blockNum / 2 ^ p / 2 → (k < new.cursor ↔ k < (s.pc i).cursor)) →
      ((t.pc i).Merged g.blockNum (p + (s.pc i).halves) q k ↔
        (s.pc i).Merged g.blockNum p q k ∨ (q, k) ∈ ((s.pc i).mergeDone i p).map
          fun m => (m.1, m.2.index)) := by
    intro new hnew hhalves hdone hcursor
    rw [hnew, Function.update_self, hhalves, hdone]
    simpa using Pc.merged_congr hcursor
  cases h with
  | sort block write hpc hwrite =>
    refine hquiet rfl ?_ ?_ fun _ => ?_ <;>
      rcases Pc.toSort_cases hpc with ⟨hold, -⟩ | hold <;> rw [hold] <;> rfl
  | sortUndefined block hpc hwrite => exact absurd (by simp [goto]) hdef
  | mergeUndefined blocks size tmpId hpc hid hwrite => exact absurd (by simp [goto]) hdef
  | doubleUndefined blocks size hpc hdouble => exact absurd (by simp [goto]) hdef
  | enter hpc =>
    refine hquiet (s.barrierWait_pc i _) (by rw [hpc]; rfl) (by rw [hpc]; rfl) fun _ => ?_
    simp [hpc, Pc.cursor]
  | exhaust hpc =>
    refine hquiet (s.barrierWait_pc i _) (by rw [hpc]; rfl) (by rw [hpc]; rfl) fun _ => ?_
    simp [hpc, Pc.cursor]
  | leave blocks size hpc hone =>
    refine hquiet (s.barrierWait_pc i _) (by rw [hpc]; rfl) (by rw [hpc]; rfl) fun _ => ?_
    simp [hpc, Pc.cursor]
  | passEnd blocks size tmpId hpc hid =>
    rw [hpc] at hs
    obtain ⟨rfl, -, -⟩ := hs
    refine hquiet (s.barrierWait_pc i _) (by rw [hpc]; rfl) (by rw [hpc]; rfl) fun hlt => ?_
    simp only [hpc, Pc.cursor]
    omega
  | pass blocks size hpc hone =>
    refine hquiet rfl (by rw [hpc]; rfl) (by rw [hpc]; rfl) fun _ => ?_
    simp only [hpc, Pc.cursor]
    omega
  | skip blocks size tmpId hpc hid hthread =>
    rw [hpc] at hs
    have hmod := Nat.mod_le tmpId threads
    have hthread' := hs.2.2.2
    omega
  | merged blocks size tmpId write hpc =>
    rw [hpc] at hs
    obtain ⟨rfl, -, -, hmod, hid⟩ := hs
    have hthreads := i.isLt
    simp only [goto, Function.update_self, hpc, Pc.Merged, Pc.halves, Pc.cursor, Pc.mergeDone,
      List.map_cons, List.map_nil, List.mem_singleton, Prod.mk.injEq, Nat.add_zero]
    constructor
    · rintro ⟨hlt, hq | ⟨rfl, hcur⟩⟩
      · exact .inl ⟨hlt, .inl hq⟩
      · by_cases hbelow : k < tmpId
        · exact .inl ⟨hlt, .inr ⟨rfl, hbelow⟩⟩
        · exact .inr ⟨rfl, eq_of_mod_eq (hmod.trans hk.symm) (by omega) hcur⟩
    · rintro (⟨hlt, hq | ⟨rfl, hcur⟩⟩ | ⟨rfl, rfl⟩)
      · exact ⟨hlt, .inl hq⟩
      · exact ⟨hlt, .inr ⟨rfl, by omega⟩⟩
      · exact ⟨hid, .inr ⟨rfl, by omega⟩⟩
  | double blocks size doubled hpc hdouble =>
    rw [hpc] at hs
    obtain ⟨rfl, -⟩ := hs
    simp only [goto, Function.update_self, hpc, Pc.Merged, Pc.halves, Pc.cursor, Pc.mergeDone,
      List.map_nil, List.not_mem_nil, or_false]
    apply and_congr_right
    intro hlt
    by_cases hq : q = p
    · subst hq
      omega
    · omega
  | sorted _ _ hpc | lock hpc | found _ hpc | notFound hpc | mark _ hpc | unlock _ hpc
  | unlockLast hpc =>
    exact hquiet rfl (by rw [hpc]; rfl) (by rw [hpc]; rfl) (by simp [hpc, Pc.cursor])
  | merge _ _ _ _ hpc =>
    exact hquiet rfl (by rw [hpc]; rfl) (by rw [hpc]; rfl) (by simp [hpc, Pc.cursor])

end State

/-- A merge that is only now completed has not been made before. -/
theorem Pc.not_merged_of_done {blockNum p q k : ℕ} {i : Fin threads} {pc : Pc T}
    (h : (q, k) ∈ (pc.mergeDone i p).map fun m => (m.1, m.2.index)) :
    ¬ pc.Merged blockNum p q k := by
  cases pc with
  | merging blocks size tmpId write =>
    obtain ⟨rfl, rfl⟩ : q = p ∧ k = tmpId := by simpa [mergeDone] using h
    simp [Merged, cursor]
  | _ => simp [mergeDone] at h

theorem Pc.count_mergeDone (i : Fin threads) (p : ℕ) (pc : Pc T) (x : ℕ × ℕ) :
    ((pc.mergeDone i p).map fun m => (m.1, m.2.index)).count x =
      if x ∈ (pc.mergeDone i p).map fun m => (m.1, m.2.index) then 1 else 0 := by
  apply List.Nodup.count
  cases pc <;> simp [mergeDone]

/-- The pairs that a thread completes belong to it. -/
theorem Pc.Placed.mem_mergeDone {g : Globals T} {p w q k : ℕ} {i : Fin threads} {pc : Pc T}
    (hs : pc.Placed g threads i p w)
    (h : (q, k) ∈ (pc.mergeDone i p).map fun m => (m.1, m.2.index)) : k % threads = i := by
  cases pc with
  | merging blocks size tmpId write =>
    obtain ⟨rfl, rfl⟩ : q = p ∧ k = tmpId := by simpa [mergeDone] using h
    exact hs.2.2.2.1
  | _ => simp [mergeDone] at h

namespace Recorded

variable [LT T] [DecidableLT T] {g : Globals T} {r r' : Recorded threads T} {i : Fin threads}

/-- The record agrees with the threads, and the threads with each other. -/
structure Consistent (g : Globals T) (r : Recorded threads T) : Prop where
  claiming : r.state.Claiming g.blockNum
  placed : ∀ i, (r.state.pc i).Placed g threads i (r.passes i) (r.waits i)
  counted : total Bool.toNat r.state.waiting = r.state.arrived
  rounds : ∃ n, ∀ i, r.waits i = n + (r.state.waiting i).toNat
  sorted : ∀ block, r.sortCount block = (r.state.sortedBlocks block).toNat
  merged : ∀ (i : Fin threads) q k, k % threads = i →
    r.mergeCount q k = if (r.state.pc i).Merged g.blockNum (r.passes i) q k then 1 else 0

omit [LT T] [DecidableLT T] in
theorem start_consistent {mem : List (IndexS T)} (hle : threads ≤ g.blockNum) :
    (start threads mem).Consistent g where
  claiming := State.start_claiming mem hle
  placed i := ⟨rfl, rfl⟩
  counted := total_eq_zero fun _ => rfl
  rounds := ⟨0, fun _ => rfl⟩
  sorted block := by
    by_cases h : block < threads
    · rw [State.sortedBlocks_of_holds (i := ⟨block, h⟩) rfl]
      rfl
    · simp [sortCount, start, State.sortedBlocks, State.start, h]
  merged i q k hk := by
    have hnot : ¬ (Pc.ready (T := T)).Merged g.blockNum 0 q k := by simp [Pc.Merged, Pc.cursor]
    exact (if_neg hnot).symm

theorem Consistent.rounds_step (hs : r.Consistent g) (h : r.next g i = some r') :
    total Bool.toNat r'.state.waiting = r'.state.arrived ∧
      ∃ n, ∀ j, r'.waits j = n + (r'.state.waiting j).toNat := by
  obtain ⟨hwait, hstep, hnote⟩ := next_eq_some h
  obtain ⟨n, hn⟩ := hs.rounds
  have hwaits : r'.waits = Function.update r.waits i (r.waits i + (r.state.pc i).arrives) := by
    rw [hnote]
    rfl
  have hi := hn i
  rw [hwait, Bool.toNat_false, Nat.add_zero] at hi
  have hothers : r.state.arrived + 1 = threads → ∀ j, j ≠ i → r.state.waiting j = true :=
    fun hlast j hj => State.others_waiting hs.counted hwait hlast hj
  rcases hstep.barrier hothers with ⟨harr, hwaiting, harrived⟩ | ⟨harr, _, harrived, hwaiting⟩ |
    ⟨harr, hall, harrived, hnone⟩
  · rw [hwaiting, harrived, hwaits, harr, Nat.add_zero, Function.update_eq_self]
    exact ⟨hs.counted, n, hn⟩
  · have hcount := total_update Bool.toNat r.state.waiting i true
    rw [hwait, hs.counted] at hcount
    rw [hwaiting, harrived]
    refine ⟨by simpa using hcount, n, fun j => ?_⟩
    by_cases hj : j = i
    · subst hj
      simp [hwaits, harr, hi]
    · simp [hwaits, hj, hn j]
  · rw [harrived]
    refine ⟨total_eq_zero fun j => by rw [hnone]; rfl, n + 1, fun j => ?_⟩
    by_cases hj : j = i
    · subst hj
      simp [hwaits, harr, hi, hnone]
    · simp [hwaits, hj, hn j, hall j hj, hnone]

theorem Consistent.step (hs : r.Consistent g) (h : r.next g i = some r')
    (hdef : r'.state.pc i ≠ .undefined) : r'.Consistent g := by
  obtain ⟨hcounted, hrounds⟩ := hs.rounds_step h
  obtain ⟨hwait, hstep, hnote⟩ := next_eq_some h
  have hpasses : r'.passes = Function.update r.passes i (r.passes i + (r.state.pc i).halves) := by
    rw [hnote]
    rfl
  refine ⟨hstep.claiming hs.claiming, fun j => ?_, hcounted, hrounds, fun block => ?_, ?_⟩
  · have hwaits : r'.waits = Function.update r.waits i (r.waits i + (r.state.pc i).arrives) := by
      rw [hnote]
      rfl
    by_cases hj : j = i
    · subst hj
      rw [hpasses, hwaits, Function.update_self, Function.update_self]
      exact hstep.placed hdef (hs.placed j)
    · rw [hpasses, hwaits, Function.update_of_ne hj, Function.update_of_ne hj, hstep.pc_other hj]
      exact hs.placed j
  · rw [hstep.sortedBlocks hdef hs.claiming block, ← hs.sorted block, hnote]
    simp only [sortCount, note, List.map_append, List.count_append]
  · intro j q k hk
    have hcount : r'.mergeCount q k = r.mergeCount q k +
        (((r.state.pc i).mergeDone i (r.passes i)).map fun m => (m.1, m.2.index)).count (q, k) := by
      rw [hnote]
      simp only [mergeCount, note, List.map_append, List.count_append]
    rw [hcount, Pc.count_mergeDone, hs.merged j q k hk]
    by_cases hj : j = i
    · subst hj
      have hiff := hstep.merged_iff hdef (hs.placed j) q hk
      have hnot : (q, k) ∈ ((r.state.pc j).mergeDone j (r.passes j)).map
          (fun m => (m.1, m.2.index)) → ¬ (r.state.pc j).Merged g.blockNum (r.passes j) q k :=
        Pc.not_merged_of_done
      rw [hpasses, Function.update_self]
      simp only [hiff]
      by_cases hdone : (q, k) ∈ ((r.state.pc j).mergeDone j (r.passes j)).map
          fun m => (m.1, m.2.index)
      · simp [hdone, hnot hdone]
      · simp [hdone]
    · have hnone : (q, k) ∉ ((r.state.pc i).mergeDone i (r.passes i)).map
          fun m => (m.1, m.2.index) := fun hmem =>
        hj (Fin.ext (hk.symm.trans ((hs.placed i).mem_mergeDone hmem)))
      rw [if_neg hnone, hpasses, Function.update_of_ne hj, hstep.pc_other hj, Nat.add_zero]

end Recorded

end OsispLabs.Lab6
