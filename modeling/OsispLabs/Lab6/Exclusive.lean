import OsispLabs.Lab6.ExactlyOnce

/-!
# The threads divide the work

In every interleaving that does nothing undefined, each block is sorted once and each pair of a
pass is merged once, threads never work on common records, and all make the same number of barrier
waits.
-/
namespace OsispLabs.Lab6
open Lib

variable {threads : ℕ} {T : Type*}

namespace State

variable [LT T] [DecidableLT T] {g : Globals T} {s : State threads T} {i j : Fin threads}
  {size : ℕ} {mem₀ : List (IndexS T)} {st : Stage T}

/-- What a thread writes when it has sorted is its block. -/
theorem Lawful.sorting_range (hs : s.Lawful g size mem₀ st)
    (hroom : g.blockNum * size ≤ mem₀.length) {block : ℕ} {write : Write T}
    (hpc : s.pc i = .sorting block write) :
    st = .sorting ∧ block < g.blockNum ∧ write.1 = block * size ∧ write.2.length = size := by
  have hlt : block < g.blockNum := (hs.claiming.held i block (by rw [hpc]; rfl)).1
  have hend := Nat.le_trans (Nat.mul_le_mul_right size hlt) hroom
  rw [Nat.succ_mul] at hend
  cases hwait : s.waiting i with
  | true =>
    have hwaits := hs.phased.waits i hwait
    rw [hpc] at hwaits
    cases st <;> exact hwaits.elim
  | false =>
    have hruns := hs.phased.runs i hwait
    rw [hpc] at hruns
    obtain rfl := hruns.eq_sorting rfl
    obtain ⟨rfl, -⟩ := hruns
    refine ⟨rfl, hlt, rfl, ?_⟩
    rw [Globals.sortedBlock, g.qsort.length_sort, window_length hend]

/-- What a thread writes when it has merged is its pair of runs. -/
theorem Lawful.merging_range (hs : s.Lawful g size mem₀ st) {blocks tmpId : ℕ} {bytes : ℤ}
    {write : Write T} (hpc : s.pc i = .merging blocks bytes tmpId write) :
    ∃ run base, st = .merging blocks run base ∧ bytes = (16 * run : ℕ) ∧ tmpId % threads = i ∧
      write.1 = tmpId * (2 * run) ∧ write.2.length = 2 * run := by
  cases hwait : s.waiting i with
  | true =>
    have hwaits := hs.phased.waits i hwait
    rw [hpc] at hwaits
    cases st <;> exact hwaits.elim
  | false =>
    have hruns := hs.phased.runs i hwait
    rw [hpc] at hruns
    obtain ⟨run, base, rfl, hbytes, -, -, hmod, hid, rfl, -⟩ := hruns.merging
    have hstage : MergeStage g size mem₀ blocks run base := hs.valid
    have hend : (tmpId + 1) * (2 * run) ≤ base.length := by
      rw [hstage.length]
      exact Nat.le_trans (Nat.mul_le_mul_right _ hid)
        (Nat.le_trans (pairs_le blocks run) hstage.room)
    rw [Nat.succ_mul] at hend
    refine ⟨run, base, rfl, hbytes, hmod, rfl, ?_⟩
    rw [pairWrite, mergeHalves_length mergeRuns_length, window_length hend]

/-- Ranges of equal width at different multiples of the width have no record in common. -/
theorem multiples_disjoint {a b width : ℕ} (hne : a ≠ b) :
    a * width + width ≤ b * width ∨ b * width + width ≤ a * width := by
  rcases Nat.lt_or_gt_of_ne hne with hlt | hlt
  · left
    rw [← Nat.succ_mul]
    exact Nat.mul_le_mul_right width hlt
  · right
    rw [← Nat.succ_mul]
    exact Nat.mul_le_mul_right width hlt

omit [LT T] [DecidableLT T] in
theorem range_eq_some {pc : Pc T} {x : ℕ × ℕ} (h : pc.range = some x) :
    (∃ block write, pc = .sorting block write ∧ x = (write.1, write.2.length)) ∨
      ∃ blocks bytes tmpId write, pc = .merging blocks bytes tmpId write ∧
        x = (write.1, write.2.length) := by
  cases pc with
  | sorting block write => exact .inl ⟨block, write, rfl, (Option.some.inj h).symm⟩
  | merging blocks bytes tmpId write =>
    exact .inr ⟨blocks, bytes, tmpId, write, rfl, (Option.some.inj h).symm⟩
  | _ => cases h

/-- Two threads never sort or merge common records. -/
theorem Lawful.ranges_disjoint (hs : s.Lawful g size mem₀ st)
    (hroom : g.blockNum * size ≤ mem₀.length) (hij : i ≠ j) {x y : ℕ × ℕ}
    (hx : (s.pc i).range = some x) (hy : (s.pc j).range = some y) :
    x.1 + x.2 ≤ y.1 ∨ y.1 + y.2 ≤ x.1 := by
  rcases range_eq_some hx with ⟨b, w, hi, rfl⟩ | ⟨m, z, k, w, hi, rfl⟩ <;>
    rcases range_eq_some hy with ⟨b', w', hj, rfl⟩ | ⟨m', z', k', w', hj, rfl⟩
  · obtain ⟨-, -, hstart, hlen⟩ := hs.sorting_range hroom hi
    obtain ⟨-, -, hstart', hlen'⟩ := hs.sorting_range hroom hj
    have hne : b ≠ b' := by
      rintro rfl
      exact hij (hs.claiming.once i j b (by rw [hi]; rfl) (by rw [hj]; rfl))
    simp only [hstart, hlen, hstart', hlen']
    exact multiples_disjoint hne
  · obtain ⟨rfl, -⟩ := hs.sorting_range hroom hi
    obtain ⟨run, base, hst, -⟩ := hs.merging_range hj
    cases hst
  · obtain ⟨rfl, -⟩ := hs.sorting_range hroom hj
    obtain ⟨run, base, hst, -⟩ := hs.merging_range hi
    cases hst
  · obtain ⟨run, base, rfl, -, hmod, hstart, hlen⟩ := hs.merging_range hi
    obtain ⟨run', base', hst, -, hmod', hstart', hlen'⟩ := hs.merging_range hj
    cases hst
    have hne : k ≠ k' := by
      rintro rfl
      exact hij (Fin.ext (hmod.symm.trans hmod'))
    simp only [hstart, hlen, hstart', hlen']
    exact multiples_disjoint hne

end State

namespace Recorded

/-- Each entry of the record is about the whole of a block or of a pair of runs. -/
structure Whole (blockNum size : ℕ) (r : Recorded threads T) : Prop where
  sorts : ∀ o ∈ r.sorts, o.index < blockNum ∧ o.start = o.index * size ∧ o.length = size
  merges : ∀ m ∈ r.merges, m.2.index < blockNum / 2 ^ m.1 / 2 ∧
    m.2.start = m.2.index * (2 * (size * 2 ^ m.1)) ∧ m.2.length = 2 * (size * 2 ^ m.1)

/-- The division of the work, in every state of a run. -/
structure Divided (blockNum size : ℕ) (r : Recorded threads T) : Prop where
  whole : r.Whole blockNum size
  sorted_le : ∀ block, r.sortCount block ≤ 1
  sorted_first : ∀ i, (r.state.pc i).inPass = true → ∀ block < blockNum, r.sortCount block = 1
  merged_le : ∀ pass pair, r.mergeCount pass pair ≤ 1
  merged_first : ∀ i, (r.state.pc i).inPass = true → ∀ pass < r.passes i,
    ∀ pair < blockNum / 2 ^ pass / 2, r.mergeCount pass pair = 1
  same_pass : ∀ i j, (r.state.pc i).inPass = true → (r.state.pc j).inPass = true →
    r.passes i = r.passes j
  disjoint : ∀ i j, i ≠ j → ∀ x y, (r.state.pc i).range = some x → (r.state.pc j).range = some y →
    x.1 + x.2 ≤ y.1 ∨ y.1 + y.2 ≤ x.1
  rounds : ∃ n, ∀ i, r.waits i = n + (r.state.waiting i).toNat

/-- What has been done when all threads have returned. -/
structure Complete (blockNum : ℕ) (r : Recorded threads T) : Prop where
  sorted : ∀ block < blockNum, r.sortCount block = 1
  merged : ∀ pass, ∀ pair < blockNum / 2 ^ pass / 2, r.mergeCount pass pair = 1
  waits : ∀ i j, r.waits i = r.waits j

variable [LT T] [DecidableLT T] {g : Globals T} {r r' : Recorded threads T} {i : Fin threads}
  {size : ℕ} {mem₀ : List (IndexS T)} {st : Stage T}

omit [LT T] [DecidableLT T] in
/-- A thread that has made the waits of the sorting phase holds no block. -/
theorem holds_eq_none {p w j : ℕ} {pc : Pc T} (hs : pc.Placed g threads j p w) (hw : 2 ≤ w) :
    pc.holds j = none := by
  cases pc with
  | ready | own | sorting | lock | find | mark | claimed | exhausted | unlock nextBlock =>
    have hfew := hs.2
    omega
  | pass | pair | merging | passed | done => rfl
  | undefined => exact hs.elim

omit [LT T] [DecidableLT T] in
/-- A thread that has made the waits of a pass has merged its pairs of that pass. -/
theorem merged_of_waits {p w j q k : ℕ} {pc : Pc T} (hs : pc.Placed g threads j p w)
    (hw : 3 + q ≤ w) (hk : k < g.blockNum / 2 ^ q / 2) : pc.Merged g.blockNum p q k := by
  refine ⟨hk, ?_⟩
  cases pc with
  | ready | own | sorting | lock | find | mark | unlock | claimed | exhausted =>
    have hfew := hs.2
    omega
  | pass blocks bytes =>
    have hwaits := hs.2.2
    omega
  | pair blocks bytes tmpId =>
    have hwaits := hs.2.2.1
    omega
  | merging blocks bytes tmpId write =>
    have hwaits := hs.2.2.1
    omega
  | passed blocks bytes =>
    obtain ⟨rfl, -, rfl⟩ := hs
    by_cases hq : q = p
    · subst hq
      exact .inr ⟨rfl, Nat.lt_of_lt_of_le hk (Nat.div_le_self _ 2)⟩
    · omega
  | done =>
    obtain ⟨hone, rfl⟩ := hs
    by_cases hq : q = p
    · subst hq
      omega
    · omega
  | undefined => exact hs.elim

omit [LT T] [DecidableLT T] in
theorem Consistent.mergeCount_eq_one (hs : r.Consistent g) (hpos : 0 < threads) {q k n : ℕ}
    (hn : ∀ i, n ≤ r.waits i) (hq : 3 + q ≤ n) (hk : k < g.blockNum / 2 ^ q / 2) :
    r.mergeCount q k = 1 := by
  let j : Fin threads := ⟨k % threads, Nat.mod_lt k hpos⟩
  rw [hs.merged j q k rfl, if_pos]
  exact merged_of_waits (hs.placed j) (hq.trans (hn j)) hk

omit [LT T] [DecidableLT T] in
theorem Consistent.sortCount_eq_one (hs : r.Consistent g) (hfull : (r.state.pc i).sawFull = true)
    (hn : ∀ j, 2 ≤ r.waits j) {block : ℕ} (hlt : block < g.blockNum) : r.sortCount block = 1 := by
  have hnone : ∀ j, (r.state.pc j).holds j = none := fun j => holds_eq_none (hs.placed j) (hn j)
  rw [hs.sorted, State.sortedBlocks_all hs.claiming hfull hnone hlt]
  rfl

/-- A thread in a pass is not in the barrier, and its waits tell the pass. -/
theorem Consistent.inPass (hs : r.Consistent g) (hl : r.state.Lawful g size mem₀ st)
    (h : (r.state.pc i).inPass = true) :
    r.state.waiting i = false ∧ r.waits i = 2 + r.passes i ∧
      (r.state.pc i).sawFull = true := by
  have hplaced := hs.placed i
  have hwaiting : r.state.waiting i = false := by
    by_contra hwait
    have hwaits := hl.phased.waits i (by simpa using hwait)
    cases hpc : r.state.pc i <;> rw [hpc] at h hwaits <;> cases h <;>
      cases st <;> exact hwaits.elim
  refine ⟨hwaiting, ?_⟩
  cases hpc : r.state.pc i <;> rw [hpc] at h hplaced <;> cases h
  · exact ⟨hplaced.2.2.1, rfl⟩
  · exact ⟨hplaced.2.2.1, rfl⟩

theorem Whole.step (hs : r.Whole g.blockNum size) (hc : r.Consistent g)
    (hl : r.state.Lawful g size mem₀ st) (hsize : g.blockSize = (16 * size : ℕ))
    (hroom : g.blockNum * size ≤ mem₀.length) (h : r.next g i = some r') :
    r'.Whole g.blockNum size := by
  obtain ⟨-, -, hnote⟩ := next_eq_some h
  rw [hnote]
  constructor
  · intro o ho
    rcases List.mem_append.mp ho with hold | hdone
    · exact hs.sorts o hold
    · cases hpc : r.state.pc i <;> rw [hpc] at hdone <;> first | cases hdone; done | skip
      obtain rfl := List.mem_singleton.mp hdone
      exact (hl.sorting_range hroom hpc).2
  · intro m hm
    rcases List.mem_append.mp hm with hold | hdone
    · exact hs.merges m hold
    · cases hpc : r.state.pc i <;> rw [hpc] at hdone <;> first | cases hdone; done | skip
      rename_i blocks bytes tmpId write
      obtain rfl := List.mem_singleton.mp hdone
      obtain ⟨run, base, -, hbytes, -, hstart, hlen⟩ := hl.merging_range hpc
      have hplaced := hc.placed i
      rw [hpc] at hplaced
      obtain ⟨rfl, hscaled, -, -, hid⟩ := hplaced
      have hrun : run = size * 2 ^ r.passes i := by
        rw [hbytes, hsize] at hscaled
        have hnat : 16 * run = 16 * size * 2 ^ r.passes i := by exact_mod_cast hscaled
        rw [Nat.mul_assoc] at hnat
        omega
      rw [← hrun]
      exact ⟨hid, hstart, hlen⟩

/-- Every interleaving keeps the record and the threads in agreement, up to the first undefined
step. -/
theorem run_consistent (hg : Startable g threads size mem₀) {as : List (Fin threads)}
    (hrun : exec (next g) (start threads mem₀) as = some r) : r.state.Faulty ∨
      (∃ st, r.state.Lawful g size mem₀ st) ∧ r.Consistent g ∧ r.Whole g.blockNum size := by
  apply exec_invariant (I := fun r : Recorded threads T => r.state.Faulty ∨
    (∃ st, r.state.Lawful g size mem₀ st) ∧ r.Consistent g ∧ r.Whole g.blockNum size) _ _ hrun
  · intro r i r' hr hnext
    obtain ⟨hwait, hstep, -⟩ := next_eq_some hnext
    rcases hr with hfaulty | ⟨⟨st, hl⟩, hc, hw⟩
    · exact .inl (hstep.faulty hfaulty)
    · by_cases hdef : r'.state.pc i = .undefined
      · exact .inl ⟨i, hdef⟩
      · refine .inr ⟨?_, hc.step hnext hdef, hw.step hc hl hg.bytes hg.room hnext⟩
        exact hstep.lawful hg.bytes hg.bytes_lt hg.room
          (Nat.lt_of_lt_of_le hg.threads_pos hg.threads_le) hwait hl hdef
  · right
    refine ⟨⟨_, State.start_lawful hg.threads_pos hg.threads_le⟩,
      start_consistent hg.threads_le, ?_, ?_⟩
    · intro o ho
      cases ho
    · intro m hm
      cases hm

theorem Consistent.divided (hs : r.Consistent g) (hl : r.state.Lawful g size mem₀ st)
    (hw : r.Whole g.blockNum size) (hroom : g.blockNum * size ≤ mem₀.length)
    (hpos : 0 < threads) : r.Divided g.blockNum size := by
  obtain ⟨n, hn⟩ := hs.rounds
  have hle : ∀ j, n ≤ r.waits j := fun j => by
    rw [hn j]
    exact Nat.le_add_right n _
  have hpass : ∀ i, (r.state.pc i).inPass = true → n = 2 + r.passes i := fun i hi => by
    obtain ⟨hwait, hwaits, -⟩ := hs.inPass hl hi
    rw [← hwaits, hn i, hwait, Bool.toNat_false, Nat.add_zero]
  constructor
  · exact hw
  · intro block
    rw [hs.sorted]
    exact Bool.toNat_le _
  · intro i hi block hlt
    have htwo : 2 ≤ n := by
      rw [hpass i hi]
      exact Nat.le_add_right 2 _
    exact hs.sortCount_eq_one (hs.inPass hl hi).2.2 (fun j => htwo.trans (hle j)) hlt
  · intro q k
    rw [hs.merged ⟨k % threads, Nat.mod_lt k hpos⟩ q k rfl]
    split <;> omega
  · intro i hi q hq k hk
    have hthree : 3 + q ≤ n := by
      rw [hpass i hi]
      omega
    exact hs.mergeCount_eq_one hpos hle hthree hk
  · intro i j hi hj
    have hsame := (hpass i hi).symm.trans (hpass j hj)
    omega
  · intro i j hij x y
    exact hl.ranges_disjoint hroom hij
  · exact ⟨n, hn⟩

omit [LT T] [DecidableLT T] in
theorem Consistent.complete (hs : r.Consistent g) (hpos : 0 < threads)
    (h : r.state.Finished) : r.Complete g.blockNum := by
  have hdone : ∀ i, (r.state.pc i) = .done := fun i => Pc.isDone_iff.mp (h i).1
  have hplaced : ∀ i, g.blockNum / 2 ^ r.passes i ≤ 1 ∧ r.waits i = 3 + r.passes i := fun i => by
    have hi := hs.placed i
    rwa [hdone i] at hi
  constructor
  · intro block hlt
    refine hs.sortCount_eq_one (i := ⟨0, hpos⟩) (by rw [hdone]; rfl) (fun j => ?_) hlt
    rw [(hplaced j).2]
    omega
  · intro q k hk
    let j : Fin threads := ⟨k % threads, Nat.mod_lt k hpos⟩
    have hlt : q < r.passes j := by
      by_contra hge
      have hpow : 2 ^ r.passes j ≤ 2 ^ q := Nat.pow_le_pow_right Nat.two_pos (Nat.not_lt.mp hge)
      have hle := Nat.div_le_div_left hpow (Nat.two_pow_pos _) (a := g.blockNum)
      have hone := (hplaced j).1
      omega
    rw [hs.merged j q k rfl, if_pos ⟨hk, .inl hlt⟩]
  · intro i j
    obtain ⟨n, hn⟩ := hs.rounds
    rw [hn i, hn j, (h i).2, (h j).2]

end Recorded

end OsispLabs.Lab6
