import OsispLabs.Lab6.Merge

/-!
# What the merge loops compute

As long as the `int` offsets fit, a merge loop computes the merge tree; when one does not fit, it
computes nothing.
-/
namespace OsispLabs.Lab6
open Lib

variable {T : Type*} [LT T] [DecidableLT T]

/-- `merge` of two adjacent runs. -/
theorem merge_adjacent (mem : List (IndexS T)) {start size : ℕ} (hsize : 2 * size < 2 ^ 31) :
    merge mem start (start + size : ℕ) size = if start + 2 * size ≤ mem.length then
      some (start, mergeHalves mergeRuns size (window mem start (2 * size))) else none := by
  have htwice : intMul (size : ℤ) 2 = some ((2 * size : ℕ) : ℤ) := by
    rw [intMul_eq_some, IsInt]
    omega
  have hhalves : mergeHalves mergeRuns size (window mem start (2 * size)) =
      mergeRuns (window mem start size) (window mem (start + size) size) := by
    rw [mergeHalves, take_window _ _ (by omega), Nat.two_mul, drop_window]
  rw [merge, htwice, Option.bind_some, hhalves]
  by_cases h : start + 2 * size ≤ mem.length
  · rw [if_pos h, if_pos (by omega), Int.toNat_natCast, Int.toNat_natCast, Int.toNat_natCast]
  · rw [if_neg h, if_neg (by omega)]

/-- The `i`-th pair of runs of `size` records, merged. -/
def pairWrite (mem : List (IndexS T)) (size i : ℕ) : Write T :=
  (i * (2 * size), mergeHalves mergeRuns size (window mem (i * (2 * size)) (2 * size)))

/-- The offsets of the `i`-th pair of runs fit into an `int`. -/
def PairFits (runSize i : ℕ) : Prop := (2 * i + 1) * runSize < 2 ^ 31

instance (runSize i : ℕ) : Decidable (PairFits runSize i) := inferInstanceAs (Decidable (_ < _))

/-- The offsets of all passes over `blocks` runs, and the doubled sizes, fit into an `int`. -/
def PassesFit (blocks runSize : ℕ) : Prop :=
  (2 * (blocks / 2) - 1) * runSize < 2 ^ 31 ∧ runSize * 2 ^ Nat.log2 blocks < 2 ^ 31

/-- A pair operation with offsets in units of `unit` per record merges pair `i`, unless an offset
overflows or the pair leaves the area. -/
def Merges (unit : ℕ) (pair : List (IndexS T) → ℤ → ℕ → Option (Write T)) : Prop :=
  ∀ (mem : List (IndexS T)) (size i : ℕ), unit * size < 2 ^ 31 → 2 * size < 2 ^ 31 →
    pair mem (unit * size : ℕ) i =
      if PairFits (unit * size) i ∧ (i + 1) * (2 * size) ≤ mem.length then
        some (pairWrite mem size i)
      else none

theorem pair_first (unit size i : ℕ) : 2 * i * (unit * size) = unit * (i * (2 * size)) := by
  rw [Nat.mul_comm 2 i, Nat.mul_assoc, Nat.mul_left_comm 2, Nat.mul_left_comm i]

theorem pair_second (unit size i : ℕ) :
    (2 * i + 1) * (unit * size) = unit * (i * (2 * size) + size) := by
  rw [Nat.succ_mul, pair_first, Nat.mul_add]

theorem mergeRecords_merges : Merges 1 (mergeRecords (T := T)) := by
  intro mem size i _ hsize
  have hfits : PairFits (1 * size) i ↔ 1 * (i * (2 * size) + size) < 2 ^ 31 := by
    rw [PairFits, pair_second]
  have hfirst := pair_first 1 size i
  have hsecond := pair_second 1 size i
  have hend : (i + 1) * (2 * size) = i * (2 * size) + 2 * size := Nat.succ_mul _ _
  simp only [Nat.one_mul] at hfits hfirst hsecond ⊢
  rw [mergeRecords, intMul_natCast, intMul_natCast, hfirst, hsecond, hend]
  by_cases h : i * (2 * size) + size < 2 ^ 31
  · rw [if_pos (by omega), if_pos h, Option.bind_some, Option.bind_some, merge_adjacent mem hsize]
    simp only [hfits, h, true_and, pairWrite]
  · have hnot : ¬ (_ ∧ (i * (2 * size) + 2 * size ≤ mem.length)) := fun hpair =>
      h (hfits.mp hpair.1)
    rw [if_neg h, if_neg hnot]
    simp

theorem mergeBytes_merges : Merges 16 (mergeBytes (T := T)) := by
  intro mem size i hsize _
  have hfits : PairFits (16 * size) i ↔ 16 * (i * (2 * size) + size) < 2 ^ 31 := by
    rw [PairFits, pair_second]
  have hend : (i + 1) * (2 * size) = i * (2 * size) + 2 * size := Nat.succ_mul _ _
  have hcount : toInt (toSize ((16 * size : ℕ) : ℤ) / 16) = size := by
    have hsize' : toSize ((16 * size : ℕ) : ℤ) = 16 * size := by
      rw [toSize_of_nonneg (by omega) (by omega), Int.toNat_natCast]
    have hdiv : ((16 * size : ℕ) : ℤ) / 16 = size := by omega
    rw [hsize', hdiv, toInt_of_isInt (by rw [IsInt]; omega)]
  rw [mergeBytes, intMul_natCast, intMul_natCast, pair_first, pair_second, hend, hcount]
  by_cases h : 16 * (i * (2 * size) + size) < 2 ^ 31
  · have hoffset1 : ((16 * (i * (2 * size)) : ℕ) : ℤ) / 16 = (i * (2 * size) : ℕ) := by omega
    have hoffset2 : ((16 * (i * (2 * size) + size) : ℕ) : ℤ) / 16 =
        (i * (2 * size) + size : ℕ) := by omega
    rw [if_pos (by omega), if_pos h, Option.bind_some, Option.bind_some, hoffset1, hoffset2,
      merge_adjacent mem (by omega)]
    simp only [hfits, h, true_and, pairWrite]
  · have hnot : ¬ (_ ∧ (i * (2 * size) + 2 * size ≤ mem.length)) := fun hpair =>
      h (hfits.mp hpair.1)
    rw [if_neg h, if_neg hnot]
    simp

variable {unit : ℕ} {pair : List (IndexS T) → ℤ → ℕ → Option (Write T)}
  {mem mem' : List (IndexS T)} {blocks size : ℕ}

/-- The `for` loop of a pass, which merges every pair. -/
theorem pass_eq_some (hpair : Merges unit pair) (hunit : unit * size < 2 ^ 31)
    (hsize : 2 * size < 2 ^ 31) (hfit : blocks * size ≤ mem.length) :
    exec (mergePair pair (unit * size : ℕ)) mem (List.range (blocks / 2)) = some mem' ↔
      (∀ i < blocks / 2, PairFits (unit * size) i) ∧
        mem' = mergePass mergeRuns blocks size mem := by
  refine exec_pass_eq_some mergeRuns_length (fun area i => ?_) hfit
  rw [mergePair, hpair area size i hunit hsize]
  split_ifs <;> rfl

theorem passesFit_of_le_one {runSize : ℕ} (hle : blocks ≤ 1) (h : runSize < 2 ^ 31) :
    PassesFit blocks runSize := by
  have hhalf : blocks / 2 = 0 := by omega
  have hlog : Nat.log2 blocks = 0 := by
    rw [Nat.log2_def, if_neg (by omega)]
  simp only [PassesFit, hhalf, hlog]
  omega

theorem PassesFit.run_lt {runSize : ℕ} (h : PassesFit blocks runSize) : runSize < 2 ^ 31 := by
  have hpos : 1 ≤ 2 ^ Nat.log2 blocks := Nat.one_le_two_pow
  exact Nat.lt_of_le_of_lt (Nat.le_mul_of_pos_right runSize hpos) h.2

theorem PassesFit.mono {runSize runSize' : ℕ} (hle : runSize ≤ runSize')
    (h : PassesFit blocks runSize') : PassesFit blocks runSize where
  left := Nat.lt_of_le_of_lt (Nat.mul_le_mul_left _ hle) h.1
  right := Nat.lt_of_le_of_lt (Nat.mul_le_mul_right _ hle) h.2

theorem PassesFit.double {runSize : ℕ} (h : PassesFit blocks runSize) (hone : 1 < blocks) :
    2 * runSize < 2 ^ 31 := by
  have htwo := h.2
  have hpos : 1 ≤ 2 ^ Nat.log2 (blocks / 2) := Nat.one_le_two_pow
  have hle := Nat.mul_le_mul_left (2 * runSize) hpos
  rw [two_pow_log2_halve hone, ← Nat.mul_assoc, Nat.mul_comm runSize 2] at htwo
  omega

theorem passesFit_halve {runSize : ℕ} (hone : 1 < blocks) : PassesFit blocks runSize ↔
    (∀ i < blocks / 2, PairFits runSize i) ∧ PassesFit (blocks / 2) (2 * runSize) := by
  have hlog : runSize * 2 ^ Nat.log2 blocks = 2 * runSize * 2 ^ Nat.log2 (blocks / 2) := by
    rw [two_pow_log2_halve hone, ← Nat.mul_assoc, Nat.mul_comm runSize 2]
  have hpairs : (2 * (blocks / 2 / 2) - 1) * (2 * runSize) ≤ (2 * (blocks / 2) - 1) * runSize := by
    rw [← Nat.mul_assoc]
    exact Nat.mul_le_mul_right _ (by omega)
  have hlast : (2 * (blocks / 2 - 1) + 1) * runSize = (2 * (blocks / 2) - 1) * runSize := by
    congr 1
    omega
  simp only [PassesFit, PairFits, hlog]
  constructor
  · rintro ⟨hfirst, hdouble⟩
    refine ⟨fun i hi => ?_, Nat.lt_of_le_of_lt hpairs hfirst, hdouble⟩
    exact Nat.lt_of_le_of_lt (Nat.mul_le_mul_right _ (by omega)) hfirst
  · rintro ⟨hfits, _, hdouble⟩
    have h := hfits (blocks / 2 - 1) (by omega)
    rw [hlast] at h
    exact ⟨h, hdouble⟩

/-- The loop computes the merge tree when its offsets fit. -/
theorem mergeLoop_of_fit (hpair : Merges unit pair) (hunit : 0 < unit)
    (hfit : blocks * size ≤ mem.length) (h : PassesFit blocks (unit * size)) :
    mergeLoop pair blocks (unit * size : ℕ) mem = some (mergeTree mergeRuns blocks size mem) := by
  induction blocks, size, mem using mergeTree.induct (mergeRuns (T := T)) with
  | case1 blocks size mem hle => rw [mergeLoop, if_pos hle, mergeTree_of_le_one hle]
  | case2 blocks size mem hlt ih =>
    have hone : 1 < blocks := by omega
    have hdouble := h.double hone
    have hsize : size ≤ unit * size := Nat.le_mul_of_pos_left size hunit
    have hmul : intMul (unit * size : ℕ) 2 = some ((unit * (2 * size) : ℕ) : ℤ) := by
      rw [intMul_eq_some, IsInt, Nat.mul_left_comm unit 2]
      omega
    obtain ⟨hfits, hrest⟩ := (passesFit_halve hone).mp h
    rw [← Nat.mul_left_comm unit 2] at hrest
    have hlen : blocks / 2 * (2 * size) ≤ (mergePass mergeRuns blocks size mem).length := by
      rw [mergePass_length mergeRuns_length]
      exact Nat.le_trans (pairs_le blocks size) hfit
    have hpass := (pass_eq_some hpair (by omega) (by omega) hfit).mpr ⟨hfits, rfl⟩
    rw [mergeLoop, if_neg hlt, hpass, Option.bind_some, hmul, Option.bind_some, ih hlen hrest,
      mergeTree_of_one_lt hone]

/-- `merge` only moves records. -/
theorem merge_forall {P : IndexS T → Prop} {start1 start2 count : ℤ} {write : Write T}
    (h : merge mem start1 start2 count = some write) (hmem : ∀ x ∈ mem, P x) :
    ∀ x ∈ write.2, P x := by
  obtain ⟨twice, _, h⟩ := Option.bind_eq_some_iff.mp h
  split at h
  · rw [Option.some_inj] at h
    intro x hx
    rw [← h, (mergeRuns_perm _ _).mem_iff, List.mem_append] at hx
    apply hmem
    rcases hx with hx | hx <;> exact List.mem_of_mem_drop (List.mem_of_mem_take hx)
  · cases h

theorem mergeRecords_forall {P : IndexS T → Prop} {mergeSize : ℤ} {i : ℕ} {write : Write T}
    (h : mergeRecords mem mergeSize i = some write) (hmem : ∀ x ∈ mem, P x) :
    ∀ x ∈ write.2, P x := by
  obtain ⟨offset1, _, h⟩ := Option.bind_eq_some_iff.mp h
  obtain ⟨offset2, _, h⟩ := Option.bind_eq_some_iff.mp h
  exact merge_forall h hmem

omit [LT T] [DecidableLT T] in
/-- What holds of all records holds after the loop, whatever the sizes. -/
theorem mergeLoop_forall {P : IndexS T → Prop}
    (hpair : ∀ mem size i write, pair mem size i = some write → (∀ x ∈ mem, P x) →
      ∀ x ∈ write.2, P x) {size : ℤ}
    (h : mergeLoop pair blocks size mem = some mem') (hmem : ∀ x ∈ mem, P x) :
    ∀ x ∈ mem', P x := by
  induction blocks using Nat.strongRecOn generalizing size mem with
  | ind blocks ih =>
    rw [mergeLoop] at h
    split at h
    · rw [Option.some_inj] at h
      exact h ▸ hmem
    · obtain ⟨area, hpass, h⟩ := Option.bind_eq_some_iff.mp h
      obtain ⟨size', _, h⟩ := Option.bind_eq_some_iff.mp h
      apply ih (blocks / 2) (by omega) h
      apply exec_invariant (I := fun area => ∀ x ∈ area, P x) _ hmem hpass
      intro area i area' harea hstep
      obtain ⟨write, hwrite, rfl⟩ := Option.map_eq_some_iff.mp hstep
      intro x hx
      rw [overwrite, List.mem_append, List.mem_append] at hx
      rcases hx with hx | hx | hx
      · exact harea x (List.mem_of_mem_take hx)
      · exact hpair area size i write hwrite harea x hx
      · exact harea x (List.mem_of_mem_drop hx)

/-- The loop computes nothing but the merge tree, and only when its offsets fit. -/
theorem mergeLoop_eq_some (hpair : Merges unit pair) (hunit : 2 ≤ unit)
    (hfit : blocks * size ≤ mem.length) (hsize : unit * size < 2 ^ 31) :
    mergeLoop pair blocks (unit * size : ℕ) mem = some mem' ↔
      PassesFit blocks (unit * size) ∧ mem' = mergeTree mergeRuns blocks size mem := by
  constructor
  · intro h
    induction blocks, size, mem using mergeTree.induct (mergeRuns (T := T)) with
    | case1 blocks size mem hle =>
      rw [mergeLoop, if_pos hle, Option.some_inj] at h
      exact ⟨passesFit_of_le_one hle hsize, by rw [mergeTree_of_le_one hle, h]⟩
    | case2 blocks size mem hlt ih =>
      have hone : 1 < blocks := by omega
      have htwo : 2 * size ≤ unit * size := Nat.mul_le_mul_right size hunit
      rw [mergeLoop, if_neg hlt, Option.bind_eq_some_iff] at h
      obtain ⟨area, hpass, h⟩ := h
      obtain ⟨hfits, rfl⟩ := (pass_eq_some hpair hsize (by omega) hfit).mp hpass
      obtain ⟨size', hmul, h⟩ := Option.bind_eq_some_iff.mp h
      obtain ⟨hint, rfl⟩ := intMul_eq_some.mp hmul
      have hdouble : ((unit * size : ℕ) : ℤ) * 2 = (unit * (2 * size) : ℕ) := by
        rw [Nat.mul_left_comm unit 2]
        omega
      rw [hdouble] at h hint
      have hlen : blocks / 2 * (2 * size) ≤ (mergePass mergeRuns blocks size mem).length := by
        rw [mergePass_length mergeRuns_length]
        exact Nat.le_trans (pairs_le blocks size) hfit
      obtain ⟨hrest, hmem⟩ := ih hlen (by rw [IsInt] at hint; omega) h
      rw [Nat.mul_left_comm unit 2] at hrest
      exact ⟨(passesFit_halve hone).mpr ⟨hfits, hrest⟩, by rw [hmem, mergeTree_of_one_lt hone]⟩
  · rintro ⟨hpasses, rfl⟩
    exact mergeLoop_of_fit hpair (by omega) hfit hpasses

end OsispLabs.Lab6
