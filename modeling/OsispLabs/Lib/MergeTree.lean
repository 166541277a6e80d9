import Mathlib.Algebra.Group.Nat.Defs
import OsispLabs.Lib.Blocks
import OsispLabs.Lib.Execution

/-!
# Bottom-up merging of equal blocks

`blocks` runs of `size` elements are merged pair by pair, then the pairs, and so on; a run without
a partner is left behind. The two-run merge is a parameter.
-/
namespace OsispLabs.Lib

variable {α : Type*} (merge : List α → List α → List α)

/-- Merge the two halves of a block of `2 * size` elements. -/
def mergeHalves (size : ℕ) (xs : List α) : List α := merge (xs.take size) (xs.drop size)

/-- One pass: run `2 * i` is merged with run `2 * i + 1`. -/
def mergePass (blocks size : ℕ) (xs : List α) : List α :=
  mapBlocks (mergeHalves merge size) (2 * size) (blocks / 2) (fun _ => true) xs

/-- All passes. -/
def mergeTree (blocks size : ℕ) (xs : List α) : List α :=
  if blocks ≤ 1 then xs else mergeTree (blocks / 2) (2 * size) (mergePass merge blocks size xs)

/-- Only for such a number of blocks do the passes reach every block. -/
def IsTwoPower (n : ℕ) : Prop := 2 ^ Nat.log2 n = n

instance (n : ℕ) : Decidable (IsTwoPower n) := inferInstanceAs (Decidable (_ = _))

/-- Each of the first `n` blocks of `w` elements has the property `P`. -/
def EachBlock (P : List α → Prop) (w n : ℕ) (xs : List α) : Prop :=
  ∀ i < n, P (window xs (i * w) w)

variable {merge}

theorem mergeTree_of_le_one {blocks size : ℕ} {xs : List α} (h : blocks ≤ 1) :
    mergeTree merge blocks size xs = xs := by
  rw [mergeTree, if_pos h]

theorem mergeTree_of_one_lt {blocks size : ℕ} {xs : List α} (h : 1 < blocks) :
    mergeTree merge blocks size xs =
      mergeTree merge (blocks / 2) (2 * size) (mergePass merge blocks size xs) := by
  rw [mergeTree, if_neg (Nat.not_le_of_lt h)]

/-- The number of blocks in the run that the passes leave in front. -/
theorem two_pow_log2_halve {blocks : ℕ} (h : 1 < blocks) :
    2 ^ Nat.log2 blocks = 2 * 2 ^ Nat.log2 (blocks / 2) := by
  rw [Nat.log2_def, if_pos (by omega : 2 ≤ blocks), Nat.pow_succ, Nat.mul_comm]

theorem isTwoPower_iff {n : ℕ} : IsTwoPower n ↔ ∃ k, n = 2 ^ k := by
  constructor
  · intro h
    exact ⟨Nat.log2 n, h.symm⟩
  · rintro ⟨k, rfl⟩
    rw [IsTwoPower, Nat.log2_two_pow]

theorem two_pow_log2_lt {n : ℕ} (hpos : 0 < n) (h : ¬ IsTwoPower n) : 2 ^ Nat.log2 n < n :=
  Nat.lt_of_le_of_ne (Nat.log2_self_le (Nat.ne_of_gt hpos)) h

theorem EachBlock.mono {P : List α → Prop} {w k n : ℕ} {xs : List α} (hk : k ≤ n)
    (h : EachBlock P w n xs) : EachBlock P w k xs :=
  fun i hi => h i (Nat.lt_of_lt_of_le hi hk)

/-- The pairs of a pass lie inside the runs. -/
theorem pairs_le (blocks size : ℕ) : blocks / 2 * (2 * size) ≤ blocks * size := by
  rw [← Nat.mul_assoc]
  exact Nat.mul_le_mul_right size (Nat.div_mul_le_self blocks 2)

section Length

variable (hlen : ∀ xs ys, (merge xs ys).length = xs.length + ys.length)
include hlen

theorem mergeHalves_length (size : ℕ) (xs : List α) :
    (mergeHalves merge size xs).length = xs.length := by
  simp [mergeHalves, hlen]
  omega

theorem mergePass_length (blocks size : ℕ) (xs : List α) :
    (mergePass merge blocks size xs).length = xs.length :=
  mapBlocks_length (mergeHalves_length hlen size)

/-- A loop over the pairs, after its first `k` rounds. A round merges its pair in place; it fails
where the pair does not satisfy `fits` or is not inside the list. -/
theorem exec_pairs_eq_some {size n k : ℕ} {xs ys : List α} {fits : ℕ → Prop} [DecidablePred fits]
    {pair : List α → ℕ → Option (List α)} (hpair : ∀ zs i, pair zs i =
      if fits i ∧ (i + 1) * (2 * size) ≤ zs.length then
        some (overwrite zs (i * (2 * size))
          (mergeHalves merge size (window zs (i * (2 * size)) (2 * size))))
      else none) (hfit : n * (2 * size) ≤ xs.length) (hk : k ≤ n) :
    exec pair xs (List.range k) = some ys ↔ (∀ i < k, fits i) ∧
      ys = mapBlocks (mergeHalves merge size) (2 * size) n (fun i => decide (i < k)) xs := by
  have hhalves := mergeHalves_length hlen size
  induction k generalizing ys with
  | zero =>
    have hnone : mapBlocks (mergeHalves merge size) (2 * size) n (fun _ => false) xs = xs :=
      mapBlocks_none fun _ _ => rfl
    simp [hnone, eq_comm]
  | succ k ih =>
    have hend : (k + 1) * (2 * size) ≤ xs.length :=
      Nat.le_trans (Nat.mul_le_mul_right _ hk) hfit
    have hdone : (fun i => decide (i < k + 1)) =
        Function.update (fun i => decide (i < k)) k true := by
      funext i
      by_cases hik : i = k
      · simp [hik]
      · simp [hik]
        omega
    have hstep : ∀ zs, zs = mapBlocks (mergeHalves merge size) (2 * size) n
        (fun i => decide (i < k)) xs → (pair zs k = some ys ↔
          fits k ∧ ys = mapBlocks (mergeHalves merge size) (2 * size) n
            (fun i => decide (i < k + 1)) xs) := by
      intro zs hzs
      have hwindow : window zs (k * (2 * size)) (2 * size) =
          window xs (k * (2 * size)) (2 * size) := by
        rw [hzs, window_mapBlocks hhalves hfit (by omega)]
        simp
      have hstore := overwrite_mapBlocks (p := fun i => decide (i < k)) hhalves hfit (i := k)
        (by omega)
      have hlength : zs.length = xs.length := by rw [hzs, mapBlocks_length hhalves]
      rw [hpair zs k, hlength, hdone, ← hstore, ← hzs]
      by_cases h : fits k
      · simp [h, hend, hwindow, eq_comm]
      · simp [h]
    rw [List.range_succ, exec_append, Option.bind_eq_some_iff]
    simp only [exec_cons, exec_nil, Option.bind_fun_some]
    constructor
    · rintro ⟨zs, hzs, hlast⟩
      obtain ⟨hfits, hzs⟩ := (ih (by omega)).mp hzs
      obtain ⟨hk, hys⟩ := (hstep zs hzs).mp hlast
      refine ⟨fun i hi => ?_, hys⟩
      by_cases hik : i = k
      · exact hik ▸ hk
      · exact hfits i (by omega)
    · rintro ⟨hfits, hys⟩
      exact ⟨_, (ih (by omega)).mpr ⟨fun i hi => hfits i (by omega), rfl⟩,
        (hstep _ rfl).mpr ⟨hfits k (by omega), hys⟩⟩

/-- The loop over all pairs is a pass. -/
theorem exec_pass_eq_some {blocks size : ℕ} {xs ys : List α} {fits : ℕ → Prop}
    [DecidablePred fits] {pair : List α → ℕ → Option (List α)} (hpair : ∀ zs i, pair zs i =
      if fits i ∧ (i + 1) * (2 * size) ≤ zs.length then
        some (overwrite zs (i * (2 * size))
          (mergeHalves merge size (window zs (i * (2 * size)) (2 * size))))
      else none) (hfit : blocks * size ≤ xs.length) :
    exec pair xs (List.range (blocks / 2)) = some ys ↔
      (∀ i < blocks / 2, fits i) ∧ ys = mergePass merge blocks size xs := by
  have hall : mapBlocks (mergeHalves merge size) (2 * size) (blocks / 2)
      (fun i => decide (i < blocks / 2)) xs = mergePass merge blocks size xs :=
    mapBlocks_congr fun i hi => by simp [hi]
  rw [exec_pairs_eq_some hlen hpair (Nat.le_trans (pairs_le blocks size) hfit) (Nat.le_refl _),
    hall]

/-- Any property that `merge` passes on from both runs to the merged run goes through a pass. -/
theorem mergePass_each {P : List α → Prop} (hP : ∀ xs ys, P xs → P ys → P (merge xs ys))
    {blocks size k : ℕ} {xs : List α} (hfit : blocks * size ≤ xs.length) (hk : k ≤ blocks / 2)
    (h : EachBlock P size (2 * k) xs) :
    EachBlock P (2 * size) k (mergePass merge blocks size xs) := by
  intro i hi
  have hpairs := Nat.le_trans (pairs_le blocks size) hfit
  have hfirst : i * (2 * size) = (2 * i) * size := by
    rw [← Nat.mul_assoc, Nat.mul_comm i 2]
  have hleft : (window xs (i * (2 * size)) (2 * size)).take size =
      window xs ((2 * i) * size) size := by
    rw [take_window _ _ (by omega), hfirst]
  have hright : (window xs (i * (2 * size)) (2 * size)).drop size =
      window xs ((2 * i + 1) * size) size := by
    rw [Nat.two_mul size, drop_window, ← Nat.two_mul size, hfirst, ← Nat.succ_mul]
  rw [mergePass, window_mapBlocks (mergeHalves_length hlen size) hpairs (by omega), if_pos rfl,
    mergeHalves, hleft, hright]
  apply hP
  · exact h (2 * i) (by omega)
  · exact h (2 * i + 1) (by omega)

/-- The front run comes from the first `2 ^ log2 blocks` runs; the others never reach it. -/
theorem mergeTree_each {P : List α → Prop} (hP : ∀ xs ys, P xs → P ys → P (merge xs ys))
    {blocks size : ℕ} {xs : List α} (hpos : 0 < blocks) (hfit : blocks * size ≤ xs.length)
    (h : EachBlock P size (2 ^ Nat.log2 blocks) xs) :
    P ((mergeTree merge blocks size xs).take (size * 2 ^ Nat.log2 blocks)) := by
  induction blocks, size, xs using mergeTree.induct merge with
  | case1 blocks size xs hle =>
    have hone : blocks = 1 := by omega
    have hlog : Nat.log2 1 = 0 := by decide
    have hfirst := h 0 (Nat.two_pow_pos _)
    rw [Nat.zero_mul, window_zero] at hfirst
    rw [mergeTree_of_le_one hle, hone, hlog, Nat.pow_zero, Nat.mul_one]
    exact hfirst
  | case2 blocks size xs hlt ih =>
    have hone : 1 < blocks := by omega
    have hfit' : blocks / 2 * (2 * size) ≤ (mergePass merge blocks size xs).length := by
      rw [mergePass_length hlen]
      exact Nat.le_trans (pairs_le blocks size) hfit
    rw [two_pow_log2_halve hone] at h
    have hrest := ih (by omega) hfit'
      (mergePass_each hlen hP hfit (Nat.log2_self_le (by omega)) h)
    rw [mergeTree_of_one_lt hone, two_pow_log2_halve hone, ← Nat.mul_assoc, Nat.mul_comm size 2]
    exact hrest

theorem mergeTree_length (blocks size : ℕ) (xs : List α) :
    (mergeTree merge blocks size xs).length = xs.length := by
  induction blocks, size, xs using mergeTree.induct merge with
  | case1 blocks size xs hle => rw [mergeTree_of_le_one hle]
  | case2 blocks size xs hlt ih =>
    rw [mergeTree_of_one_lt (by omega), ih, mergePass_length hlen]

/-- The passes do not touch what lies behind the runs. -/
theorem mergeTree_append {blocks size : ℕ} {xs : List α} (hfit : blocks * size ≤ xs.length)
    (ys : List α) :
    mergeTree merge blocks size (xs ++ ys) = mergeTree merge blocks size xs ++ ys := by
  induction blocks, size, xs using mergeTree.induct merge with
  | case1 blocks size xs hle => rw [mergeTree_of_le_one hle, mergeTree_of_le_one hle]
  | case2 blocks size xs hlt ih =>
    have hone : 1 < blocks := by omega
    have hpairs := pairs_le blocks size
    have hpass : mergePass merge blocks size (xs ++ ys) = mergePass merge blocks size xs ++ ys :=
      mapBlocks_append (by omega) ys
    rw [mergeTree_of_one_lt hone, mergeTree_of_one_lt hone, hpass]
    exact ih (by rw [mergePass_length hlen]; omega)

end Length

section Perm

variable (hperm : ∀ xs ys, (merge xs ys).Perm (xs ++ ys))
include hperm

theorem mergeHalves_perm (size : ℕ) (xs : List α) : (mergeHalves merge size xs).Perm xs := by
  have h := hperm (xs.take size) (xs.drop size)
  rwa [List.take_append_drop] at h

theorem mergeTree_perm (blocks size : ℕ) (xs : List α) :
    (mergeTree merge blocks size xs).Perm xs := by
  induction blocks, size, xs using mergeTree.induct merge with
  | case1 blocks size xs hle => rw [mergeTree_of_le_one hle]
  | case2 blocks size xs hlt ih =>
    rw [mergeTree_of_one_lt (by omega)]
    exact ih.trans (mapBlocks_perm (mergeHalves_perm hperm size))

end Perm

end OsispLabs.Lib
