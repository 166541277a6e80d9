import OsispLabs.Lab6.MergeLoop

/-!
# The passes of `lastMerge`

`lastMerge` with exact integers for its byte offsets, one pass of its `while` loop at a time. At
the head of each pass the groups that are still counted are sorted; a group without a partner is
counted no more. Where all offsets fit into an `int` the program computes the same.
-/
namespace OsispLabs.Lab6
open Lib

variable {T : Type*}

/-- The variables of `lastMerge` at the head of its `while` loop, with the record area. -/
structure LastMerge (T : Type*) where
  mergeBlocks : ℕ
  tmpBlockSize : ℕ
  area : List (IndexS T)

namespace LastMerge

/-- `lastMerge` up to its loop, for a file that holds `area` behind its header. -/
def start (memsize : ℕ) (area : List (IndexS T)) : LastMerge T :=
  ⟨(16 + 16 * area.length - 16) / (memsize * 16), memsize * 16, area⟩

/-- The records of a group. -/
def groupSize (s : LastMerge T) : ℕ := s.tmpBlockSize / 16

section Machine

variable [LT T] [DecidableLT T]

/-- A round of the `for` loop: `merge` of the records at two byte offsets. -/
def mergeBlock (tmpBlockSize : ℕ) (area : List (IndexS T)) (tmpBlockId : ℕ) :
    Option (List (IndexS T)) :=
  let startMerge1 := tmpBlockId * 2 * tmpBlockSize / 16
  let startMerge2 := (tmpBlockId * 2 + 1) * tmpBlockSize / 16
  let count := tmpBlockSize / 16
  if startMerge1 + 2 * count ≤ area.length ∧ startMerge2 + count ≤ area.length then
    some (overwrite area startMerge1
      (mergeRuns (window area startMerge1 count) (window area startMerge2 count)))
  else none

/-- A pass of the `while` loop, `none` where the loop ends. -/
def next (s : LastMerge T) (_ : Unit) : Option (LastMerge T) :=
  if 1 < s.mergeBlocks then
    (exec (mergeBlock s.tmpBlockSize) s.area (List.range (s.mergeBlocks / 2))).map fun area =>
      ⟨s.mergeBlocks / 2, s.tmpBlockSize * 2, area⟩
  else none

theorem mergeBlock_eq (size : ℕ) (area : List (IndexS T)) (i : ℕ) :
    mergeBlock (16 * size) area i = if True ∧ (i + 1) * (2 * size) ≤ area.length then
      some (overwrite area (i * (2 * size))
        (mergeHalves mergeRuns size (window area (i * (2 * size)) (2 * size))))
    else none := by
  have hfirst : i * 2 * (16 * size) / 16 = i * (2 * size) := by
    rw [Nat.mul_left_comm, Nat.mul_div_cancel_left _ (by omega), Nat.mul_assoc]
  have hsecond : (i * 2 + 1) * (16 * size) / 16 = i * (2 * size) + size := by
    rw [Nat.mul_left_comm, Nat.mul_div_cancel_left _ (by omega), Nat.succ_mul, Nat.mul_assoc]
  have hcount : 16 * size / 16 = size := Nat.mul_div_cancel_left _ (by omega)
  have hend : (i + 1) * (2 * size) = i * (2 * size) + 2 * size := Nat.succ_mul _ _
  have hhalves : mergeHalves mergeRuns size (window area (i * (2 * size)) (2 * size)) =
      mergeRuns (window area (i * (2 * size)) size) (window area (i * (2 * size) + size) size) := by
    rw [mergeHalves, take_window _ _ (by omega), Nat.two_mul, drop_window]
  simp only [mergeBlock, hfirst, hsecond, hcount, hend, hhalves, true_and]
  by_cases h : i * (2 * size) + 2 * size ≤ area.length
  · rw [if_pos h, if_pos ⟨h, by omega⟩]
  · rw [if_neg h, if_neg fun hboth => h hboth.1]

/-- A pass over whole groups inside the area is a pass of the merge tree. -/
theorem next_eq {s : LastMerge T} {size : ℕ} (hbytes : s.tmpBlockSize = 16 * size)
    (hfit : s.mergeBlocks * size ≤ s.area.length) (hone : 1 < s.mergeBlocks) (u : Unit) :
    s.next u = some ⟨s.mergeBlocks / 2, 16 * (2 * size),
      mergePass mergeRuns s.mergeBlocks size s.area⟩ := by
  have hpass : exec (mergeBlock s.tmpBlockSize) s.area (List.range (s.mergeBlocks / 2)) =
      some (mergePass mergeRuns s.mergeBlocks size s.area) := by
    rw [hbytes, exec_pass_eq_some mergeRuns_length (mergeBlock_eq size) hfit]
    exact ⟨fun _ _ => trivial, rfl⟩
  rw [next, if_pos hone, hpass, Option.map_some, hbytes, Nat.mul_assoc, Nat.mul_comm size 2]

end Machine

variable [LinearOrder T]

/-- What holds at the head of every pass over `c` chunks of `m` records. -/
structure Head (c m : ℕ) (area : List (IndexS T)) (s : LastMerge T) : Prop where
  pos : 1 ≤ s.mergeBlocks
  bytes : s.tmpBlockSize = 16 * s.groupSize
  front : 2 ^ Nat.log2 s.mergeBlocks * s.groupSize = 2 ^ Nat.log2 c * m
  fit : s.mergeBlocks * s.groupSize ≤ s.area.length
  sorted : EachBlock (List.Pairwise Precedes) s.groupSize s.mergeBlocks s.area
  perm : s.area.Perm area

variable {c m : ℕ} {area : List (IndexS T)} {s t : LastMerge T}

omit [LinearOrder T] in
theorem start_eq (hm : 1 ≤ m) (hlen : area.length = c * m) :
    start m area = ⟨c, 16 * m, area⟩ := by
  have hbytes : 16 * (c * m) = c * (16 * m) := Nat.mul_left_comm 16 c m
  rw [start, hlen, Nat.add_sub_cancel_left, Nat.mul_comm m 16, hbytes,
    Nat.mul_div_cancel _ (by omega)]

theorem start_head (hc : 1 ≤ c) (hm : 1 ≤ m) (hlen : area.length = c * m)
    (hsorted : EachBlock (List.Pairwise Precedes) m c area) : Head c m area (start m area) := by
  have hgroup : groupSize ⟨c, 16 * m, area⟩ = m := Nat.mul_div_cancel_left _ (by omega)
  rw [start_eq hm hlen]
  refine ⟨hc, ?_, ?_, ?_, ?_, .refl _⟩
  · rw [hgroup]
  · rw [hgroup]
  · rw [hgroup, hlen]
  · rw [hgroup]
    exact hsorted

/-- What a pass does. -/
theorem Head.of_next (hs : Head c m area s) {u : Unit} (h : s.next u = some t) :
    1 < s.mergeBlocks ∧ t = ⟨s.mergeBlocks / 2, 16 * (2 * s.groupSize),
      mergePass mergeRuns s.mergeBlocks s.groupSize s.area⟩ := by
  have hone : 1 < s.mergeBlocks := by
    by_contra hnot
    rw [LastMerge.next, if_neg hnot] at h
    cases h
  rw [next_eq hs.bytes hs.fit hone] at h
  exact ⟨hone, (Option.some.inj h).symm⟩

/-- One pass halves the count, doubles the size and merges sorted groups into sorted groups. -/
theorem Head.next (hs : Head c m area s) {u : Unit} (h : s.next u = some t) : Head c m area t := by
  obtain ⟨hone, rfl⟩ := hs.of_next h
  have hgroup : groupSize ⟨s.mergeBlocks / 2, 16 * (2 * s.groupSize),
      mergePass mergeRuns s.mergeBlocks s.groupSize s.area⟩ = 2 * s.groupSize :=
    Nat.mul_div_cancel_left _ (by omega)
  refine ⟨by change 1 ≤ s.mergeBlocks / 2; omega, ?_, ?_, ?_, ?_, ?_⟩
  · rw [hgroup]
  · have hfront := hs.front
    rw [two_pow_log2_halve hone, Nat.mul_assoc, Nat.mul_left_comm] at hfront
    rw [hgroup]
    exact hfront
  · rw [hgroup, mergePass_length mergeRuns_length]
    exact Nat.le_trans (pairs_le _ _) hs.fit
  · have hpaired : 2 * (s.mergeBlocks / 2) ≤ s.mergeBlocks := Nat.mul_div_le _ 2
    rw [hgroup]
    exact mergePass_each mergeRuns_length mergeRuns_sorted hs.fit (Nat.le_refl _)
      (hs.sorted.mono hpaired)
  · exact (mapBlocks_perm (mergeHalves_perm mergeRuns_perm _)).trans hs.perm

/-- The head after the last pass. -/
theorem Head.done (hs : Head c m area s) (hdone : s.mergeBlocks ≤ 1) :
    (s.area.take (2 ^ Nat.log2 c * m)).Pairwise Precedes := by
  have hone : s.mergeBlocks = 1 := Nat.le_antisymm hdone hs.pos
  have hfront := hs.front
  have hfirst := hs.sorted 0 hs.pos
  rw [hone, show Nat.log2 1 = 0 from rfl, Nat.pow_zero, Nat.one_mul] at hfront
  rw [Nat.zero_mul, window_zero, hfront] at hfirst
  exact hfirst

/-- Every pass counts down, so `lastMerge` makes at most `log2 c` of them. -/
theorem Head.log2_lt (hs : Head c m area s) {u : Unit} (h : s.next u = some t) :
    Nat.log2 t.mergeBlocks < Nat.log2 s.mergeBlocks := by
  obtain ⟨hone, rfl⟩ := hs.of_next h
  rw [Nat.log2_def s.mergeBlocks, if_pos (by omega : 2 ≤ s.mergeBlocks)]
  exact Nat.lt_succ_self _

/-- What `lastMerge` does to `c` chunks of `m` records. -/
structure MergesChunks (c m : ℕ) (area : List (IndexS T)) : Prop where
  terminates : ∀ as s, exec next (start m area) as = some s → as.length ≤ Nat.log2 c
  heads : ∀ as s, exec next (start m area) as = some s →
    EachBlock (List.Pairwise Precedes) s.groupSize s.mergeBlocks s.area
  ends : ∃ as s, exec next (start m area) as = some s ∧ s.mergeBlocks ≤ 1 ∧ s.area.Perm area ∧
    (s.area.take (2 ^ Nat.log2 c * m)).Pairwise Precedes ∧
      (IsTwoPower c → s.area.Pairwise Precedes)

/-- Sorted chunks, of whatever number and length, are merged into sorted groups pass by pass. -/
theorem mergesChunks (c m : ℕ) (hc : 1 ≤ c) (hm : 1 ≤ m) (area : List (IndexS T))
    (hlen : area.length = c * m) (hsorted : EachBlock (List.Pairwise Precedes) m c area) :
    MergesChunks c m area := by
  have hstart := start_head hc hm hlen hsorted
  have hhead : ∀ as s, exec next (start m area) as = some s → Head c m area s :=
    fun as s hrun => exec_invariant (fun _ _ _ hs h => hs.next h) hstart hrun
  have hterminates : ∀ as s, exec next (start m area) as = some s → as.length ≤ Nat.log2 c := by
    intro as s hrun
    have hle := exec_length_le (I := Head c m area) (m := fun s => Nat.log2 s.mergeBlocks)
      (fun _ _ _ hs h => hs.next h) (fun _ _ _ hs h => hs.log2_lt h) hstart hrun
    rw [start_eq hm hlen] at hle
    change as.length + _ ≤ Nat.log2 c at hle
    omega
  refine ⟨hterminates, fun as s hrun => (hhead as s hrun).sorted, ?_⟩
  have hmove : ∀ as s, exec next (start m area) as = some s → ¬ s.mergeBlocks ≤ 1 →
      ∃ u, (s.next u).isSome := by
    intro as s hrun hnot
    have hs := hhead as s hrun
    refine ⟨(), ?_⟩
    rw [next_eq hs.bytes hs.fit (by omega)]
    rfl
  obtain ⟨as, s, hrun, hdone⟩ := exists_exec_final hmove hterminates
  have hs := hhead as s hrun
  refine ⟨as, s, hrun, hdone, hs.perm, hs.done hdone, fun htwo => ?_⟩
  have hall := hs.done hdone
  have hlength : s.area.length = c * m := hs.perm.length_eq.trans hlen
  rw [show 2 ^ Nat.log2 c = c from htwo, List.take_of_length_le (Nat.le_of_eq hlength)] at hall
  exact hall

theorem mergesChunks_three : MergesChunks 3 2 ([⟨1, 0⟩, ⟨4, 1⟩, ⟨2, 2⟩, ⟨3, 3⟩, ⟨0, 4⟩, ⟨5, 5⟩] :
    List (IndexS ℕ)) := by
  have hsorted : EachBlock (List.Pairwise Precedes) 2 3 ([⟨1, 0⟩, ⟨4, 1⟩, ⟨2, 2⟩, ⟨3, 3⟩, ⟨0, 4⟩,
      ⟨5, 5⟩] : List (IndexS ℕ)) := by
    intro i hi
    obtain rfl | rfl | rfl : i = 0 ∨ i = 1 ∨ i = 2 := by omega
    all_goals simp [window, precedes_iff]
  exact mergesChunks 3 2 (by decide) (by decide) _ rfl hsorted

omit [LinearOrder T] in
/-- The passes from a head make up the merge tree. -/
theorem exec_mergeTree [LT T] [DecidableLT T] (blocks size : ℕ) (area : List (IndexS T))
    (hfit : blocks * size ≤ area.length) :
    ∃ as s, exec next ⟨blocks, 16 * size, area⟩ as = some s ∧ s.mergeBlocks ≤ 1 ∧
      s.area = mergeTree mergeRuns blocks size area := by
  induction blocks, size, area using mergeTree.induct (mergeRuns (T := T)) with
  | case1 blocks size area hle =>
    exact ⟨[], _, rfl, hle, (mergeTree_of_le_one hle).symm⟩
  | case2 blocks size area hlt ih =>
    have hone : 1 < blocks := by omega
    have hrest : blocks / 2 * (2 * size) ≤ (mergePass mergeRuns blocks size area).length := by
      rw [mergePass_length mergeRuns_length]
      exact Nat.le_trans (pairs_le blocks size) hfit
    obtain ⟨as, s, hrun, hdone, hs⟩ := ih hrest
    have hnext := next_eq (s := ⟨blocks, 16 * size, area⟩) rfl hfit hone ()
    refine ⟨() :: as, s, ?_, hdone, ?_⟩
    · rw [exec_cons, hnext]
      exact hrun
    · rw [mergeTree_of_one_lt hone, hs]

/-- Where its `int` offsets fit, the program's `lastMerge` returns the area of the last head. -/
theorem lastMerge_eq_last (hc : 1 ≤ c) (hm : 1 ≤ m) (hlen : area.length = c * m)
    (hint : PassesFit c (16 * m)) : ∃ as s, exec next (start m area) as = some s ∧
      s.mergeBlocks ≤ 1 ∧ lastMerge m (16 + 16 * (c * m) : ℕ) area = some s.area := by
  obtain ⟨as, s, hrun, hdone, hs⟩ := exec_mergeTree c m area (Nat.le_of_eq hlen.symm)
  rw [start_eq hm hlen]
  refine ⟨as, s, hrun, hdone, ?_⟩
  have hlog := Nat.lt_log2_self (n := c)
  rw [Nat.pow_succ] at hlog
  have hfirst := hint.run_lt
  have hsmall : c * (16 * m) < 2 ^ 32 := by
    have htwo := hint.2
    have hle := Nat.mul_le_mul_right (16 * m) (Nat.le_of_lt hlog)
    rw [Nat.mul_right_comm, Nat.mul_comm (2 ^ _) (16 * m)] at hle
    omega
  have hbytes : 16 * (c * m) = c * (16 * m) := Nat.mul_left_comm 16 c m
  have hcle : c ≤ c * m := Nat.le_mul_of_pos_right c hm
  have hcint : toInt (c : ℕ) = c := toInt_of_isInt (by rw [IsInt]; omega)
  have hmint : toInt ((m : ℤ) * 16) = (16 * m : ℕ) := by
    rw [toInt_of_isInt (by rw [IsInt]; omega)]
    omega
  have hchunk : toSize ((m : ℤ) * 16) = 16 * m := by
    rw [toSize_of_nonneg (by omega) (by omega)]
    omega
  have harea : toSize (((16 + 16 * (c * m) : ℕ) : ℤ) - 16) = c * (16 * m) := by
    rw [toSize_of_nonneg (by omega) (by omega)]
    omega
  have hcount : ((c * (16 * m) : ℕ) : ℤ) / (16 * m : ℕ) = c := by
    rw [← Int.natCast_ediv, Nat.mul_div_cancel _ (by omega)]
  rw [lastMerge, hchunk, harea, if_neg (by omega), hcount, hcint, hmint, Int.toNat_natCast,
    mergeLoop_of_fit mergeBytes_merges (by omega) (Nat.le_of_eq hlen.symm) hint, hs]

end LastMerge

end OsispLabs.Lab6
