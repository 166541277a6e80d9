import OsispLabs.Lab6.SortedFile

/-!
# Where the smallest record stays

In the file the smallest record lies last. Blocks that are too short, a number of blocks or a number
of chunks that is no power of two keep it from the front.
-/
namespace OsispLabs.Lab6
open Lib

variable {T : Type*}

/-- The list starts with this record, if it has one. -/
def HeadIs (x : IndexS T) (xs : List (IndexS T)) : Prop := ∀ y ∈ xs.head?, y = x

section HeadIs

variable {x : IndexS T} {xs ys : List (IndexS T)} {k : ℕ}

theorem HeadIs.of_take (hk : 0 < k) (h : HeadIs x (xs.take k)) : HeadIs x xs := by
  cases xs with
  | nil => simp [HeadIs]
  | cons y xs =>
    cases k with
    | zero => omega
    | succ k => exact h

theorem HeadIs.mergeRuns [LT T] [DecidableLT T] (hxs : HeadIs x xs) (hys : HeadIs x ys) :
    HeadIs x (mergeRuns xs ys) :=
  mergeRuns_head? (fun y => y = x) xs ys hxs hys

theorem headIs_replicate : HeadIs x (List.replicate k x) := by
  intro y hy
  exact List.eq_of_mem_replicate (List.mem_of_mem_head? hy)

end HeadIs

section SmallestLast

variable {high low : T} {start len n : ℕ}

theorem window_smallestLast (h : start + len ≤ n) :
    window (smallestLast high low n) start len = List.replicate len ⟨high, 0⟩ := by
  have hstart : start ≤ (List.replicate n (⟨high, 0⟩ : IndexS T)).length := by
    rw [List.length_replicate]
    omega
  have hlen : len ≤ (List.replicate (n - start) (⟨high, 0⟩ : IndexS T)).length := by
    rw [List.length_replicate]
    omega
  rw [window, smallestLast, List.drop_append_of_le_length hstart, List.drop_replicate,
    List.take_append_of_le_length hlen, List.take_replicate, Nat.min_eq_left (by omega)]

/-- Sorted, such a list does not start with a large record. -/
theorem smallestLast_not_headIs [LinearOrder T] (hlt : low < high) {out : List (IndexS T)}
    (hperm : out.Perm (smallestLast high low n)) (hsorted : out.Pairwise Precedes) :
    ¬ HeadIs ⟨high, 0⟩ out := by
  intro hhead
  have hlow : (⟨low, 0⟩ : IndexS T) ∈ out := by
    rw [hperm.mem_iff]
    exact List.mem_append_right _ (List.mem_singleton_self _)
  cases out with
  | nil => cases hlow
  | cons y out =>
    have hy : y = ⟨high, 0⟩ := hhead y rfl
    subst hy
    rcases List.mem_cons.mp hlow with heq | hmem
    · exact absurd (congrArg IndexS.timeMark heq) (ne_of_lt hlt)
    · have hle := (precedes_iff _ _).mp ((List.pairwise_cons.mp hsorted).1 _ hmem)
      exact absurd hle (not_le_of_gt hlt)

end SmallestLast

section LastMerge

variable [LT T] [DecidableLT T] {mem mem' : List (IndexS T)} {blocks : ℕ} {size : ℤ}

theorem mergeBytes_negative (hneg : size < 0) (hint : IsInt size) :
    mergeBytes mem size 0 = none := by
  have hfirst : intMul ((2 * 0 : ℕ) : ℤ) size = some 0 := by
    rw [intMul_eq_some, IsInt]
    omega
  have hsecond : intMul ((2 * 0 + 1 : ℕ) : ℤ) size = some size := by
    rw [intMul_eq_some]
    simpa using hint
  rw [mergeBytes, hfirst, hsecond, Option.bind_some, Option.bind_some, merge,
    Option.bind_eq_none_iff]
  intro twice _
  rw [if_neg (by omega)]

/-- A negative chunk size sends the first merge out of the file. -/
theorem mergeLoop_negative (hone : 1 < blocks) (hneg : size < 0) (hint : IsInt size) :
    mergeLoop mergeBytes blocks size mem = none := by
  have hrange : List.range (blocks / 2) =
      0 :: (List.range (blocks / 2 - 1)).map Nat.succ := by
    rw [← List.range_succ_eq_map]
    congr 1
    omega
  rw [mergeLoop, if_neg (by omega), hrange, exec_cons, mergePair, mergeBytes_negative hneg hint]
  rfl

/-- Runs without records are left alone. -/
theorem mergeTree_size_zero (blocks : ℕ) (mem : List (IndexS T)) :
    mergeTree mergeRuns blocks 0 mem = mem := by
  have hnil : mergeTree mergeRuns blocks 0 ([] : List (IndexS T)) = [] := by
    rw [← List.length_eq_zero_iff, mergeTree_length mergeRuns_length, List.length_nil]
  have happend : mergeTree mergeRuns blocks 0 ([] ++ mem) =
      mergeTree mergeRuns blocks 0 [] ++ mem :=
    mergeTree_append mergeRuns_length (Nat.le_refl _) mem
  rwa [hnil, List.nil_append] at happend

namespace Args

variable {a : Args} {records rounds size : ℕ} {x : IndexS T} {index out : List (IndexS T)}

/-- The first record of the file is what it was, if the front runs of the last merge start with
that record. -/
theorem Chunked.lastPass_head (h : a.Chunked records rounds size) (hpos : 0 < a.memsize.toNat)
    (hindex : index.length = records) (hhead : HeadIs x index)
    (heach : ∀ run, 0 < run → toInt (16 * a.memsize.toNat : ℕ) = (16 * run : ℕ) →
      EachBlock (HeadIs x) run (2 ^ Nat.log2 (toInt rounds).toNat) index)
    (hout : a.lastPass records index = some out) : HeadIs x out := by
  have hint := isInt_toInt (16 * a.memsize.toNat : ℕ)
  rw [h.lastPass_eq index hpos] at hout
  by_cases hone : (toInt rounds).toNat ≤ 1
  · rw [mergeLoop, if_pos hone, Option.some_inj] at hout
    exact hout ▸ hhead
  · by_cases hneg : toInt (16 * a.memsize.toNat : ℕ) < 0
    · rw [mergeLoop_negative (by omega) hneg hint] at hout
      cases hout
    · have hrun : ∃ run ≤ a.memsize.toNat, toInt (16 * a.memsize.toNat : ℕ) = (16 * run : ℕ) ∧
          16 * run < 2 ^ 31 := by
        refine ⟨(toInt (16 * a.memsize.toNat : ℕ)).toNat / 16, ?_⟩
        simp only [toInt, Int.bmod_def] at hneg ⊢
        omega
      obtain ⟨run, hle, hbytes, hlt⟩ := hrun
      have hfit : (toInt rounds).toNat * run ≤ index.length := by
        rw [hindex, h.records_eq]
        exact Nat.mul_le_mul (toNat_toInt_le rounds) hle
      rw [hbytes] at hout
      obtain ⟨_, rfl⟩ := (mergeLoop_eq_some mergeBytes_merges (by omega) hfit hlt).mp hout
      by_cases hzero : run = 0
      · rw [hzero, mergeTree_size_zero]
        exact hhead
      · have hrunPos := Nat.pos_of_ne_zero hzero
        have htree := mergeTree_each mergeRuns_length (fun _ _ => HeadIs.mergeRuns) (by omega) hfit
          (heach run hrunPos hbytes)
        exact htree.of_take (Nat.mul_pos hrunPos (Nat.two_pow_pos _))

end Args

end LastMerge

section Chunks

variable [LinearOrder T]

theorem Globals.result_replicate {g : Globals T} (hsort : g.qsort.Sorts) (size k : ℕ)
    (x : IndexS T) : g.result size (List.replicate k x) = List.replicate k x :=
  List.perm_replicate.mp (Globals.result_perm hsort size _)

/-- When some blocks are not merged, the front of a chunk comes from the other blocks. -/
theorem Globals.result_head {g : Globals T} (hsort : g.qsort.Sorts) {size : ℕ} {x : IndexS T}
    {chunk : List (IndexS T)} (hpos : 0 < g.blockNum) (hsize : 0 < size)
    (hchunk : g.blockNum * size ≤ chunk.length)
    (h : ∀ i < 2 ^ Nat.log2 g.blockNum, window chunk (i * size) size = List.replicate size x) :
    HeadIs x (g.result size chunk) := by
  have heach : EachBlock (HeadIs x) size (2 ^ Nat.log2 g.blockNum) (g.sortedAll size chunk) := by
    intro i hi
    have hblock := Nat.lt_of_lt_of_le hi (Nat.log2_self_le (Nat.ne_of_gt hpos))
    rw [sortedAll, window_mapBlocks g.qsort.length_sort hchunk hblock, if_pos rfl, h i hi,
      List.perm_replicate.mp (hsort.perm _)]
    exact headIs_replicate
  have hlength : g.blockNum * size ≤ (g.sortedAll size chunk).length := by
    rw [sortedAll, mapBlocks_length g.qsort.length_sort]
    exact hchunk
  have htree := mergeTree_each mergeRuns_length (fun _ _ => HeadIs.mergeRuns) hpos hlength heach
  exact htree.of_take (Nat.mul_pos hsize (Nat.two_pow_pos _))

namespace Args

variable {a : Args} {qsort : Qsort T} {high low : T} {m rounds size : ℕ}
  {out : List (IndexS T)} (hsort : qsort.Sorts) (h : a.Chunked (m + 1) rounds size)
include h

theorem Chunked.smallestLast_end {i : ℕ} (hi : i < rounds) :
    i * a.memsize.toNat + a.memsize.toNat ≤ m + 1 := by
  rw [h.records_eq, ← Nat.succ_mul]
  exact Nat.mul_le_mul_right _ hi

theorem Chunked.front_le : 2 ^ Nat.log2 (toInt rounds).toNat ≤ rounds := by
  by_cases hzero : (toInt rounds).toNat = 0
  · rw [hzero]
    exact h.rounds_pos
  · exact Nat.le_trans (Nat.log2_self_le hzero) (toNat_toInt_le rounds)

include hsort

/-- Blocks that are too short leave the file as it is. -/
theorem Chunked.chunks_short (hshort : size < a.size) :
    a.chunks qsort size rounds (smallestLast high low m) = smallestLast high low m := by
  apply mapBlocks_eq_self
  intro i hi
  have hend := h.smallestLast_end hi
  have hlt : a.blockNum.toNat * size < a.blockNum.toNat * a.size :=
    Nat.mul_lt_mul_of_pos_left hshort (blockNum_pos h.runnable)
  have hle := a.size_le
  have hfront : (window (smallestLast high low m) (i * a.memsize.toNat) a.memsize.toNat).take
      (a.blockNum.toNat * size) = List.replicate (a.blockNum.toNat * size) ⟨high, 0⟩ := by
    rw [take_window _ _ (by omega), window_smallestLast (by omega)]
  have hfit : (a.globals qsort).blockNum * size ≤
      (List.replicate (a.blockNum.toNat * size) (⟨high, 0⟩ : IndexS T)).length :=
    Nat.le_of_eq List.length_replicate.symm
  have happend := Globals.result_append (a.globals qsort) hfit
    ((window (smallestLast high low m) (i * a.memsize.toNat) a.memsize.toNat).drop
      (a.blockNum.toNat * size))
  rw [Globals.result_replicate hsort, ← hfront, List.take_append_drop] at happend
  exact happend

theorem Chunked.head_of_short (hshort : size < a.size) (hlarge : 2 ^ 31 ≤ 16 * a.memsize.toNat)
    (hout : a.lastPass (m + 1) (a.chunks qsort size rounds (smallestLast high low m)) = some out) :
    HeadIs ⟨high, 0⟩ out := by
  rw [h.chunks_short hsort hshort] at hout
  have hend := h.smallestLast_end h.rounds_pos
  have hhead : HeadIs ⟨high, 0⟩ (smallestLast high low m) := by
    have hfirst : window (smallestLast high low m) 0 1 = List.replicate 1 ⟨high, 0⟩ :=
      window_smallestLast (by omega)
    rw [window_zero] at hfirst
    apply HeadIs.of_take Nat.one_pos
    rw [hfirst]
    exact headIs_replicate
  refine h.lastPass_head (by omega) smallestLast_length hhead (fun run hrun hbytes i hi => ?_) hout
  have hint := isInt_toInt (16 * a.memsize.toNat : ℕ)
  rw [hbytes, IsInt] at hint
  have hfront := h.front_le
  have hruns : (i + 1) * run ≤ rounds * run := Nat.mul_le_mul_right _ (by omega)
  have hless : rounds * run < rounds * a.memsize.toNat :=
    Nat.mul_lt_mul_of_pos_left (by omega) h.rounds_pos
  rw [← h.records_eq] at hless
  rw [Nat.succ_mul] at hruns
  rw [window_smallestLast (by omega)]
  exact headIs_replicate

omit hsort in
/-- The chunk of a round in the area of the last merge. -/
theorem Chunked.window_chunks {i : ℕ} (hi : i < rounds) :
    window (a.chunks qsort size rounds (smallestLast high low m)) (i * a.memsize.toNat)
        a.memsize.toNat =
      (a.globals qsort).result size
        (window (smallestLast high low m) (i * a.memsize.toNat) a.memsize.toNat) := by
  rw [chunks, window_mapBlocks ((a.globals qsort).result_length size) _ hi, if_pos rfl]
  rw [smallestLast_length, h.records_eq]

omit hsort in
/-- Unless the chunk size wraps to a smaller one, the front chunks decide. -/
theorem Chunked.head_of_each (hpos : 0 < a.memsize.toNat)
    (hbytes : toInt (16 * a.memsize.toNat : ℕ) < 0 ∨ 16 * a.memsize.toNat < 2 ^ 31)
    (heach : ∀ i < 2 ^ Nat.log2 (toInt rounds).toNat, HeadIs ⟨high, 0⟩
      ((a.globals qsort).result size
        (window (smallestLast high low m) (i * a.memsize.toNat) a.memsize.toNat)))
    (hout : a.lastPass (m + 1) (a.chunks qsort size rounds (smallestLast high low m)) = some out) :
    HeadIs ⟨high, 0⟩ out := by
  have hfront := h.front_le
  have hblock : ∀ i < 2 ^ Nat.log2 (toInt rounds).toNat, HeadIs ⟨high, 0⟩
      (window (a.chunks qsort size rounds (smallestLast high low m)) (i * a.memsize.toNat)
        a.memsize.toNat) := by
    intro i hi
    rw [h.window_chunks (by omega)]
    exact heach i hi
  have hlength : (a.chunks qsort size rounds (smallestLast high low m)).length = m + 1 := by
    rw [chunks, mapBlocks_length ((a.globals qsort).result_length size), smallestLast_length]
  have hhead := hblock 0 (Nat.two_pow_pos _)
  rw [Nat.zero_mul, window_zero] at hhead
  refine h.lastPass_head hpos hlength (hhead.of_take hpos) (fun run hrun hsize => ?_) hout
  have hwhole : run = a.memsize.toNat := by
    rcases hbytes with hneg | hlt
    · omega
    · rw [toInt_of_isInt (by rw [IsInt]; omega)] at hsize
      omega
  rw [hwhole]
  exact hblock

/-- A block that is left out of the merges of its chunk. -/
theorem Chunked.head_of_blocks (hpos : 0 < a.memsize.toNat)
    (hmul : a.blockNum.toNat * size = a.memsize.toNat)
    (hblocks : (a.globals qsort).BlocksFit size) (htwo : ¬ IsTwoPower a.blockNum.toNat)
    (hout : a.lastPass (m + 1) (a.chunks qsort size rounds (smallestLast high low m)) = some out) :
    HeadIs ⟨high, 0⟩ out := by
  have hblockNum := blockNum_pos h.runnable
  have hsize : 0 < size := by
    apply Nat.pos_of_ne_zero
    rintro rfl
    omega
  have hfront := h.front_le
  have hless := two_pow_log2_lt hblockNum htwo
  refine h.head_of_each hpos ?_ (fun i hi => ?_) hout
  · have hlast := hblocks (a.blockNum.toNat - 1) (Nat.sub_lt hblockNum Nat.one_pos)
    have hsplit := Nat.sub_one_add_one_eq_of_pos hblockNum
    have hbytes : a.blockNum.toNat * (16 * size) = 16 * a.memsize.toNat := by
      rw [Nat.mul_left_comm, hmul]
    rw [← hsplit, Nat.succ_mul] at hbytes
    have hlt := h.bytes_lt
    simp only [BlockFits] at hlast
    simp only [toInt, Int.bmod_def]
    omega
  · have hend := h.smallestLast_end (Nat.lt_of_lt_of_le hi hfront)
    apply Globals.result_head hsort hblockNum hsize
    · rw [window_length (by rw [smallestLast_length]; omega)]
      exact Nat.le_of_eq hmul
    · intro j hj
      have hwithin : (j + 2) * size ≤ a.blockNum.toNat * size :=
        Nat.mul_le_mul_right _ (by rw [globals_blockNum] at hj; omega)
      rw [Nat.succ_mul, Nat.succ_mul] at hwithin
      rw [window_window _ _ (by omega), window_smallestLast (by omega)]

/-- A chunk that is left out of the last merge. -/
theorem Chunked.head_of_rounds (hpos : 0 < a.memsize.toNat) (hlt : 16 * a.memsize.toNat < 2 ^ 31)
    (hrounds : 2 ^ Nat.log2 (toInt rounds).toNat < rounds)
    (hout : a.lastPass (m + 1) (a.chunks qsort size rounds (smallestLast high low m)) = some out) :
    HeadIs ⟨high, 0⟩ out := by
  refine h.head_of_each hpos (.inr hlt) (fun i hi => ?_) hout
  have hend := h.smallestLast_end (by omega : i + 1 < rounds)
  rw [Nat.succ_mul] at hend
  rw [window_smallestLast (by omega), Globals.result_replicate hsort]
  exact headIs_replicate

end Args

end Chunks

end OsispLabs.Lab6
