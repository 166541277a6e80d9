import OsispLabs.Lab6.ChunkRun
import OsispLabs.Lab6.Main

/-!
# The block size as an `int`

`blockSize` is exact, or negative, or the size of a shorter block. A negative one sends every
thread out of the chunk with its first `qsort`.
-/
namespace OsispLabs.Lab6
open Lib

namespace Args

variable (a : Args)

/-- The number of records of a block. -/
def size : ℕ := a.memsize.toNat / a.blockNum.toNat

/-- Every byte offset in a chunk fits into an `int`. -/
def OffsetsFit : Prop :=
  16 * a.size * max (a.blockNum.toNat - 1) (2 ^ Nat.log2 a.blockNum.toNat) < 2 ^ 31

instance : Decidable a.OffsetsFit := inferInstanceAs (Decidable (_ < _))

/-- `main` gets to the threads, and their number suits the barrier and the block map. -/
structure Runnable : Prop where
  memsize_nonneg : 0 ≤ a.memsize
  threads_pos : 1 ≤ a.threads
  threads_le : a.threads ≤ a.blockNum

variable {a}

theorem blockSize_eq (h : a.Runnable) : a.blockSize = toInt (16 * a.size : ℕ) := by
  have hpos := h.threads_pos
  have hle := h.threads_le
  have hdiv : a.memsize.tdiv a.blockNum = (a.size : ℕ) := by
    rw [Int.tdiv_eq_ediv_of_nonneg h.memsize_nonneg, size, Int.natCast_ediv,
      Int.toNat_of_nonneg h.memsize_nonneg, Int.toNat_of_nonneg (by omega)]
  have hbytes : a.memsize.tdiv a.blockNum * 16 = (16 * a.size : ℕ) := by
    rw [hdiv]
    omega
  rw [blockSize, toInt_toSize, hbytes]

theorem blockSize_exact (h : a.Runnable) (hfit : 16 * a.size < 2 ^ 31) :
    a.blockSize = (16 * a.size : ℕ) := by
  rw [blockSize_eq h, toInt_of_isInt]
  rw [IsInt]
  omega

/-- A block that is too long is cut, unless its size becomes negative. -/
theorem blockSize_wrapped (h : a.Runnable) (hlarge : 2 ^ 31 ≤ 16 * a.size) : a.blockSize < 0 ∨
    ∃ size < a.size, a.blockSize = (16 * size : ℕ) ∧ 16 * size < 2 ^ 31 := by
  rw [blockSize_eq h]
  by_cases hneg : toInt (16 * a.size : ℕ) < 0
  · exact .inl hneg
  · right
    refine ⟨(toInt (16 * a.size : ℕ)).toNat / 16, ?_⟩
    simp only [toInt, Int.bmod_def] at hneg ⊢
    omega

theorem exists_bytes (h : a.Runnable) (hnonneg : 0 ≤ a.blockSize) :
    ∃ size ≤ a.size, a.blockSize = (16 * size : ℕ) ∧ 16 * size < 2 ^ 31 ∧
      (size < a.size → 2 ^ 31 ≤ 16 * a.size) := by
  by_cases hfit : 16 * a.size < 2 ^ 31
  · exact ⟨a.size, Nat.le_refl _, blockSize_exact h hfit, hfit, by omega⟩
  · have hlarge := Nat.not_lt.mp hfit
    rcases blockSize_wrapped h hlarge with hneg | ⟨size, hsize, hbytes, hlt⟩
    · omega
    · exact ⟨size, Nat.le_of_lt hsize, hbytes, hlt, fun _ => hlarge⟩

theorem size_le (a : Args) : a.blockNum.toNat * a.size ≤ a.memsize.toNat :=
  Nat.mul_div_le a.memsize.toNat a.blockNum.toNat

theorem blockNum_pos (h : a.Runnable) : 0 < a.blockNum.toNat := by
  have hpos := h.threads_pos
  have hle := h.threads_le
  omega

section Chunk

variable {T : Type*} [LT T] [DecidableLT T] (qsort : Qsort T) {mem : List (IndexS T)} {size : ℕ}

omit [LT T] [DecidableLT T] in
/-- The chunk of a round lies in the mapped file. -/
theorem startable (h : a.Runnable) (hbytes : a.blockSize = (16 * size : ℕ))
    (hlt : 16 * size < 2 ^ 31) (hsize : size ≤ a.size) (hroom : a.memsize.toNat ≤ mem.length) :
    Startable (a.globals qsort) a.threads.toNat size mem where
  threads_pos := by
    have hpos := h.threads_pos
    omega
  threads_le := by
    have hle := h.threads_le
    rw [globals_blockNum]
    omega
  bytes := by rw [globals_blockSize, hbytes]
  bytes_lt := hlt
  room := by
    have hle : a.blockNum.toNat * size ≤ a.blockNum.toNat * a.size := Nat.mul_le_mul_left _ hsize
    have hchunk := a.size_le
    rw [globals_blockNum]
    omega

omit [LT T] [DecidableLT T] in
/-- The largest multiple decides about all offsets of blocks of `size` records. -/
theorem offsets_lt_iff (h : a.Runnable) (size : ℕ) :
    16 * size * max (a.blockNum.toNat - 1) (2 ^ Nat.log2 a.blockNum.toNat) < 2 ^ 31 ↔
      (a.globals qsort).BlocksFit size ∧ PassesFit (a.globals qsort).blockNum (16 * size) := by
  have hpos := blockNum_pos h
  have hblocks : (a.globals qsort).BlocksFit size ↔
      (a.blockNum.toNat - 1) * (16 * size) < 2 ^ 31 := by
    constructor
    · intro hall
      exact hall _ (Nat.sub_lt hpos Nat.one_pos)
    · intro hlast block hblock
      have hle : block ≤ a.blockNum.toNat - 1 := Nat.le_sub_one_of_lt hblock
      exact Nat.lt_of_le_of_lt (Nat.mul_le_mul_right _ hle) hlast
  have hpairs : (2 * (a.blockNum.toNat / 2) - 1) * (16 * size) ≤
      (a.blockNum.toNat - 1) * (16 * size) := Nat.mul_le_mul_right _ (by omega)
  have hmax : 16 * size * max (a.blockNum.toNat - 1) (2 ^ Nat.log2 a.blockNum.toNat) =
      max ((a.blockNum.toNat - 1) * (16 * size))
        (16 * size * 2 ^ Nat.log2 a.blockNum.toNat) := by
    rw [Nat.mul_comm (a.blockNum.toNat - 1), Nat.mul_max_mul_left]
  rw [hblocks, hmax, Nat.max_lt, PassesFit]
  constructor
  · rintro ⟨hlast, hdouble⟩
    exact ⟨hlast, Nat.lt_of_le_of_lt hpairs hlast, hdouble⟩
  · rintro ⟨hlast, _, hdouble⟩
    exact ⟨hlast, hdouble⟩

omit [LT T] [DecidableLT T] in
theorem offsetsFit_iff (h : a.Runnable) : a.OffsetsFit ↔
    (a.globals qsort).BlocksFit a.size ∧ PassesFit (a.globals qsort).blockNum (16 * a.size) :=
  offsets_lt_iff qsort h a.size

theorem OffsetsFit.bytes_lt (h : a.OffsetsFit) : 16 * a.size < 2 ^ 31 := by
  have hone : 1 ≤ 2 ^ Nat.log2 a.blockNum.toNat := Nat.one_le_two_pow
  have hmax := Nat.le_trans hone (Nat.le_max_right (a.blockNum.toNat - 1) _)
  exact Nat.lt_of_le_of_lt (Nat.le_mul_of_pos_right _ hmax) h

end Chunk

end Args

section Negative

variable {T : Type*} [LT T] [DecidableLT T] {g : Globals T} {threads : ℕ} {mem : List (IndexS T)}

omit [LT T] [DecidableLT T] in
theorem Globals.sortBlock_negative (hneg : g.blockSize < 0) (hint : IsInt g.blockSize)
    (hmem : mem.length < 2 ^ 59) (block : ℕ) : g.sortBlock mem block = none := by
  have hcount : 2 ^ 59 ≤ toSize g.blockSize / 16 := by
    simp only [IsInt, toSize] at hint ⊢
    omega
  rw [sortBlock, Option.bind_eq_none_iff]
  intro offset hoffset
  rw [Qsort.range, if_neg]
  omega

/-- A thread that has not sorted anything. -/
def Pc.isFresh : Pc T → Bool
  | .ready | .own | .undefined => true
  | _ => false

/-- With a negative block size no thread gets through its first `qsort`. -/
theorem State.run_negative (hneg : g.blockSize < 0) (hint : IsInt g.blockSize)
    (hmem : mem.length < 2 ^ 59) {as : List (Fin threads)} {s : State threads T}
    (hrun : exec (State.next g) (State.start threads mem) as = some s) :
    ∀ i, (s.pc i).isFresh = true := by
  have h : s.mem = mem ∧ ∀ i, (s.pc i).isFresh = true := by
    apply exec_invariant (I := fun s : State threads T => s.mem = mem ∧
      ∀ i, (s.pc i).isFresh = true) _ ⟨rfl, fun _ => rfl⟩ hrun
    rintro s i t ⟨hsame, hfresh⟩ hnext
    obtain ⟨_, hstep⟩ := next_step hnext
    have hi := hfresh i
    cases hstep with
    | enter hpc =>
      refine ⟨by simpa using hsame, ?_⟩
      exact forall_moved (P := fun _ pc => pc.isFresh = true) hfresh (s.barrierWait_pc i _) rfl
    | sort block write hpc hwrite =>
      rw [hsame, Globals.sortBlock_negative hneg hint hmem] at hwrite
      cases hwrite
    | sortUndefined block hpc hwrite =>
      exact ⟨hsame, forall_moved (P := fun _ pc => pc.isFresh = true) hfresh rfl rfl⟩
    | sorted _ _ hpc | lock hpc | found _ hpc | notFound hpc | mark _ hpc | unlock _ hpc
    | unlockLast hpc | exhaust hpc | pass _ _ hpc | leave _ _ hpc | merge _ _ _ _ hpc
    | mergeUndefined _ _ _ hpc | skip _ _ _ hpc | merged _ _ _ _ hpc | passEnd _ _ _ hpc
    | double _ _ _ hpc | doubleUndefined _ _ hpc =>
      rw [hpc] at hi
      cases hi
  exact h.2

end Negative

namespace Args

variable {a : Args} {T : Type*} [LT T] [DecidableLT T] {qsort : Qsort T} {mem : List (IndexS T)}

/-- Threads that return have had a block size that is not negative. -/
theorem Reaches.blockSize_nonneg (hpos : 0 < a.threads.toNat) (hmem : mem.length < 2 ^ 59)
    {as : List (Fin a.threads.toNat)} {s : State a.threads.toNat T}
    (hrun : a.Reaches qsort mem as s) (hfinished : s.Finished) : 0 ≤ a.blockSize := by
  by_contra hneg
  have hfresh := State.run_negative (by rw [globals_blockSize]; omega)
    (by rw [globals_blockSize]; exact a.blockSize_isInt) hmem hrun ⟨0, hpos⟩
  rw [Pc.isDone_iff.mp (hfinished _).1] at hfresh
  cases hfresh

/-- Where all threads return, the offsets have fitted, or the threads have taken shorter blocks for
the blocks. -/
theorem offsetsFit_or_shorter (h : a.Runnable) (hlen : mem.length = a.memsize.toNat)
    {as : List (Fin a.threads.toNat)} {s : State a.threads.toNat T}
    (hrun : a.Reaches qsort mem as s) (hfinished : s.Finished) :
    a.OffsetsFit ∨ ∃ size < a.size, Startable (a.globals qsort) a.threads.toNat size mem := by
  have hmem := a.memsize_isInt
  have hthread : 0 < a.threads.toNat := by
    have hpos := h.threads_pos
    omega
  rw [IsInt] at hmem
  have hnonneg := Reaches.blockSize_nonneg hthread (by omega) hrun hfinished
  obtain ⟨size, hle, hbytes, hlt, -⟩ := exists_bytes h hnonneg
  have hstart := startable qsort h hbytes hlt hle (Nat.le_of_eq hlen.symm)
  rcases Nat.lt_or_eq_of_le hle with hshorter | rfl
  · exact .inr ⟨size, hshorter, hstart⟩
  · obtain ⟨_, hpasses, hblocks⟩ := State.run_finished hstart hrun hfinished
    exact .inl ((offsetsFit_iff qsort h).mpr ⟨hblocks, hpasses⟩)

end Args

end OsispLabs.Lab6
