import OsispLabs.Lab6.BlockSize

/-!
# Runs of the program

When the file consists of whole chunks, every round sorts its chunk as the threads of one chunk do,
and the last merge works on what the rounds have left.
-/
namespace OsispLabs.Lab6
open Lib

variable {T : Type*} [LT T] [DecidableLT T]

theorem Globals.result_length (g : Globals T) (size : ℕ) (mem : List (IndexS T)) :
    (g.result size mem).length = mem.length := by
  rw [result, mergeTree_length mergeRuns_length, sortedAll, mapBlocks_length g.qsort.length_sort]

/-- The threads of a chunk do not touch what lies behind it. -/
theorem Globals.result_append (g : Globals T) {size : ℕ} {xs : List (IndexS T)}
    (hfit : g.blockNum * size ≤ xs.length) (ys : List (IndexS T)) :
    g.result size (xs ++ ys) = g.result size xs ++ ys := by
  have hlen : g.blockNum * size ≤ (g.sortedAll size xs).length := by
    rw [sortedAll, mapBlocks_length g.qsort.length_sort]
    exact hfit
  have hsorted : g.sortedAll size (xs ++ ys) = g.sortedAll size xs ++ ys := mapBlocks_append hfit ys
  rw [result, hsorted, mergeTree_append mergeRuns_length hlen, result]

namespace Program

variable {threads : ℕ}

def Ended : Program threads T → Prop
  | .sorting _ => False
  | _ => True

/-- `main` or a thread has done something undefined. -/
def Faulty : Program threads T → Prop
  | .undefined => True
  | .sorting r => r.chunk.Faulty
  | _ => False

end Program

namespace Args

variable (a : Args) (qsort : Qsort T)

/-- The first `k` chunks as their rounds leave them. -/
def chunks (size k : ℕ) (index : List (IndexS T)) : List (IndexS T) :=
  mapBlocks ((a.globals qsort).result size) a.memsize.toNat k (fun _ => true) index

/-- What follows the loop over the chunks. -/
def lastPass (records : ℕ) (index : List (IndexS T)) : Option (List (IndexS T)) :=
  if a.memsize.toNat = records then some index else lastMerge a.memsize (filesize records) index

theorem toSize_filesize {records : ℕ} (hlong : IsLong (filesize records)) :
    toSize (filesize records - 16) = 16 * records := by
  simp only [IsLong, filesize] at hlong
  rw [filesize, toSize_of_nonneg (by omega) (by omega)]
  omega

variable {a} in
theorem toSize_memsize (hnonneg : 0 ≤ a.memsize) :
    toSize (a.memsize * 16) = 16 * a.memsize.toNat := by
  have hint := a.memsize_isInt
  rw [IsInt] at hint
  rw [toSize_of_nonneg (by omega) (by omega)]
  omega

/-- A file of `rounds` whole chunks, sorted in blocks of `size` records. -/
structure Chunked (records rounds size : ℕ) : Prop where
  runnable : a.Runnable
  threads_le : a.threads ≤ 128
  bytes : a.blockSize = (16 * size : ℕ)
  bytes_lt : 16 * size < 2 ^ 31
  size_le : size ≤ a.size
  records_eq : records = rounds * a.memsize.toNat
  rounds_pos : 0 < rounds
  once : a.memsize.toNat = 0 → rounds = 1
  isLong : IsLong (filesize records)

/-- The start of round `k`. -/
def roundStart (size : ℕ) (file : IndexFile T) (k : ℕ) : Round a.threads.toNat T where
  header := file.header
  countSortIndex := (k * a.memsize.toNat : ℕ)
  sorted := a.chunks qsort size k (file.index.take (k * a.memsize.toNat))
  chunk := State.start a.threads.toNat (file.index.drop (k * a.memsize.toNat))

/-- The program is in round `k`. -/
structure InRound (size : ℕ) (file : IndexFile T) (k : ℕ) (r : Round a.threads.toNat T) :
    Prop where
  start : r = { a.roundStart qsort size file k with chunk := r.chunk }
  chunk : ∃ as, a.Reaches qsort (file.index.drop (k * a.memsize.toNat)) as r.chunk

/-- The invariant of all runs. -/
def Lawful (file : IndexFile T) (rounds size : ℕ) : Program a.threads.toNat T → Prop
  | .sorting r => ∃ k < rounds, a.InRound qsort size file k r
  | .returned out => out.header = file.header ∧
    a.lastPass file.index.length (a.chunks qsort size rounds file.index) = some out.index ∧
    PassesFit a.blockNum.toNat (16 * size) ∧ (a.globals qsort).BlocksFit size
  | _ => False

/-- What a step can do. -/
inductive Step (file : IndexFile T) (rounds size : ℕ) :
    Program a.threads.toNat T → Program a.threads.toNat T → Prop
  | thread {k : ℕ} {r : Round a.threads.toNat T} {i : Fin a.threads.toNat}
      {chunk : State a.threads.toNat T} (hk : k < rounds) (hr : a.InRound qsort size file k r)
      (hchunk : r.chunk.next (a.globals qsort) i = some chunk) :
      Step file rounds size (.sorting r) (.sorting { r with chunk := chunk })
  | join {k : ℕ} {r : Round a.threads.toNat T} (hk : k + 1 < rounds)
      (hr : a.InRound qsort size file k r) :
      Step file rounds size (.sorting r) (.sorting (a.roundStart qsort size file (k + 1)))
  | last {k : ℕ} {r : Round a.threads.toNat T} (index : List (IndexS T))
      (hr : a.InRound qsort size file k r)
      (hpass : a.lastPass file.index.length (a.chunks qsort size rounds file.index) = some index)
      (hpasses : PassesFit a.blockNum.toNat (16 * size))
      (hblocks : (a.globals qsort).BlocksFit size) :
      Step file rounds size (.sorting r) (.returned ⟨file.header, index⟩)
  | undefined {k : ℕ} {r : Round a.threads.toNat T} (hr : a.InRound qsort size file k r)
      (hpass : a.lastPass file.index.length (a.chunks qsort size rounds file.index) = none) :
      Step file rounds size (.sorting r) .undefined

/-- A bound on the steps that are left. -/
def left (records : ℕ) : Program a.threads.toNat T → ℕ
  | .sorting r => (records - r.countSortIndex.toNat) *
      ((State.start a.threads.toNat []).remaining (a.globals qsort) + 1) +
        r.chunk.remaining (a.globals qsort) + 1
  | _ => 0

/-- A run of the program on a file. -/
def Runs (file : IndexFile T) (as : List (Action a.threads.toNat)) (p : Program a.threads.toNat T) :
    Prop :=
  exec (a.next qsort (filesize file.index.length)) (a.main file) as = some p

variable {a qsort} {file : IndexFile T} {rounds size k : ℕ}

section Rounds

variable (h : a.Chunked file.index.length rounds size)
include h

omit [LT T] [DecidableLT T] in
theorem Chunked.end_le (hk : k ≤ rounds) : k * a.memsize.toNat ≤ file.index.length := by
  rw [h.records_eq]
  exact Nat.mul_le_mul_right _ hk

omit [LT T] [DecidableLT T] in
theorem Chunked.room (hk : k < rounds) :
    a.memsize.toNat ≤ (file.index.drop (k * a.memsize.toNat)).length := by
  have hle := h.end_le (Nat.succ_le_of_lt hk)
  rw [Nat.succ_mul] at hle
  rw [List.length_drop]
  omega

omit [LT T] [DecidableLT T] in
theorem Chunked.startable (qsort : Qsort T) (hk : k < rounds) :
    Startable (a.globals qsort) a.threads.toNat size
      (file.index.drop (k * a.memsize.toNat)) :=
  Args.startable qsort h.runnable h.bytes h.bytes_lt h.size_le (h.room hk)

theorem Chunked.startChunk_eq (qsort : Qsort T) (k : ℕ) :
    a.startChunk file.header (k * a.memsize.toNat : ℕ)
    (a.chunks qsort size k (file.index.take (k * a.memsize.toNat)))
    (file.index.drop (k * a.memsize.toNat)) = .sorting (a.roundStart qsort size file k) := by
  have hpos := h.runnable.threads_pos
  rw [startChunk, if_pos ⟨by omega, h.threads_le, h.runnable.threads_le⟩]
  rfl

omit h in
theorem roundStart_inRound : a.InRound qsort size file k (a.roundStart qsort size file k) where
  start := rfl
  chunk := ⟨[], rfl⟩

omit h [LT T] [DecidableLT T] in
/-- Accepted arguments lead to the first round. -/
theorem main_eq_startChunk (hargs : a.Accepted (filesize file.index.length)) :
    a.main file = a.startChunk file.header 0 [] file.index := by
  obtain ⟨hsize, hblockNum, hdivides, hblockSize⟩ := hargs
  rw [main, mainOn, if_neg (by omega), if_neg hblockNum, if_neg (by simpa using hdivides),
    if_neg (by simpa using hblockSize)]

theorem Chunked.first_eq (qsort : Qsort T) : a.startChunk file.header 0 [] file.index =
    .sorting (a.roundStart qsort size file 0) := by
  have hstart := h.startChunk_eq qsort 0
  simp only [Nat.zero_mul, List.take_zero, List.drop_zero, chunks, mapBlocks] at hstart
  exact hstart

theorem Chunked.main_eq (hargs : a.Accepted (filesize file.index.length)) :
    a.main file = .sorting (a.roundStart qsort size file 0) := by
  rw [main_eq_startChunk hargs, h.first_eq qsort]

/-- The chunk of round `k` and the records behind it, when the threads have returned. -/
theorem Chunked.chunk_split (hk : k < rounds) :
    (a.globals qsort).result size (file.index.drop (k * a.memsize.toNat)) =
      (a.globals qsort).result size
        ((file.index.drop (k * a.memsize.toNat)).take a.memsize.toNat) ++
        file.index.drop ((k + 1) * a.memsize.toNat) := by
  have hroom := h.room hk
  have hblocks : a.blockNum.toNat * size ≤ a.memsize.toNat :=
    Nat.le_trans (Nat.mul_le_mul_left _ h.size_le) a.size_le
  have hfit : (a.globals qsort).blockNum * size ≤
      ((file.index.drop (k * a.memsize.toNat)).take a.memsize.toNat).length := by
    rw [globals_blockNum, List.length_take]
    omega
  have happend := Globals.result_append (a.globals qsort) hfit
    ((file.index.drop (k * a.memsize.toNat)).drop a.memsize.toNat)
  rw [List.take_append_drop, List.drop_drop, ← Nat.succ_mul] at happend
  exact happend

/-- The chunks of the first rounds and the chunk of round `k`. -/
theorem Chunked.chunks_succ (hk : k < rounds) :
    a.chunks qsort size k (file.index.take (k * a.memsize.toNat)) ++
        (a.globals qsort).result size
          ((file.index.drop (k * a.memsize.toNat)).take a.memsize.toNat) =
      a.chunks qsort size (k + 1) (file.index.take ((k + 1) * a.memsize.toNat)) := by
  have hxs : (file.index.take (k * a.memsize.toNat)).length = k * a.memsize.toNat := by
    rw [List.length_take, Nat.min_eq_left (h.end_le (Nat.le_of_lt hk))]
  have hys : ((file.index.drop (k * a.memsize.toNat)).take a.memsize.toNat).length =
      a.memsize.toNat := by
    rw [List.length_take, Nat.min_eq_left (h.room hk)]
  have hsnoc := mapBlocks_snoc (f := (a.globals qsort).result size) (p := fun _ => true) hxs hys
  rw [← List.take_add, ← Nat.succ_mul, if_pos rfl] at hsnoc
  exact hsnoc.symm

/-- What the join of round `k` leads to. -/
theorem Chunked.endChunk_eq (hk : k < rounds) {r : Round a.threads.toNat T}
    (hr : a.InRound qsort size file k r) (hmem : r.chunk.mem =
      (a.globals qsort).result size (file.index.drop (k * a.memsize.toNat))) :
    a.endChunk (filesize file.index.length) r =
      if k + 1 < rounds then .sorting (a.roundStart qsort size file (k + 1))
      else .finish file.header
        (a.lastPass file.index.length (a.chunks qsort size rounds file.index)) := by
  have hlong := h.isLong
  have hrecords := h.records_eq
  have hmemsize : a.memsize = (a.memsize.toNat : ℕ) :=
    (Int.toNat_of_nonneg h.runnable.memsize_nonneg).symm
  have hend : (k + 1) * a.memsize.toNat ≤ file.index.length := h.end_le hk
  have hchunk : ((a.globals qsort).result size
      ((file.index.drop (k * a.memsize.toNat)).take a.memsize.toNat)).length =
        a.memsize.toNat := by
    rw [Globals.result_length, List.length_take, Nat.min_eq_left (h.room hk)]
  have hheader : r.header = file.header := congrArg Round.header hr.start
  have hcount : r.countSortIndex + a.memsize = ((k + 1) * a.memsize.toNat : ℕ) := by
    rw [congrArg Round.countSortIndex hr.start, Nat.succ_mul]
    simp only [roundStart]
    omega
  have hsorted : r.sorted ++ r.chunk.mem.take a.memsize.toNat =
      a.chunks qsort size (k + 1) (file.index.take ((k + 1) * a.memsize.toNat)) := by
    rw [congrArg Round.sorted hr.start, hmem, h.chunk_split hk, List.take_left' hchunk]
    exact h.chunks_succ hk
  have hrest : r.chunk.mem.drop a.memsize.toNat = file.index.drop ((k + 1) * a.memsize.toNat) := by
    rw [hmem, h.chunk_split hk, List.drop_left' hchunk]
  have hbytes := toSize_filesize hlong
  have hlongCount : IsLong ((k + 1) * a.memsize.toNat : ℕ) := by
    simp only [IsLong, filesize] at hlong ⊢
    omega
  have hcountSize : toSize ((k + 1) * a.memsize.toNat : ℕ) = (k + 1) * a.memsize.toNat := by
    simp only [IsLong, filesize] at hlong
    rw [toSize_of_nonneg (by omega) (by omega), Int.toNat_natCast]
  have hchunkSize := toSize_memsize h.runnable.memsize_nonneg
  simp only [endChunk, hcount, hsorted, hrest, hheader, hbytes, hlongCount, hcountSize, hchunkSize,
    Nat.mul_div_cancel_left _ (Nat.succ_pos 15), not_true, if_false]
  by_cases hlast : k + 1 < rounds
  · have hpos : 0 < a.memsize.toNat := by
      by_contra hzero
      have hone := h.once (Nat.eq_zero_of_not_pos hzero)
      omega
    have hlt := Nat.mul_lt_mul_of_pos_right hlast hpos
    rw [if_pos (by omega), if_pos hlast]
    exact h.startChunk_eq qsort (k + 1)
  · have hall : k + 1 = rounds := by omega
    rw [hall, ← hrecords, if_neg (by simp), if_neg (Nat.lt_irrefl _), List.take_length,
      List.drop_length, List.append_nil, lastPass]
    by_cases honly : a.memsize.toNat = file.index.length
    · rw [if_neg (by omega), if_pos honly, Program.finish]
    · rw [if_pos (by omega), if_neg honly]

end Rounds

section LastPass

variable {records : ℕ} (h : a.Chunked records rounds size) (index : List (IndexS T))
include h

theorem Chunked.once_of_le (hrecords : a.memsize.toNat = records) : rounds = 1 := by
  by_cases hzero : a.memsize.toNat = 0
  · exact h.once hzero
  · have hmul : rounds * a.memsize.toNat = 1 * a.memsize.toNat := by
      rw [Nat.one_mul, ← h.records_eq, hrecords]
    exact Nat.eq_of_mul_eq_mul_right (Nat.pos_of_ne_zero hzero) hmul

/-- The last merge, with its number of chunks and its chunk size as `int`s. -/
theorem Chunked.lastPass_eq (hpos : 0 < a.memsize.toNat) : a.lastPass records index =
    mergeLoop mergeBytes (toInt rounds).toNat (toInt (16 * a.memsize.toNat : ℕ)) index := by
  have hbytes : a.memsize * 16 = (16 * a.memsize.toNat : ℕ) := by
    omega
  have hcount : ((16 * records : ℕ) : ℤ) / (16 * a.memsize.toNat : ℕ) = rounds := by
    rw [← Int.natCast_ediv, Nat.mul_div_mul_left _ _ (Nat.succ_pos 15), h.records_eq,
      Nat.mul_div_cancel _ hpos]
  by_cases honly : a.memsize.toNat = records
  · have hone : (toInt ((1 : ℕ) : ℤ)).toNat = 1 := by decide
    rw [lastPass, if_pos honly, h.once_of_le honly, hone, mergeLoop, if_pos (Nat.le_refl 1)]
  · rw [lastPass, if_neg honly, lastMerge, toSize_memsize h.runnable.memsize_nonneg,
      toSize_filesize h.isLong, if_neg (by omega), hcount, hbytes]

theorem Chunked.lastPass_of_fit (hlt : 16 * records < 2 ^ 31) (hindex : index.length = records) :
    a.lastPass records index = some (mergeTree mergeRuns rounds a.memsize.toNat index) := by
  have hrecords := h.records_eq
  by_cases hzero : a.memsize.toNat = 0
  · have hone := h.once hzero
    rw [hone, hzero] at hrecords
    rw [lastPass, if_pos (by omega), hone, mergeTree_of_le_one (Nat.le_refl 1)]
  · have hpos := Nat.pos_of_ne_zero hzero
    have hle : rounds ≤ records := by
      rw [hrecords]
      exact Nat.le_mul_of_pos_right rounds hpos
    have hchunk : a.memsize.toNat ≤ records := by
      rw [hrecords]
      exact Nat.le_mul_of_pos_left _ h.rounds_pos
    have hall : rounds * (16 * a.memsize.toNat) = 16 * records := by
      rw [hrecords, Nat.mul_left_comm]
    have hpasses : PassesFit rounds (16 * a.memsize.toNat) := by
      constructor
      · have hpairs := Nat.mul_le_mul_right (16 * a.memsize.toNat)
          (by omega : 2 * (rounds / 2) - 1 ≤ rounds)
        omega
      · have hfront := Nat.mul_le_mul_left (16 * a.memsize.toNat)
          (Nat.log2_self_le (Nat.ne_of_gt h.rounds_pos))
        rw [Nat.mul_comm _ rounds] at hfront
        omega
    have hroundsInt : IsInt (rounds : ℕ) := by
      rw [IsInt]
      omega
    have hchunkInt : IsInt (16 * a.memsize.toNat : ℕ) := by
      rw [IsInt]
      omega
    rw [h.lastPass_eq index hpos, toInt_of_isInt hroundsInt, toInt_of_isInt hchunkInt,
      Int.toNat_natCast, mergeLoop_of_fit mergeBytes_merges (Nat.succ_pos 15)
        (by rw [hindex, hrecords]) hpasses]

end LastPass

section Steps

variable (h : a.Chunked file.index.length rounds size) {p q : Program a.threads.toNat T}
  {action : Action a.threads.toNat}
include h

/-- The chunk of a round in which all threads have returned. -/
theorem InRound.finished (hk : k < rounds) {r : Round a.threads.toNat T}
    (hr : a.InRound qsort size file k r) (hfinished : r.chunk.Finished) :
    r.chunk.mem = (a.globals qsort).result size (file.index.drop (k * a.memsize.toNat)) ∧
      PassesFit a.blockNum.toNat (16 * size) ∧ (a.globals qsort).BlocksFit size := by
  obtain ⟨as, hrun⟩ := hr.chunk
  exact State.run_finished (h.startable qsort hk) hrun hfinished

omit h in
/-- A step of a thread. -/
theorem InRound.thread {r : Round a.threads.toNat T} {i : Fin a.threads.toNat}
    {chunk : State a.threads.toNat T} (hr : a.InRound qsort size file k r)
    (hnext : r.chunk.next (a.globals qsort) i = some chunk) :
    a.InRound qsort size file k { r with chunk := chunk } where
  start := by rw [hr.start]
  chunk := by
    obtain ⟨as, hrun⟩ := hr.chunk
    exact ⟨as ++ [i], by rw [Reaches, exec_concat hrun, hnext]⟩

/-- The step lemma. -/
theorem Lawful.step (hp : a.Lawful qsort file rounds size p)
    (hnext : a.next qsort (filesize file.index.length) p action = some q) :
    a.Step qsort file rounds size p q := by
  cases p with
  | sorting r =>
    obtain ⟨k, hk, hr⟩ := hp
    cases action with
    | thread i =>
      obtain ⟨chunk, hchunk, rfl⟩ := next_thread_eq_some.mp hnext
      exact .thread hk hr hchunk
    | join =>
      obtain ⟨hfinished, rfl⟩ := next_join_eq_some.mp hnext
      obtain ⟨hmem, hpasses, hblocks⟩ := hr.finished h hk hfinished
      rw [h.endChunk_eq hk hr hmem]
      by_cases hlast : k + 1 < rounds
      · rw [if_pos hlast]
        exact .join hlast hr
      · rw [if_neg hlast]
        cases hpass : a.lastPass file.index.length
          (a.chunks qsort size rounds file.index) with
        | some index => exact .last index hr hpass hpasses hblocks
        | none => exact .undefined hr hpass
  | returned out => cases hnext
  | exited => cases hnext
  | undefined => cases hnext

omit h in
/-- Only an undefined last merge leaves the invariant. -/
theorem Step.lawful (hstep : a.Step qsort file rounds size p q) :
    a.Lawful qsort file rounds size q ∨ q = .undefined ∧
      a.lastPass file.index.length (a.chunks qsort size rounds file.index) = none := by
  cases hstep with
  | thread hk hr hchunk => exact .inl ⟨_, hk, hr.thread hchunk⟩
  | join hk hr => exact .inl ⟨_, hk, roundStart_inRound⟩
  | last index hr hpass hpasses hblocks => exact .inl ⟨rfl, hpass, hpasses, hblocks⟩
  | undefined hr hpass => exact .inr ⟨rfl, hpass⟩

/-- The invariant holds in every run, up to an undefined last merge. -/
theorem run_lawful (hargs : a.Accepted (filesize file.index.length))
    {as : List (Action a.threads.toNat)} (hrun : a.Runs qsort file as p) :
    a.Lawful qsort file rounds size p ∨ p = .undefined ∧
      a.lastPass file.index.length (a.chunks qsort size rounds file.index) = none := by
  apply exec_invariant (I := fun p => a.Lawful qsort file rounds size p ∨ p = .undefined ∧
    a.lastPass file.index.length (a.chunks qsort size rounds file.index) = none) _ _ hrun
  · rintro p action q (hp | ⟨rfl, _⟩) hnext
    · exact (hp.step h hnext).lawful
    · cases hnext
  · rw [h.main_eq hargs]
    exact .inl ⟨0, h.rounds_pos, roundStart_inRound⟩

theorem Chunked.claiming (hk : k < rounds) {r : Round a.threads.toNat T}
    (hr : a.InRound qsort size file k r) : r.chunk.Claiming a.blockNum.toNat := by
  obtain ⟨as, hrun⟩ := hr.chunk
  exact State.run_claiming (h.startable qsort hk).threads_le hrun

/-- Every step uses up some of what is left. -/
theorem Step.left (hstep : a.Step qsort file rounds size p q) :
    a.left qsort file.index.length q < a.left qsort file.index.length p := by
  cases hstep with
  | thread hk hr hchunk =>
    have hless := (State.next_step hchunk).2.remaining (h.claiming hk hr)
    simp only [Args.left]
    omega
  | join hlast hr =>
    rename_i k r
    have hpos : 0 < a.memsize.toNat := by
      by_contra hzero
      have hone := h.once (Nat.eq_zero_of_not_pos hzero)
      omega
    have hend : (k + 1) * a.memsize.toNat ≤ file.index.length := h.end_le (Nat.le_of_lt hlast)
    have hcount : r.countSortIndex.toNat = k * a.memsize.toNat := by
      rw [congrArg Round.countSortIndex hr.start]
      rfl
    have hrounds : file.index.length - (k + 1) * a.memsize.toNat + 1 ≤
        file.index.length - k * a.memsize.toNat := by
      rw [Nat.succ_mul] at hend ⊢
      omega
    have hwork := Nat.mul_le_mul_right
      ((State.start (T := T) a.threads.toNat []).remaining (a.globals qsort) + 1) hrounds
    have hstart : (a.roundStart qsort size file (k + 1)).chunk.remaining (a.globals qsort) =
        (State.start a.threads.toNat []).remaining (a.globals qsort) := rfl
    have hstartCount : (a.roundStart qsort size file (k + 1)).countSortIndex.toNat =
        (k + 1) * a.memsize.toNat := rfl
    rw [Nat.succ_mul] at hwork
    simp only [Args.left, hcount, hstart, hstartCount]
    omega
  | last index hr hpass hpasses hblocks => exact Nat.succ_pos _
  | undefined hr hpass => exact Nat.succ_pos _

theorem run_length_le (hargs : a.Accepted (filesize file.index.length))
    {as : List (Action a.threads.toNat)} (hrun : a.Runs qsort file as p) :
    as.length ≤ a.left qsort file.index.length (a.main file) := by
  have hlength := exec_length_le (I := fun p => a.Lawful qsort file rounds size p ∨
    p = .undefined) (m := a.left qsort file.index.length) ?_ ?_ ?_ hrun
  · omega
  · rintro p action q (hp | rfl) hnext
    · exact ((hp.step h hnext).lawful).imp_right And.left
    · cases hnext
  · rintro p action q (hp | rfl) hnext
    · exact (hp.step h hnext).left h
    · cases hnext
  · rw [h.main_eq hargs]
    exact .inl ⟨0, h.rounds_pos, roundStart_inRound⟩

/-- Until the program ends, a thread or the join can move. -/
theorem Lawful.progress (hblocks : (a.globals qsort).BlocksFit size)
    (hpasses : PassesFit a.blockNum.toNat (16 * size)) (hp : a.Lawful qsort file rounds size p)
    (hnot : ¬ p.Ended) :
    ∃ action, (a.next qsort (filesize file.index.length) p action).isSome := by
  cases p with
  | sorting r =>
    obtain ⟨k, hk, hr⟩ := hp
    by_cases hfinished : r.chunk.Finished
    · exact ⟨.join, by simp [Args.next, hfinished]⟩
    · obtain ⟨as, hrun⟩ := hr.chunk
      obtain ⟨st, hs⟩ := State.run_defined (h.startable qsort hk) hblocks hpasses hrun
      obtain ⟨i, hi⟩ := hs.progress hfinished
      exact ⟨.thread i, by simpa [Args.next] using hi⟩
  | returned out => exact absurd trivial hnot
  | exited => exact absurd trivial hnot
  | undefined => exact absurd trivial hnot

/-- Some run of the program ends. -/
theorem Chunked.exists_ended (hargs : a.Accepted (filesize file.index.length))
    (hblocks : (a.globals qsort).BlocksFit size)
    (hpasses : PassesFit a.blockNum.toNat (16 * size)) :
    ∃ as p, a.Runs qsort file as p ∧ p.Ended := by
  apply exists_exec_final (n := a.left qsort file.index.length (a.main file))
  · intro as p hrun hnot
    rcases run_lawful h hargs hrun with hp | ⟨rfl, _⟩
    · exact hp.progress h hblocks hpasses hnot
    · exact absurd trivial hnot
  · intro as p hrun
    exact run_length_le h hargs hrun

end Steps

end Args

end OsispLabs.Lab6
