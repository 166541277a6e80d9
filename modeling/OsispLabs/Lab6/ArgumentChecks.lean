import OsispLabs.Lab6.MainRun

/-!
# What the checks of `main` let through

Files of every size, also shorter than the header or with a part of a record at the end. The
checks are sufficient for some arguments only: they neither look at `threads` nor ask whether the
chunks make up the file, and `memsize % blockNum` comes before any test of `blockNum`.
-/
namespace OsispLabs.Lab6
open Lib

/-- The step ends a round. -/
def Action.isJoin {threads : ℕ} : Action threads → Bool
  | .join => true
  | .thread _ => false

/-- The rounds that a run has ended. -/
def roundsEnded {threads : ℕ} (as : List (Action threads)) : ℕ := as.countP Action.isJoin

namespace Args

variable {T : Type*} [LT T] [DecidableLT T] (a : Args) (qsort : Qsort T) (filesize : ℤ)

/-- A run of the program on a file of this size. -/
def RunsOn (file : IndexFile T) (as : List (Action a.threads.toNat))
    (p : Program a.threads.toNat T) : Prop :=
  exec (a.next qsort filesize) (a.mainOn filesize file) as = some p

/-- The bytes of a block of the round lie in the record area. -/
def BlockInside (records : ℕ) (r : Round a.threads.toNat T) (block : ℕ) : Prop :=
  0 ≤ a.blockSize ∧ IsInt (block * a.blockSize) ∧
    16 * r.sorted.length + block * a.blockSize + a.blockSize ≤ (16 * records : ℕ)

/-- What the checks of `main` are to ensure. The loop is left after as many rounds as there are
chunks, in every interleaving, and no interleaving gets stuck in it or goes on for ever. -/
structure ChecksSuffice (file : IndexFile T) : Prop where
  divisor : a.blockNum ≠ 0
  marked : ∀ i < max a.threads.toNat 1, (i : ℤ) < a.blockNum
  started : ∃ r, a.mainOn filesize file = .sorting r
  claimed : ∀ as r i block, a.RunsOn qsort filesize file as (.sorting r) →
    r.chunk.pc i = .mark block → (block : ℤ) < a.blockNum
  window : ∀ as r, a.RunsOn qsort filesize file as (.sorting r) →
    0 ≤ a.memsize ∧ r.sorted.length + a.memsize ≤ file.index.length
  blocks : ∀ as r i block, a.RunsOn qsort filesize file as (.sorting r) →
    (r.chunk.pc i).toSort i = some block → a.BlockInside file.index.length r block
  rounds : ∀ as p, a.RunsOn qsort filesize file as p →
    ((∃ r, p = .sorting r) ↔ roundsEnded as < file.index.length / a.memsize.toNat)
  progress : ∀ as r, a.RunsOn qsort filesize file as (.sorting r) →
    ∃ action, (a.next qsort filesize (.sorting r) action).isSome
  bounded : ∃ n, ∀ as p, a.RunsOn qsort filesize file as p → as.length ≤ n

/-- The arguments for which they do. -/
structure Sound : Prop where
  header_le : 16 ≤ filesize
  memsize_pos : 1 ≤ a.memsize
  whole : a.memsize ∣ (filesize - 16) / 16
  threads_pos : 1 ≤ a.threads
  threads_le : a.threads ≤ 128
  threads_le_blockNum : a.threads ≤ a.blockNum
  blockSize_nonneg : 0 ≤ a.blockSize
  offsets_lt : a.blockSize *
    (max (a.blockNum.toNat - 1) (2 ^ Nat.log2 a.blockNum.toNat) : ℕ) < 2 ^ 31

variable {a qsort filesize} {file : IndexFile T} {p : Program a.threads.toNat T}
  {as : List (Action a.threads.toNat)} {r : Round a.threads.toNat T}

omit [LT T] [DecidableLT T] in
/-- Past the checks. -/
theorem mainOn_eq (hchecks : a.mainOn filesize file ≠ .exited) (hdivisor : a.blockNum ≠ 0) :
    a.mainOn filesize file = a.startChunk file.header 0 [] file.index := by
  rw [mainOn] at hchecks ⊢
  split_ifs at hchecks ⊢ <;> simp_all

omit [LT T] [DecidableLT T] in
theorem mainOn_ne_exited (hargs : a.Accepted filesize) : a.mainOn filesize file ≠ .exited := by
  obtain ⟨hsize, hblockNum, hdivides, hblockSize⟩ := hargs
  rw [mainOn, if_neg (by omega), if_neg hblockNum, if_neg (by simpa using hdivides),
    if_neg (by simpa using hblockSize), startChunk]
  split_ifs <;> simp

/-- The size of the file decides about the loop through the number of records only. -/
theorem endChunk_sorting {records : ℕ} (hrecords : toSize (filesize - 16) / 16 = records)
    {r' : Round a.threads.toNat T} : a.endChunk filesize r = .sorting r' ↔
      IsLong (r.countSortIndex + a.memsize) ∧ toSize (r.countSortIndex + a.memsize) ≠ records ∧
        a.startChunk r.header (r.countSortIndex + a.memsize)
          (r.sorted ++ r.chunk.mem.take a.memsize.toNat) (r.chunk.mem.drop a.memsize.toNat) =
            .sorting r' := by
  have hfinish (index : Option (List (IndexS T))) :
      Program.finish r.header index ≠ .sorting r' := by
    intro h
    cases index <;> cases h
  rw [endChunk, hrecords]
  by_cases hlong : IsLong (r.countSortIndex + a.memsize)
  · by_cases hmore : toSize (r.countSortIndex + a.memsize) = records
    · rw [if_neg (not_not.mpr hlong), if_neg (not_not.mpr hmore)]
      by_cases hone : toSize (a.memsize * 16) = toSize (filesize - 16)
      · simp [hmore, hone]
      · simp [hmore, hone, hfinish]
    · rw [if_neg (not_not.mpr hlong), if_pos hmore]
      simp [hlong, hmore]
  · rw [if_pos hlong]
    simp [hlong]

@[simp] theorem roundsEnded_nil : roundsEnded ([] : List (Action a.threads.toNat)) = 0 := rfl

@[simp] theorem roundsEnded_thread (i : Fin a.threads.toNat) :
    roundsEnded (as ++ [.thread i]) = roundsEnded as := by
  simp [roundsEnded, Action.isJoin]

@[simp] theorem roundsEnded_join : roundsEnded (as ++ [.join]) = roundsEnded as + 1 := by
  simp [roundsEnded, Action.isJoin]

omit [LT T] [DecidableLT T] in
theorem ended_iff : p.Ended ↔ ¬ ∃ r, p = .sorting r := by
  cases p <;> simp [Program.Ended]

theorem InRound.sorted_length {size k : ℕ} (hr : a.InRound qsort size file k r)
    (hle : k * a.memsize.toNat ≤ file.index.length) :
    r.sorted.length = k * a.memsize.toNat := by
  rw [congrArg Round.sorted hr.start]
  simp only [roundStart, chunks]
  rw [mapBlocks_length (Globals.result_length _ size), List.length_take, Nat.min_eq_left hle]

/-- A block that is marked lies in the chunk. -/
theorem Chunked.blockInside {rounds size k block : ℕ}
    (h : a.Chunked file.index.length rounds size) (hblocks : (a.globals qsort).BlocksFit size)
    (hk : k < rounds) (hr : a.InRound qsort size file k r) (hlt : block < a.blockNum.toNat) :
    a.BlockInside file.index.length r block := by
  have hchunk : (k + 1) * a.memsize.toNat ≤ file.index.length := h.end_le hk
  have hnext : (block + 1) * size ≤ a.blockNum.toNat * a.size :=
    Nat.mul_le_mul hlt h.size_le
  have hroom := a.size_le
  have hfits : block * (16 * size) < 2 ^ 31 := hblocks block hlt
  have hbytes : block * (16 * size) = 16 * (block * size) := Nat.mul_left_comm block 16 size
  rw [Nat.succ_mul] at hchunk hnext
  rw [BlockInside, h.bytes, hr.sorted_length (by omega), ← Int.natCast_mul, isInt_natCast]
  refine ⟨by omega, hfits, ?_⟩
  omega

section Sufficient

variable {rounds size : ℕ} (h : a.Chunked file.index.length rounds size)
  (hrecords : toSize (filesize - 16) / 16 = file.index.length)
  (hstart : a.mainOn filesize file = a.startChunk file.header 0 [] file.index)
include h hrecords

/-- The join of a round leads to the next one, or out of the loop. -/
theorem Chunked.endChunk_cases {k : ℕ} (hk : k < rounds) (hr : a.InRound qsort size file k r)
    (hfinished : r.chunk.Finished) :
    (k + 1 < rounds ∧ a.endChunk filesize r = .sorting (a.roundStart qsort size file (k + 1))) ∨
      (k + 1 = rounds ∧ (a.endChunk filesize r).Ended) := by
  have hwhole : toSize (Lab6.filesize file.index.length - 16) / 16 = file.index.length := by
    rw [toSize_filesize h.isLong, Nat.mul_div_cancel_left _ (by omega)]
  have hsame (r' : Round a.threads.toNat T) : a.endChunk filesize r = .sorting r' ↔
      a.endChunk (Lab6.filesize file.index.length) r = .sorting r' :=
    (endChunk_sorting hrecords).trans (endChunk_sorting hwhole).symm
  have hend := h.endChunk_eq hk hr (hr.finished h hk hfinished).1
  by_cases hlast : k + 1 < rounds
  · rw [if_pos hlast] at hend
    exact .inl ⟨hlast, (hsame _).mpr hend⟩
  · rw [if_neg hlast] at hend
    refine .inr ⟨by omega, ended_iff.mpr ?_⟩
    rintro ⟨r', hr'⟩
    rw [hsame, hend] at hr'
    cases hlastPass : a.lastPass file.index.length (a.chunks qsort size rounds file.index) <;>
      rw [hlastPass] at hr' <;> cases hr'

/-- A step in the loop is a step on whole records, or the last one. -/
theorem Chunked.step_or_ended {k : ℕ} (hk : k < rounds) (hr : a.InRound qsort size file k r)
    {action : Action a.threads.toNat} {q : Program a.threads.toNat T}
    (hnext : a.next qsort filesize (.sorting r) action = some q) :
    a.Step qsort file rounds size (.sorting r) q ∨ q.Ended := by
  cases action with
  | thread i =>
    obtain ⟨chunk, hchunk, rfl⟩ := next_thread_eq_some.mp hnext
    exact .inl (.thread hk hr hchunk)
  | join =>
    obtain ⟨hfinished, rfl⟩ := next_join_eq_some.mp hnext
    rcases h.endChunk_cases hrecords hk hr hfinished with ⟨hmore, hend⟩ | ⟨_, hend⟩
    · rw [hend]
      exact .inl (.join hmore hr)
    · exact .inr hend

include hstart

/-- A run is in the round that it has counted, or behind the last one. -/
theorem Chunked.run_inRound (hrun : a.RunsOn qsort filesize file as p) :
    (∃ r, p = .sorting r ∧ roundsEnded as < rounds ∧ a.InRound qsort size file (roundsEnded as) r) ∨
      (p.Ended ∧ roundsEnded as = rounds) := by
  apply exec_trace_invariant (I := fun as p => (∃ r, p = .sorting r ∧ roundsEnded as < rounds ∧
    a.InRound qsort size file (roundsEnded as) r) ∨ (p.Ended ∧ roundsEnded as = rounds)) _ _ hrun
  · rintro as p action q (⟨r, rfl, hlt, hr⟩ | ⟨hended, hcount⟩) hnext
    · cases action with
      | thread i =>
        obtain ⟨chunk, hchunk, rfl⟩ := next_thread_eq_some.mp hnext
        rw [roundsEnded_thread]
        exact .inl ⟨_, rfl, hlt, hr.thread hchunk⟩
      | join =>
        rw [roundsEnded_join]
        obtain ⟨hfinished, rfl⟩ := next_join_eq_some.mp hnext
        rcases h.endChunk_cases hrecords hlt hr hfinished with ⟨hmore, hend⟩ | ⟨hall, hend⟩
        · exact .inl ⟨_, hend, hmore, roundStart_inRound⟩
        · exact .inr ⟨hend, hall⟩
    · cases p with
      | sorting r => exact absurd hended id
      | exited | undefined | returned _ => cases hnext
  · have hfirst := h.first_eq qsort
    exact .inl ⟨_, hstart.trans hfirst, h.rounds_pos, roundStart_inRound⟩

theorem Chunked.run_length_le (hrun : a.RunsOn qsort filesize file as p) :
    as.length ≤ a.left qsort file.index.length (a.mainOn filesize file) := by
  have hlength := exec_length_le (I := fun p => a.Lawful qsort file rounds size p ∨ p.Ended)
    (m := a.left qsort file.index.length) ?_ ?_ ?_ hrun
  · omega
  · rintro p action q hp hnext
    cases p with
    | sorting r =>
      obtain ⟨k, hk, hr⟩ := hp.resolve_right id
      rcases h.step_or_ended hrecords hk hr hnext with hstep | hended
      · rcases hstep.lawful with hq | ⟨rfl, _⟩
        · exact .inl hq
        · exact .inr trivial
      · exact .inr hended
    | exited | undefined | returned _ => cases hnext
  · rintro p action q hp hnext
    cases p with
    | sorting r =>
      obtain ⟨k, hk, hr⟩ := hp.resolve_right id
      rcases h.step_or_ended hrecords hk hr hnext with hstep | hended
      · exact hstep.left h
      · cases q with
        | sorting _ => exact absurd hended id
        | exited | undefined | returned _ => exact Nat.succ_pos _
    | exited | undefined | returned _ => cases hnext
  · have hfirst := h.first_eq qsort
    rw [hstart]
    exact .inl (hfirst ▸ ⟨0, h.rounds_pos, roundStart_inRound⟩)

end Sufficient

section Files

variable (hfile : file.index.length = ((filesize - 16) / 16).toNat) (hlong : filesize < 2 ^ 63)
include hfile hlong

omit [LT T] [DecidableLT T] in
theorem records_eq (hheader : 16 ≤ filesize) :
    toSize (filesize - 16) / 16 = file.index.length := by
  rw [toSize_of_nonneg (by omega) (by omega)]
  omega

omit [LT T] [DecidableLT T] in
/-- The first check, for a file with a header. -/
theorem memsize_le (hchecks : a.mainOn filesize file ≠ .exited) (hheader : 16 ≤ filesize)
    (hnonneg : 0 ≤ a.memsize) : a.memsize.toNat ≤ file.index.length := by
  have hfirst : ¬ toSize (filesize - 16) < toSize (a.memsize * 16) := fun hlt =>
    hchecks (by rw [mainOn, if_pos hlt])
  rw [toSize_memsize hnonneg, toSize_of_nonneg (by omega) (by omega)] at hfirst
  omega

omit [LT T] [DecidableLT T] in
theorem Sound.chunked (h : a.Sound filesize) (qsort : Qsort T)
    (hchecks : a.mainOn filesize file ≠ .exited) :
    ∃ size, a.Chunked file.index.length (file.index.length / a.memsize.toNat) size ∧
      (a.globals qsort).BlocksFit size ∧ PassesFit a.blockNum.toNat (16 * size) := by
  have hheader := h.header_le
  have hmem := h.memsize_pos
  have hrunnable : a.Runnable := ⟨by omega, h.threads_pos, h.threads_le_blockNum⟩
  have hle := memsize_le hfile hlong hchecks h.header_le (by omega)
  obtain ⟨size, hsize, hbytes, hlt, -⟩ := exists_bytes hrunnable h.blockSize_nonneg
  have hoffsets := h.offsets_lt
  rw [hbytes, ← Int.natCast_mul] at hoffsets
  have hwhole : a.memsize.toNat ∣ file.index.length := by
    rw [← Int.natCast_dvd_natCast, Int.toNat_of_nonneg (by omega), hfile,
      Int.toNat_of_nonneg (by omega)]
    exact h.whole
  refine ⟨size, ?_, (offsets_lt_iff qsort hrunnable size).mp (by omega)⟩
  constructor
  · exact hrunnable
  · exact h.threads_le
  · exact hbytes
  · exact hlt
  · exact hsize
  · exact (Nat.div_mul_cancel hwhole).symm
  · exact Nat.div_pos hle (by omega)
  · omega
  · rw [IsLong, Lab6.filesize]
    omega

theorem checksSuffice_of_sound (hchecks : a.mainOn filesize file ≠ .exited)
    (hsound : a.Sound filesize) : a.ChecksSuffice qsort filesize file := by
  obtain ⟨size, h, hblocks, hpasses⟩ := hsound.chunked hfile hlong qsort hchecks
  have hthreads := hsound.threads_pos
  have hle := hsound.threads_le_blockNum
  have hmem := hsound.memsize_pos
  have hrecords := records_eq hfile hlong hsound.header_le
  have hstart := mainOn_eq hchecks (by omega)
  have hround : ∀ as r, a.RunsOn qsort filesize file as (.sorting r) →
      ∃ k < file.index.length / a.memsize.toNat, a.InRound qsort size file k r := by
    intro as r hrun
    rcases h.run_inRound hrecords hstart hrun with ⟨_, heq, hlt, hr⟩ | ⟨hended, _⟩
    · cases heq
      exact ⟨_, hlt, hr⟩
    · exact absurd hended id
  constructor
  · omega
  · intro i hi
    omega
  · rw [hstart, startChunk, if_pos ⟨by omega, h.threads_le, hle⟩]
    exact ⟨_, rfl⟩
  · intro as r i block hrun hpc
    obtain ⟨k, hk, hr⟩ := hround as r hrun
    have hlt := ((h.claiming hk hr).free i block hpc).1
    omega
  · intro as r hrun
    obtain ⟨k, hk, hr⟩ := hround as r hrun
    have hchunk : (k + 1) * a.memsize.toNat ≤ file.index.length := h.end_le hk
    rw [Nat.succ_mul] at hchunk
    rw [hr.sorted_length (by omega)]
    omega
  · intro as r i block hrun hpc
    obtain ⟨k, hk, hr⟩ := hround as r hrun
    have hlt := ((h.claiming hk hr).held i block (Pc.holds_of_toSort hpc)).1
    exact h.blockInside hblocks hk hr hlt
  · intro as p hrun
    rcases h.run_inRound hrecords hstart hrun with ⟨r, heq, hlt, _⟩ | ⟨hended, hall⟩
    · exact iff_of_true ⟨r, heq⟩ hlt
    · exact iff_of_false (ended_iff.mp hended) (by omega)
  · intro as r hrun
    obtain ⟨k, hk, hr⟩ := hround as r hrun
    have hp : a.Lawful qsort file (file.index.length / a.memsize.toNat) size (.sorting r) :=
      ⟨k, hk, hr⟩
    obtain ⟨action, haction⟩ := hp.progress h hblocks hpasses id
    obtain ⟨q, hq⟩ := Option.isSome_iff_exists.mp haction
    refine ⟨action, ?_⟩
    rw [Option.isSome_iff_exists]
    cases action with
    | thread i => exact ⟨q, next_thread_eq_some.mpr (next_thread_eq_some.mp hq)⟩
    | join => exact ⟨_, next_join_eq_some.mpr ⟨(next_join_eq_some.mp hq).1, rfl⟩⟩
  · exact ⟨_, fun as p hrun => h.run_length_le hrecords hstart hrun⟩

end Files

section Necessary

omit [LT T] [DecidableLT T] in
theorem startChunk_sorting {header : IndexHdrS} {count : ℤ} {sorted rest : List (IndexS T)} :
    a.startChunk header count sorted rest = .sorting r ↔
      (0 < a.threads ∧ a.threads ≤ 128 ∧ a.threads ≤ a.blockNum) ∧
        ⟨header, count, sorted, State.start a.threads.toNat rest⟩ = r := by
  rw [startChunk]
  split_ifs with hthreads <;> simp [hthreads]

/-- The loop is left when all records have been counted. -/
theorem endChunk_ended {records count : ℕ}
    (hthreads : 0 < a.threads ∧ a.threads ≤ 128 ∧ a.threads ≤ a.blockNum)
    (hrecords : toSize (filesize - 16) / 16 = records)
    (hcount : r.countSortIndex + a.memsize = count) (hle : count ≤ records)
    (hlt : records < 2 ^ 59) (hend : (a.endChunk filesize r).Ended) : count = records := by
  by_contra hmore
  have hsize : toSize count = count := by
    rw [toSize_of_nonneg (by omega) (by omega), Int.toNat_natCast]
  have hlong : IsLong count := by
    rw [IsLong]
    omega
  have hnext := (endChunk_sorting hrecords).mpr ⟨hcount ▸ hlong, by rwa [hcount, hsize],
    startChunk_sorting.mpr ⟨hthreads, rfl⟩⟩
  exact ended_iff.mp hend ⟨_, hnext⟩

/-- The steps of the threads in one round. -/
theorem exec_threads {bs : List (Fin a.threads.toNat)} {s : State a.threads.toNat T}
    (hrun : exec (State.next (a.globals qsort)) r.chunk bs = some s) :
    exec (a.next qsort filesize) (.sorting r) (bs.map .thread) =
      some (.sorting { r with chunk := s }) := by
  induction bs generalizing r with
  | nil =>
    obtain rfl : r.chunk = s := by simpa using hrun
    rfl
  | cons i bs ih =>
    obtain ⟨t, ht, hrest⟩ := exec_cons_eq_some.mp hrun
    have htail := ih (r := { r with chunk := t }) hrest
    rw [List.map_cons, exec_cons, Args.next, ht, Option.map_some, Option.bind_some, htail]

variable (hchecks : a.mainOn filesize file ≠ .exited)
  (h : a.ChecksSuffice qsort filesize file)
include hchecks h

theorem ChecksSuffice.start_eq : (0 < a.threads ∧ a.threads ≤ 128 ∧ a.threads ≤ a.blockNum) ∧
    a.mainOn filesize file =
      .sorting ⟨file.header, 0, [], State.start a.threads.toNat file.index⟩ := by
  obtain ⟨r, hr⟩ := h.started
  have hstart := hr
  rw [mainOn_eq hchecks h.divisor, startChunk_sorting] at hstart
  obtain ⟨hthreads, rfl⟩ := hstart
  exact ⟨hthreads, hr⟩

/-- A chunk is not empty, and the file has one at least. -/
theorem ChecksSuffice.memsize_fits : 1 ≤ a.memsize ∧ a.memsize.toNat ≤ file.index.length := by
  have hrun : a.RunsOn qsort filesize file [] (.sorting ⟨file.header, 0, [],
      State.start a.threads.toNat file.index⟩) := by
    rw [RunsOn, exec_nil, (h.start_eq hchecks).2]
  have hnonneg := (h.window _ _ hrun).1
  have hpos := (h.rounds _ _ hrun).mp ⟨_, rfl⟩
  obtain ⟨hmem, hle⟩ := Nat.div_pos_iff.mp hpos
  omega

theorem ChecksSuffice.run_count (hrun : a.RunsOn qsort filesize file as p) :
    ∀ r, p = .sorting r → r.countSortIndex = roundsEnded as * a.memsize := by
  apply exec_trace_invariant (I := fun as p => ∀ r, p = .sorting r →
    r.countSortIndex = roundsEnded as * a.memsize) _ _ hrun
  · rintro as p action q hp hnext r' rfl
    cases p with
    | sorting r =>
      have hcount := hp r rfl
      cases action with
      | thread i =>
        obtain ⟨chunk, _, heq⟩ := next_thread_eq_some.mp hnext
        cases heq
        rw [roundsEnded_thread]
        exact hcount
      | join =>
        rw [next_join_eq_some, endChunk_sorting rfl, startChunk_sorting] at hnext
        obtain ⟨_, _, _, _, rfl⟩ := hnext
        rw [roundsEnded_join, hcount, Int.natCast_succ, Int.add_mul, Int.one_mul]
    | exited | undefined | returned _ => cases hnext
  · intro r hr
    rw [(h.start_eq hchecks).2] at hr
    cases hr
    rw [roundsEnded_nil, Int.natCast_zero, Int.zero_mul]

/-- The step that leaves the loop has counted all records. -/
theorem ChecksSuffice.whole (hrecords : toSize (filesize - 16) / 16 = file.index.length)
    (hlt : file.index.length < 2 ^ 59) : a.memsize.toNat ∣ file.index.length := by
  obtain ⟨hthreads, hstart⟩ := h.start_eq hchecks
  obtain ⟨hmem, -⟩ := h.memsize_fits hchecks
  obtain ⟨n, hn⟩ := h.bounded
  have hmove : ∀ as p, a.RunsOn qsort filesize file as p → ¬ p.Ended →
      ∃ action, (a.next qsort filesize p action).isSome := by
    intro as p hrun hnot
    rw [ended_iff, not_not] at hnot
    obtain ⟨r, rfl⟩ := hnot
    exact h.progress as r hrun
  obtain ⟨as, p, hrun, hended⟩ := exists_exec_final hmove hn
  have hfirst : ¬ (a.mainOn filesize file).Ended := by
    rw [hstart]
    exact id
  obtain ⟨bs, action, q, p', hq, hnot, hnext, hend⟩ := exec_enters hfirst hended hrun
  rw [ended_iff, not_not] at hnot
  obtain ⟨r, rfl⟩ := hnot
  have hrounds := (h.rounds bs _ hq).mp ⟨r, rfl⟩
  have hcount := h.run_count hchecks hq r rfl
  cases action with
  | thread i =>
    obtain ⟨chunk, _, rfl⟩ := next_thread_eq_some.mp hnext
    exact absurd hend id
  | join =>
    obtain ⟨-, rfl⟩ := next_join_eq_some.mp hnext
    have hsum : r.countSortIndex + a.memsize =
        ((roundsEnded bs + 1) * a.memsize.toNat : ℕ) := by
      rw [hcount, Int.natCast_mul, Int.toNat_of_nonneg (by omega), Int.natCast_succ, Int.add_mul,
        Int.one_mul]
    have hle : (roundsEnded bs + 1) * a.memsize.toNat ≤ file.index.length :=
      (Nat.le_div_iff_mul_le (by omega)).mp hrounds
    have hall := endChunk_ended hthreads hrecords hsum hle hlt hend
    exact ⟨roundsEnded bs + 1, by rw [← hall, Nat.mul_comm]⟩

/-- The threads of the first round can return. -/
theorem ChecksSuffice.exists_finished :
    ∃ bs s, a.Reaches qsort file.index bs s ∧ s.Finished := by
  obtain ⟨-, hstart⟩ := h.start_eq hchecks
  obtain ⟨n, hn⟩ := h.bounded
  have hlift : ∀ bs s, a.Reaches qsort file.index bs s → a.RunsOn qsort filesize file
      (bs.map .thread) (.sorting ⟨file.header, 0, [], s⟩) := by
    intro bs s hrun
    rw [RunsOn, hstart]
    exact exec_threads (r := ⟨file.header, 0, [], State.start a.threads.toNat file.index⟩) hrun
  apply exists_exec_final (n := n)
  · intro bs s hrun hnot
    obtain ⟨action, haction⟩ := h.progress _ _ (hlift bs s hrun)
    obtain ⟨q, hq⟩ := Option.isSome_iff_exists.mp haction
    cases action with
    | thread i =>
      obtain ⟨chunk, hchunk, -⟩ := next_thread_eq_some.mp hq
      exact ⟨i, by rw [hchunk, Option.isSome_some]⟩
    | join => exact absurd (next_join_eq_some.mp hq).1 hnot
  · intro bs s hrun
    have hle := hn _ _ (hlift bs s hrun)
    rwa [List.length_map] at hle

theorem ChecksSuffice.offsets (hlt : file.index.length < 2 ^ 59) : 0 ≤ a.blockSize ∧ a.blockSize *
    (max (a.blockNum.toNat - 1) (2 ^ Nat.log2 a.blockNum.toNat) : ℕ) < 2 ^ 31 := by
  obtain ⟨⟨hpos, _, hle⟩, -⟩ := h.start_eq hchecks
  obtain ⟨hmem, hroom⟩ := h.memsize_fits hchecks
  obtain ⟨bs, s, hrun, hfinished⟩ := h.exists_finished hchecks
  have hrunnable : a.Runnable := ⟨by omega, by omega, hle⟩
  have hnonneg := Reaches.blockSize_nonneg (by omega) hlt hrun hfinished
  obtain ⟨size, hsize, hbytes, hint, -⟩ := exists_bytes hrunnable hnonneg
  have hstart := startable qsort hrunnable hbytes hint hsize hroom
  obtain ⟨-, hpasses, hblocks⟩ := State.run_finished hstart hrun hfinished
  have hmax := (offsets_lt_iff qsort hrunnable size).mpr ⟨hblocks, hpasses⟩
  rw [hbytes, ← Int.natCast_mul]
  exact ⟨by omega, by omega⟩

end Necessary

/-- For every file size and all arguments that come through the checks of `main`. -/
theorem checksSuffice_iff (hfile : file.index.length = ((filesize - 16) / 16).toNat)
    (hlong : filesize < 2 ^ 63) (hchecks : a.mainOn filesize file ≠ .exited) :
    a.ChecksSuffice qsort filesize file ↔ a.Sound filesize := by
  constructor
  · intro h
    obtain ⟨⟨hpos, hmax, hle⟩, -⟩ := h.start_eq hchecks
    obtain ⟨hmem, hroom⟩ := h.memsize_fits hchecks
    have hheader : 16 ≤ filesize := by omega
    have hlt : file.index.length < 2 ^ 59 := by omega
    have hwhole := h.whole hchecks (records_eq hfile hlong hheader) hlt
    obtain ⟨hnonneg, hoffsets⟩ := h.offsets hchecks hlt
    rw [← Int.natCast_dvd_natCast, Int.toNat_of_nonneg (by omega), hfile,
      Int.toNat_of_nonneg (by omega)] at hwhole
    exact ⟨hheader, hmem, hwhole, hpos, hmax, hle, hnonneg, hoffsets⟩
  · exact checksSuffice_of_sound hfile hlong hchecks

/-- Six blocks of one record. -/
def sixBlocks : Args := ⟨6, 6, 6, by decide, by decide, by decide⟩

/-- A file with its records in descending order. -/
def descending (records : ℕ) : IndexFile ℕ :=
  ⟨⟨0, 0⟩, (List.range records).map fun i => ⟨records - i, 0⟩⟩

/-- Two rounds; the file ends within a thirteenth record. -/
theorem checksSuffice_sixBlocks :
    sixBlocks.ChecksSuffice Qsort.mergeSort 216 (descending 12) :=
  (checksSuffice_iff (a := sixBlocks) (by decide) (by decide)
    (mainOn_ne_exited (by decide))).mpr ⟨by decide, by decide, by decide, by decide, by decide,
      by decide, by decide, by decide⟩

/-- Seven threads for six blocks. -/
def seventhThread : Args := ⟨6, 6, 7, by decide, by decide, by decide⟩

/-- `main` writes `blockMap[6]`, behind the last block. -/
theorem seventhThread_not_suffice :
    seventhThread.mainOn 112 (descending 6) ≠ .exited ∧
      ¬ seventhThread.ChecksSuffice Qsort.mergeSort 112 (descending 6) := by
  refine ⟨mainOn_ne_exited (by decide), fun h => ?_⟩
  have hmarked := h.marked 6 (by decide)
  exact absurd hmarked (by decide)

end Args

end OsispLabs.Lab6
