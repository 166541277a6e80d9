import OsispLabs.Lab6.MergeCursors

/-!
# What `merge` leaves behind

Two sorted runs that lie side by side become one sorted run, with the records of the second run
first where time marks are equal, and nothing else in the record area changes. The loops do this
wherever the size of their buffer can be computed and `malloc` returns a block.
-/
namespace OsispLabs.Lab6
open Lib

/-- The comparisons of `double`: a NaN compares with nothing, not even with itself. -/
class DoubleOrder (T : Type*) [LE T] [LT T] : Prop where
  lt_iff : ∀ {a b : T}, a < b ↔ a ≤ b ∧ ¬ b ≤ a
  trans : ∀ {a b c : T}, a ≤ b → b ≤ c → a ≤ c
  total : ∀ {a b : T}, a ≤ a → b ≤ b → a ≤ b ∨ b ≤ a

instance {T : Type*} [LinearOrder T] : DoubleOrder T where
  lt_iff := lt_iff_le_not_ge
  trans := le_trans
  total _ _ := le_total _ _

variable {T : Type*} [LE T]

/-- Sorted by `<=`, which no NaN satisfies, not even with itself. -/
structure SortedRun (run : List (IndexS T)) : Prop where
  pairwise : run.Pairwise fun x y => x.timeMark ≤ y.timeMark
  reflexive : ∀ x ∈ run, x.timeMark ≤ x.timeMark

/-- Records with equal time marks do not stand with the one of the first run in front. -/
def SecondFirst (a b : Side × IndexS T) : Prop :=
  a.1 = .first → b.1 = .second →
    ¬ (a.2.timeMark ≤ b.2.timeMark ∧ b.2.timeMark ≤ a.2.timeMark)

namespace MergeCall

/-- Two sorted runs side by side in the record area. -/
structure Runs (c : MergeCall) (area : List (IndexS T)) : Prop where
  adjacent : c.start2 = c.start1 + c.count
  fits : c.start1 + 2 * c.count ≤ area.length
  first : SortedRun (c.firstRun area)
  second : SortedRun (c.secondRun area)

/-- The `2 * count` records from `start1` on. -/
def bothRuns (c : MergeCall) (area : List (IndexS T)) : List (IndexS T) :=
  window area c.start1 (2 * c.count)

/-- `area'` has the two runs of `area` merged, records of the second run first where time marks are
equal, and is the same everywhere else. -/
structure Merged (c : MergeCall) (area area' : List (IndexS T)) : Prop where
  sorted : SortedRun (c.bothRuns area')
  perm : (c.bothRuns area').Perm (c.bothRuns area)
  stable : ∃ tagged, Interleaves (c.firstRun area) (c.secondRun area) tagged ∧
    tagged.map Prod.snd = c.bothRuns area' ∧ tagged.Pairwise SecondFirst
  outside : ∀ p, p < c.start1 ∨ c.start1 + 2 * c.count ≤ p → area'[p]? = area[p]?

section Merged

variable {c : MergeCall} {area : List (IndexS T)}

theorem Runs.toFits (h : c.Runs area) : c.Fits area := by
  have hfits := h.fits
  refine ⟨hfits, ?_⟩
  rw [h.adjacent]
  omega

theorem Runs.append (h : c.Runs area) :
    c.firstRun area ++ c.secondRun area = c.bothRuns area := by
  rw [firstRun, secondRun, bothRuns, h.adjacent, window_append, Nat.two_mul]

variable [LT T] [DecidableLT T]

theorem Runs.mergeRuns_length (h : c.Runs area) :
    (mergeRuns (c.firstRun area) (c.secondRun area)).length = 2 * c.count := by
  rw [(mergeRuns_perm _ _).length_eq, h.append]
  exact window_length h.fits

/-- The window after the merge of the runs was written. -/
theorem Runs.bothRuns_overwrite (h : c.Runs area) :
    c.bothRuns (overwrite area c.start1 (mergeRuns (c.firstRun area) (c.secondRun area))) =
      mergeRuns (c.firstRun area) (c.secondRun area) := by
  have hfits := h.fits
  rw [bothRuns, ← h.mergeRuns_length]
  exact window_overwrite (by omega)

variable [DoubleOrder T]

omit [DecidableLT T] in
/-- Between values that are equal to themselves the comparisons decide. -/
theorem mergeOrder_of_reflexive {run1 run2 : List (IndexS T)}
    (h1 : ∀ x ∈ run1, x.timeMark ≤ x.timeMark) (h2 : ∀ y ∈ run2, y.timeMark ≤ y.timeMark) :
    MergeOrder (fun x y => x.timeMark < y.timeMark) (fun x y => x.timeMark ≤ y.timeMark)
      run1 run2 where
  trans := DoubleOrder.trans
  le_of_lt _ _ hlt := (DoubleOrder.lt_iff.mp hlt).1
  not_le_of_lt _ _ hlt := (DoubleOrder.lt_iff.mp hlt).2
  le_of_not_lt hx hy hnot := by
    rcases DoubleOrder.total (h1 _ hx) (h2 _ hy) with hxy | hyx
    · by_contra hyx
      exact hnot (DoubleOrder.lt_iff.mpr ⟨hxy, hyx⟩)
    · exact hyx

/-- What the three loops and `memcpy` compute is the merge of the runs. -/
theorem Runs.merged (h : c.Runs area) :
    c.Merged area (overwrite area c.start1 (mergeRuns (c.firstRun area) (c.secondRun area))) := by
  have hbefore := pairwise_mergeTagged (mergeOrder_of_reflexive h.first.reflexive
    h.second.reflexive) h.first.pairwise h.second.pairwise
  have hinterleaves : Interleaves (c.firstRun area) (c.secondRun area) (mergeTagged
      (fun x y => x.timeMark < y.timeMark) (c.firstRun area) (c.secondRun area)) :=
    mergeTagged_interleaves _ _
  refine ⟨⟨?_, ?_⟩, ?_, ⟨_, hinterleaves, ?_, ?_⟩, ?_⟩
  · rw [h.bothRuns_overwrite, mergeRuns_eq_map, List.pairwise_map]
    exact hbefore.imp And.left
  · intro x hx
    rw [h.bothRuns_overwrite] at hx
    rcases List.mem_append.mp ((mergeRuns_perm _ _).mem_iff.mp hx) with hfirst | hsecond
    · exact h.first.reflexive x hfirst
    · exact h.second.reflexive x hsecond
  · rw [h.bothRuns_overwrite, ← h.append]
    exact mergeRuns_perm _ _
  · rw [h.bothRuns_overwrite, mergeRuns_eq_map]
  · exact hbefore.imp fun hab hfirst hsecond hboth => hab.2 hfirst hsecond hboth.2
  · intro p hp
    have hlength := h.mergeRuns_length
    have hfits := h.fits
    exact getElem?_overwrite_of_outside (by omega) (by omega)

end Merged

variable [LT T] [DecidableLT T]

/-- The call of `merge` runs to its end without undefined behaviour, and the runs are merged. -/
structure Merges (malloc : Malloc T) (c : MergeCall) (area : List (IndexS T)) : Prop where
  defined : ∀ as s, exec (Merging.next malloc c) (Merging.start area) as = some s →
    s.point ≠ .undefined
  terminates : ∃ n, ∀ as s, exec (Merging.next malloc c) (Merging.start area) as = some s →
    as.length ≤ n
  returns : ∃ as s, exec (Merging.next malloc c) (Merging.start area) as = some s ∧
    s.point = .returned
  merged : ∀ as s, exec (Merging.next malloc c) (Merging.start area) as = some s →
    s.point = .returned → c.Merged area s.area

variable {malloc : Malloc T} {c : MergeCall} {area : List (IndexS T)}

theorem not_merges (hfail : c.count < 2 ^ 30 → malloc.alloc (32 * c.count) = none) :
    ¬ Merges malloc c area := by
  intro h
  obtain ⟨as, s, hrun, hreturned⟩ := h.returns
  exact Merging.not_returned_of_exec hfail hrun hreturned

/-- `merge` is right exactly where `count * 2` fits into an `int` and `malloc` returns a block. -/
theorem merges_iff [DoubleOrder T] (h : c.Runs area) :
    Merges malloc c area ↔ c.count < 2 ^ 30 ∧ (malloc.alloc (32 * c.count)).isSome := by
  constructor
  · intro hmerges
    by_contra hnot
    refine not_merges (fun hcount => ?_) hmerges
    rw [← Option.not_isSome_iff_eq_none]
    exact fun hsome => hnot ⟨hcount, hsome⟩
  · rintro ⟨hcount, hsome⟩
    obtain ⟨block, halloc⟩ := Option.isSome_iff_exists.mp hsome
    have hfits := h.toFits
    refine ⟨?_, ⟨2 * c.count + 5, ?_⟩, Merging.exists_returned hfits hcount halloc, ?_⟩
    · intro as s hrun
      exact (Merging.invariant_of_exec hfits hcount halloc hrun).outcome.1
    · intro as s hrun
      exact Merging.length_le_of_exec hfits hcount halloc hrun
    · intro as s hrun hreturned
      rw [(Merging.invariant_of_exec hfits hcount halloc hrun).outcome.2 hreturned]
      exact h.merged

/-- Two runs with equal time marks, and a record behind them. -/
theorem merges_iff_ties :
    Merges (Malloc.filled ⟨0, 0⟩) ⟨0, 2, 2⟩
      ([⟨1, 0⟩, ⟨3, 1⟩, ⟨1, 2⟩, ⟨3, 3⟩, ⟨0, 4⟩] : List (IndexS ℕ)) :=
  (merges_iff ⟨rfl, by decide, ⟨by decide, by decide⟩, ⟨by decide, by decide⟩⟩).mpr
    ⟨by decide, rfl⟩

/-- Two equal runs side by side. -/
def equalRecords (n : ℕ) : List (IndexS ℕ) := List.replicate (2 * n) ⟨0, 0⟩

theorem sortedRun_replicate (n : ℕ) (record : IndexS ℕ) :
    SortedRun (List.replicate n record) := by
  refine ⟨List.pairwise_replicate.mpr (.inr (Nat.le_refl _)), ?_⟩
  intro x _
  exact Nat.le_refl _

theorem equalRecords_runs (n : ℕ) : Runs ⟨0, n, n⟩ (equalRecords n) := by
  refine ⟨(Nat.zero_add n).symm, by simp [equalRecords], ?_, ?_⟩
  · rw [firstRun, equalRecords, window, List.drop_replicate, List.take_replicate]
    exact sortedRun_replicate _ _
  · rw [secondRun, equalRecords, window, List.drop_replicate, List.take_replicate]
    exact sortedRun_replicate _ _

/-- Two runs of `2 ^ 30` equal records: `count * 2` overflows. -/
theorem equalRecords_not_merges :
    Runs ⟨0, 2 ^ 30, 2 ^ 30⟩ (equalRecords (2 ^ 30)) ∧
      ¬ Merges (Malloc.filled ⟨0, 0⟩) ⟨0, 2 ^ 30, 2 ^ 30⟩ (equalRecords (2 ^ 30)) := by
  refine ⟨equalRecords_runs _, not_merges fun hcount => ?_⟩
  exact absurd hcount (Nat.lt_irrefl _)

end MergeCall

end OsispLabs.Lab6
