import OsispLabs.Lab3.Statistics

/-!
# Samples that come too late

What becomes of a sample that arrives after `countOneAndOne` was read for `printf` and before it and
`countTimes` are reset: in every order of the reads and of the resets one of the two laws of the
statistics breaks.
-/
namespace OsispLabs.Lab3.Child.State
open Lib

variable {s t : State}

/-- The sample after the read of `countOneAndOne`, before the call of `printf`. -/
structure Missed (s t : State) : Prop where
  reading : ∃ read, t.pc = .reading read ∧ .oneAndOne ∈ read
  args : ∀ c ∈ t.pc.passed, t.args c = s.counts c
  counts : ∀ c ≠ .oneAndOne, t.counts c = s.counts c
  missing : (t.deliveries : ℤ) = (t.printed.map total).sum + total s.counts + 1

theorem main_missed {u : State} (x : Access) (h : s.Missed t) (hmain : t.main x = some u) :
    s.Missed u ∨ u.Lacks 1 := by
  obtain ⟨read, hpc, hmem⟩ := h.reading
  have hargs := h.args
  have hmissing := h.missing
  rw [hpc] at hargs
  cases x with
  | assign m | reset v => simp [main, hpc] at hmain
  | read c =>
    simp only [main, hpc] at hmain
    split at hmain <;> cases hmain
    have hne : c ≠ .oneAndOne := by
      rintro rfl
      contradiction
    refine .inl ⟨⟨_, rfl, List.mem_cons_of_mem _ hmem⟩, fun d hd => ?_, h.counts, h.missing⟩
    by_cases heq : d = c
    · simp [heq, h.counts c hne]
    · simp only [Function.update_of_ne heq]
      exact hargs d ((List.mem_cons.mp hd).resolve_left heq)
  | go =>
    simp only [main, go, hpc] at hmain
    split at hmain <;> cases hmain
    have hall : t.args = s.counts := by
      funext c
      exact hargs c ((‹∀ c ∈ Counter.all, c ∈ read›) c c.mem_all)
    refine .inr ⟨by simp [Pc.passed], ?_⟩
    simp [current, Pc.pending, total, hall] at hmissing ⊢
    omega

/-- A sample between the read of `countOneAndOne` and its reset is in no statistic and, from the
call of `printf` on, in no counter, whatever the orders of the reads and the resets. -/
theorem lost_of_exposed {xs : List Access} (h : Sound s) (hpc : s.pc.exposed = true)
    (hstored : .counter .oneAndOne ∉ s.pc.stored) (hrun : exec main s.pairProcessing xs = some t)
    (hpassed : t.pc.passed = []) : ¬ t.Conserved := by
  have hassigned := h.assigned
  have hargs := h.lacks.args
  have hmissing := h.lacks.missing
  have hsampled : s.Missed s.pairProcessing ∨ s.pairProcessing.Lacks 1 := by
    cases hc : s.pc with
    | reading read =>
      rw [Assigned, hc] at hassigned
      rw [current_eq (by simp [hc, Pc.pending])] at hmissing
      refine .inl ⟨⟨read, hc, ?_⟩, hargs, fun c hne => ?_, ?_⟩
      · rw [hc] at hpc
        exact of_decide_eq_true hpc
      · rw [pairProcessing, sample_of_assigned hassigned]
        exact Function.update_of_ne hne _ _
      · simp only [pairProcessing]
        push_cast
        omega
    | resetting stored =>
      rw [Assigned, hc] at hassigned
      rw [hc] at hstored
      have hpending : s.pc.pending .oneAndOne = true := by
        rw [hc]
        exact decide_eq_true hstored
      have hcurrent : s.pairProcessing.current = s.current := by
        funext c
        by_cases hne : c = .oneAndOne
        · subst hne
          simp [current, pairProcessing, hpending]
        · simp [current, pairProcessing, sample_of_assigned hassigned, hne]
      refine .inr ⟨by simp [pairProcessing, hc, Pc.passed], ?_⟩
      rw [hcurrent]
      simp only [pairProcessing]
      push_cast
      omega
    | zero | one | testTimes | testPermission =>
      rw [hc] at hpc
      cases hpc
  have hend : s.Missed t ∨ t.Lacks 1 := by
    refine exec_invariant (I := fun u => s.Missed u ∨ u.Lacks 1) ?_ hsampled hrun
    rintro u x v (hmissed | hlacks) hmain
    · exact main_missed x hmissed hmain
    · exact .inr (main_lacks x hlacks hmain)
  rcases hend with hmissed | hlacks
  · obtain ⟨read, hread, hmem⟩ := hmissed.reading
    rw [hread] at hpassed
    obtain rfl : read = [] := hpassed
    cases hmem
  · exact hlacks.not_conserved

/-- The only sample since the last statistic counts in `countOneAndOne`, and `countTimes` is or will
be reset. -/
def Short (s : State) : Prop :=
  match s.pc with
  | .resetting stored => .counter .oneAndOne ∈ stored ∧ s.counts .oneAndOne = 1 ∧
      (∀ c ≠ .oneAndOne, .counter c ∈ stored → s.counts c = 0) ∧
      (.times ∈ stored → s.countTimes = 0)
  | .zero | .one | .testTimes => s.countTimes = 0 ∧ total s.counts = 1
  | .testPermission | .reading _ => False

theorem main_short (x : Access) (h : s.Short) (hmain : s.main x = some t) : t.Short := by
  cases hpc : s.pc with
  | zero | one =>
    rw [Short, hpc] at h
    cases x with
    | assign m =>
      simp only [main, hpc] at hmain
      cases hmain
      cases m <;> simpa [Short, assign, hpc] using h
    | go =>
      simp only [main, go, hpc] at hmain
      split at hmain <;> cases hmain
      exact h
    | read c | reset v => simp [main, hpc] at hmain
  | testTimes =>
    rw [Short, hpc] at h
    cases x with
    | go =>
      simp only [main, go, hpc] at hmain
      cases hmain
      rw [if_neg (by omega)]
      exact h
    | assign m | read c | reset v => simp [main, hpc] at hmain
  | testPermission | reading read => simp [Short, hpc] at h
  | resetting stored =>
    rw [Short, hpc] at h
    obtain ⟨hmem, hone, hzero, htimes⟩ := h
    cases x with
    | reset v =>
      simp only [main, hpc] at hmain
      split at hmain <;> cases hmain
      cases v with
      | times => exact ⟨List.mem_cons_of_mem _ hmem, hone,
          fun c hne hc => hzero c hne ((List.mem_cons.mp hc).resolve_left (by simp)), fun _ => rfl⟩
      | counter c =>
        have hne : .oneAndOne ≠ c := by
          rintro rfl
          contradiction
        refine ⟨List.mem_cons_of_mem _ hmem, ?_, fun d hd hstored => ?_, fun hc => ?_⟩
        · simpa [reset, hne] using hone
        · by_cases heq : d = c
          · simp [reset, heq]
          · simpa [reset, heq] using
              hzero d hd ((List.mem_cons.mp hstored).resolve_left (by simp [heq]))
        · exact htimes ((List.mem_cons.mp hc).resolve_left (by simp))
    | go =>
      simp only [main, go, hpc] at hmain
      split at hmain <;> cases hmain
      have hall (v : Target) : v ∈ stored := (‹∀ v ∈ Target.all, v ∈ stored›) v v.mem_all
      refine ⟨htimes (hall _), ?_⟩
      simp [total, hone, hzero _ _ (hall _)]
    | assign m | read c => simp [main, hpc] at hmain

/-- A sample between the resets of `countOneAndOne` and `countTimes` is in a counter, but not in
`countTimes` when the loop next tests it. -/
theorem inconsistent_of_exposed {xs : List Access} (h : Sound s) (hpc : s.pc.exposed = true)
    (hstored : .counter .oneAndOne ∈ s.pc.stored) (hrun : exec main s.pairProcessing xs = some t)
    (htest : t.pc = .testTimes) : ¬ t.Consistent := by
  have hassigned := h.assigned
  have hzeroed := h.zeroed
  have hsampled : s.pairProcessing.Short := by
    cases hc : s.pc with
    | resetting stored =>
      rw [Assigned, hc] at hassigned
      rw [hc] at hpc hstored hzeroed
      have hone := hzeroed .oneAndOne hstored (.inl hpc)
      simp only [Pc.exposed, decide_eq_true_eq] at hpc
      have hcounts : s.pairProcessing.counts =
          Function.update s.counts .oneAndOne (toInt (s.counts .oneAndOne + 1)) := by
        rw [pairProcessing, sample_of_assigned hassigned]
      have hsame : s.pairProcessing.pc = .resetting stored := hc
      rw [Short, hsame]
      refine ⟨hstored, ?_, fun c hne hmem => ?_, fun hmem => absurd ⟨hstored, hmem⟩ hpc⟩
      · rw [hcounts, Function.update_self, hone]
        decide
      · rw [hcounts, Function.update_of_ne hne]
        exact hzeroed c hmem (.inr hne)
    | _ =>
      rw [hc] at hstored
      cases hstored
  have hend := exec_invariant (fun _ x _ hu hmain => main_short x hu hmain) hsampled hrun
  rw [Short, htest] at hend
  intro hconsistent
  have htimes := hconsistent htest
  omega

end OsispLabs.Lab3.Child.State
