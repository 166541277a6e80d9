import OsispLabs.Lab4.Accounting

/-!
# The mutex under signals

Neither loop looks at the result of its `sem_wait` on `queue->mutex`. When the handler ends that
wait, the process enters its critical section without the semaphore and posts it all the same.
-/
namespace OsispLabs.Lab4
open Lib

def ProducerPc.awaitsMutex : ProducerPc → Bool
  | .waitingMutex _ => true
  | .unborn | .generating | .waitingEmpty _ | .testing _ | .exited | .counting _
  | .copyingHeader _ | .copyingData _ | .wrapping | .postingFull | .postingMutex
  | .printing => false

/-- One while the producer is between its `sem_wait` and its `sem_post` on the mutex. -/
def ProducerPc.owns : ProducerPc → ℕ
  | .counting _ | .copyingHeader _ | .copyingData _ | .wrapping | .postingFull
  | .postingMutex => 1
  | .unborn | .generating | .waitingEmpty _ | .testing _ | .exited | .waitingMutex _
  | .printing => 0

def ConsumerPc.owns : ConsumerPc → ℕ
  | .counting | .copyingHeader | .copyingData _ | .wrapping | .postingEmpty | .postingMutex => 1
  | .unborn | .allocating | .waitingFull | .testing | .exited | .waitingMutex | .printing => 0

theorem ProducerStep.mutex {q q' : MessageQueue} {p p' : Producer} {move : ProducerMove}
    (h : ProducerStep q p move q' p') (hok : move = .eintr → p.pc.awaitsMutex = false) :
    q'.mutex + p'.pc.owns = q.mutex + p.pc.owns := by
  cases h with
  | eintrMutex msg hpc hint => simp [hpc, ProducerPc.awaitsMutex] at hok
  | waitMutex msg hpc hpos =>
    simp only [hpc, ProducerPc.owns]
    omega
  | generate msg hpc | eintrEmpty msg hpc hint | waitEmpty msg hpc hpos | exit msg hpc hflag
  | goOn msg hpc hflag | count msg hpc | copyHeader msg hpc | copyData msg hpc | wrap hpc
  | postFull hpc | postMutex hpc | print hpc =>
    simp only [hpc, ProducerPc.owns, Process.await, MessageQueue.addHeader, MessageQueue.addData]

theorem ConsumerStep.mutex {q q' : MessageQueue} {p p' : Consumer} {move : ConsumerMove}
    (h : ConsumerStep q p move q' p') (hok : move = .eintr → p.pc ≠ .waitingMutex) :
    q'.mutex + p'.pc.owns = q.mutex + p.pc.owns := by
  cases h with
  | eintrMutex hpc hint => exact absurd hpc (hok rfl)
  | waitMutex hpc hpos =>
    simp only [hpc, ConsumerPc.owns]
    omega
  | allocate hpc | eintrFull hpc hint | waitFull hpc hpos | exit hpc hflag | goOn hpc hflag
  | count hpc | copyHeader hpc | copyData header hpc | wrap hpc | postEmpty hpc | postMutex hpc
  | print hpc =>
    simp only [hpc, ConsumerPc.owns, Process.await, MessageQueue.getHeader, MessageQueue.getData]

variable {P C : Type*} [DecidableEq P] [DecidableEq C] [Fintype P] [Fintype C]

namespace State

/-- The processes between their `sem_wait` and their `sem_post` on the mutex. -/
def inside (s : State P C) : ℕ :=
  total (fun p : Producer => p.pc.owns) s.producer +
    total (fun p : Consumer => p.pc.owns) s.consumer

/-- Mutual exclusion, and the mutex is a binary semaphore. -/
def Exclusive (s : State P C) : Prop := s.queue.mutex ≤ 1 ∧ s.inside ≤ 1

/-- The step does not interrupt a `sem_wait` on the mutex. -/
def Uninterrupted (s : State P C) : Action P C → Prop
  | .producer i .eintr => (s.producer i).pc.awaitsMutex = false
  | .consumer j .eintr => (s.consumer j).pc ≠ .waitingMutex
  | .producer _ (.generateMessage _) | .producer _ .statement | .consumer _ .statement
  | .createProducer _ | .createConsumer _ | .destroyProducer | .destroyConsumer => True

omit [DecidableEq P] [DecidableEq C] in
theorem start_inside : (start : State P C).queue.mutex + (start : State P C).inside = 1 := by
  have hp : total (fun p : Producer => p.pc.owns) (start : State P C).producer = 0 :=
    total_eq_zero fun _ => rfl
  have hc : total (fun p : Consumer => p.pc.owns) (start : State P C).consumer = 0 :=
    total_eq_zero fun _ => rfl
  rw [inside, hp, hc]
  rfl

variable {s t : State P C} {a : Action P C}

/-- The mutex is with the semaphore or with the one process inside. -/
theorem Step.inside (h : Step s a t) (hok : s.Uninterrupted a) :
    t.queue.mutex + t.inside = s.queue.mutex + s.inside := by
  have hsum : t.queue.mutex + total (fun p : Producer => p.pc.owns) t.producer +
      total (fun p : Consumer => p.pc.owns) t.consumer = s.queue.mutex +
        total (fun p : Producer => p.pc.owns) s.producer +
        total (fun p : Consumer => p.pc.owns) s.consumer := by
    refine h.conserved (f := MessageQueue.mutex) ?_ ?_ ?_ ?_ ?_ ?_
    · rintro i m q p rfl hwork
      exact hwork.mutex fun hm => by subst hm; exact hok
    · rintro j m q p rfl hwork
      exact hwork.mutex fun hm => by subst hm; exact hok
    · exact fun p => rfl
    · exact fun p => rfl
    · intro i hpc
      simp only [hpc]
      rfl
    · intro j hpc
      simp only [hpc]
      rfl
  simp only [State.inside]
  omega

/-- A process that enters on an interrupted wait adds one to the mutex and its owners. -/
theorem Step.inside_interrupted (h : Step s a t) (hnot : ¬ s.Uninterrupted a) :
    t.queue.mutex + t.inside = s.queue.mutex + s.inside + 1 := by
  cases a with
  | producer i m =>
    cases m with
    | generateMessage msg => exact absurd trivial hnot
    | statement => exact absurd trivial hnot
    | eintr =>
      cases h with
      | @producer _ _ q p hwork =>
        have hsum := total_update (fun p : Producer => p.pc.owns) s.producer i p
        cases hwork with
        | eintrEmpty msg hpc hint => simp [Uninterrupted, hpc, ProducerPc.awaitsMutex] at hnot
        | eintrMutex msg hpc hint =>
          simp only [State.inside, setProducer, hpc, ProducerPc.owns] at hsum ⊢
          omega
  | consumer j m =>
    cases m with
    | statement => exact absurd trivial hnot
    | eintr =>
      cases h with
      | @consumer _ _ q p hwork =>
        have hsum := total_update (fun p : Consumer => p.pc.owns) s.consumer j p
        cases hwork with
        | eintrFull hpc hint => simp [Uninterrupted, hpc] at hnot
        | eintrMutex hpc hint =>
          simp only [State.inside, setConsumer, hpc, ConsumerPc.owns] at hsum ⊢
          omega
  | createProducer child => exact absurd trivial hnot
  | createConsumer child => exact absurd trivial hnot
  | destroyProducer => exact absurd trivial hnot
  | destroyConsumer => exact absurd trivial hnot

theorem Step.inside_le (h : Step s a t) :
    s.queue.mutex + s.inside ≤ t.queue.mutex + t.inside := by
  by_cases hok : s.Uninterrupted a
  · exact (h.inside hok).ge
  · have hmore := h.inside_interrupted hok
    omega

/-- What an interrupted entry adds to the mutex and its owners is there for ever. -/
theorem inside_decides : Decides (next (P := P) (C := C)) (fun _ _ => True) Uninterrupted
    (fun s => 1 ≤ s.queue.mutex + s.inside) (fun s => s.queue.mutex + s.inside = 1)
    (fun s => 2 ≤ s.queue.mutex + s.inside) (fun s => s.queue.mutex + s.inside = 1) where
  step hs _ h := hs.trans (next_step h).inside_le
  keep _ hone _ hok h := ((next_step h).inside hok).trans hone
  spoil hs _ hnot h := by
    have hmore := (next_step h).inside_interrupted hnot
    omega
  last _ _ htwo h := htwo.trans (next_step h).inside_le
  good _ hone := hone
  bad _ htwo hone := by omega

/-- The mutex and its owners make one exactly in the runs without such an entry. -/
theorem run_inside_iff {as : List (Action P C)} (hrun : exec next start as = some s) :
    s.queue.mutex + s.inside = 1 ↔ StepsMeet next Uninterrupted (start : State P C) as :=
  inside_decides.iff_stepsMeet_of_all start_inside.ge start_inside hrun

/-- As long as no `sem_wait` on the mutex is interrupted, at most one process is inside. -/
theorem run_exclusive {as : List (Action P C)}
    (hok : StepsMeet next Uninterrupted (start : State P C) as)
    (hrun : exec next start as = some s) : s.Exclusive := by
  have hone := (run_inside_iff hrun).mpr hok
  exact ⟨by omega, by omega⟩

instance (s : State P C) : ∀ a, Decidable (s.Uninterrupted a)
  | .producer i .eintr => inferInstanceAs (Decidable ((s.producer i).pc.awaitsMutex = false))
  | .consumer j .eintr => inferInstanceAs (Decidable ((s.consumer j).pc ≠ .waitingMutex))
  | .producer _ (.generateMessage _) | .producer _ .statement | .consumer _ .statement
  | .createProducer _ | .createConsumer _ | .destroyProducer | .destroyConsumer => isTrue trivial

/-- One producer inside, the other destroyed at its wait for a slot. -/
theorem run_exclusive_destroyed :
    ∃ s : State Bool Unit, exec next start (.createProducer (some true) ::
      .createProducer (some false) :: turn true 3 ++ turn false 0 ++
        [.destroyProducer, .producer false .eintr]) = some s ∧ s.Exclusive :=
  have hrun : exec next start (.createProducer (some true) ::
      .createProducer (some false) :: turn true 3 ++ turn false 0 ++
        [.destroyProducer, .producer false .eintr]) = some _ := rfl
  ⟨_, hrun, run_exclusive (C := Unit) (by decide) hrun⟩

/-- One producer inside, the other destroyed at its wait for the mutex. -/
theorem signalled_not_exclusive :
    ¬ ∀ (as : List (Action Bool Unit)) (s : State Bool Unit),
      exec next start as = some s → s.Exclusive := by
  intro hall
  have h := hall (.createProducer (some true) :: .createProducer (some false) ::
    turn true 3 ++ turn false 2 ++ [.destroyProducer, .producer false .eintr]) _ rfl
  exact absurd h.2 (by decide)

end State

end OsispLabs.Lab4
