import OsispLabs.Lab5.Semaphore.Tokens
import OsispLabs.Lib.Cancellation

/-!
# Cancelled threads of `lab5_1.c`

`destroyThread` cancels a thread and joins it. Every cancellation point of the two loops, the
`sem_wait`, the prints and the `sleep`, lies outside the critical section, while `cleanup_handler`
unlocks the mutex wherever the thread stood.
-/
namespace OsispLabs.Lab5.Semaphore
open Lib

variable {P C α : Type*} [DecidableEq P] [DecidableEq C]

namespace State

/-- The thread that performs the operation, `none` for the main thread. -/
def threadOf : Action P C α → Option (P ⊕ C)
  | .produce i _ | .producer i => some (.inl i)
  | .consumer j => some (.inr j)
  | .incremSize | .discrSize | .main => none

def atStart (s : State P C α) : P ⊕ C → Bool
  | .inl i =>
    match s.producer i with
    | .outside => true
    | .token _ | .locked _ | .written | .posted => false
  | .inr j => s.consumer j = .outside

/-- The cancellation points: `sem_wait`, the prints and `sleep` outside the loop's critical
section, and a consumer's print between its `sem_wait` and its lock. -/
def cancel (s : State P C α) : P ⊕ C → Option (State P C α)
  | .inl i =>
    match s.producer i with
    | .outside => some s
    | .token _ | .locked _ | .written | .posted => none
  | .inr j =>
    match s.consumer j with
    | .outside | .token => some s
    | .locked | .taken | .posted => none

/-- `pthread_mutex_unlock` by a thread that then ends. -/
def cleanup_handler (s : State P C α) : P ⊕ C → State P C α
  | .inl i => { s.setProducer i .outside with mutex := false }
  | .inr j => { s.setConsumer j .outside with mutex := false }

/-- The thread is between its lock and its unlock. -/
def Owns (s : State P C α) : P ⊕ C → Prop
  | .inl i => (s.producer i).owns = 1
  | .inr j => (s.consumer j).owns = 1

end State

/-- The worker threads of `lab5_1.c` as the victims of `destroyThread`. -/
def threads : Threads (State P C α) (Action P C α) (P ⊕ C) where
  next := State.next
  thread := State.threadOf
  idle s := s.main = .menu
  atStart := State.atStart
  act s t _ := s.cancel t
  cleanup := State.cleanup_handler
  locking _ _ := false
  owns := State.Owns

variable [Fintype P] [Fintype C]

namespace State

/-- At most one thread, the main thread included, is inside a critical section. -/
def AtMostOne (s : State P C α) : Prop :=
  total ProducerPc.owns s.producer + total ConsumerPc.owns s.consumer + s.main.owns ≤ 1

variable {s t : State P C α} {a : Action P C α}

omit [DecidableEq P] [DecidableEq C] in
theorem Exclusive.atMostOne (hs : s.Exclusive) : s.AtMostOne := by
  have hle := s.mutex.toNat_le
  rw [Exclusive] at hs
  rw [AtMostOne]
  omega

omit [Fintype P] [Fintype C] in
/-- An operation leaves the positions of the other threads alone. -/
theorem Step.producer_other (h : Step s a t) {k : P} (hk : threadOf a ≠ some (.inl k)) :
    t.producer k = s.producer k := by
  have hne : ∀ i, threadOf a = some (.inl i) → k ≠ i := fun i hi heq => hk (heq ▸ hi)
  cases h with
  | waitEmpty i | lockProducer i | put i | postFull i | unlockProducer i =>
    exact Function.update_of_ne (hne i rfl) _ _
  | waitFull | lockConsumer | take | postEmpty | unlockConsumer | lockGrow | grow | postGrown
  | shift | lockShrink | decide | decline | shrink | waitShrunk | unlockMain => rfl

omit [Fintype P] [Fintype C] in
theorem Step.consumer_other (h : Step s a t) {k : C} (hk : threadOf a ≠ some (.inr k)) :
    t.consumer k = s.consumer k := by
  have hne : ∀ j, threadOf a = some (.inr j) → k ≠ j := fun j hj heq => hk (heq ▸ hj)
  cases h with
  | waitFull j | lockConsumer j | take j | postEmpty j | unlockConsumer j =>
    exact Function.update_of_ne (hne j rfl) _ _
  | waitEmpty | lockProducer | put | postFull | unlockProducer | lockGrow | grow | postGrown
  | shift | lockShrink | decide | decline | shrink | waitShrunk | unlockMain => rfl

omit [DecidableEq P] [DecidableEq C] [Fintype P] [Fintype C] in
theorem cancel_eq_some {u : P ⊕ C} (h : s.cancel u = some t) : t = s ∧ ¬ s.Owns u := by
  cases u with
  | inl i =>
    simp only [cancel] at h
    split at h
    · simp_all [Owns, ProducerPc.owns]
    all_goals cases h
  | inr j =>
    simp only [cancel] at h
    split at h
    · simp_all [Owns, ConsumerPc.owns]
    · simp_all [Owns, ConsumerPc.owns]
    all_goals cases h

theorem Exclusive.cleanup_handler (hs : s.Exclusive) {u : P ⊕ C} (hu : s.Owns u) :
    (s.cleanup_handler u).Exclusive := by
  cases u with
  | inl i =>
    have hmutex := hs.mutex_of_producer hu
    exact hs.moveProducer rfl (by rw [hmutex, show (s.producer i).owns = 1 from hu]; rfl)
  | inr j =>
    have hmutex := hs.mutex_of_consumer hu
    exact hs.moveConsumer rfl (by rw [hmutex, show (s.consumer j).owns = 1 from hu]; rfl)

omit [Fintype P] [Fintype C] in
theorem cleanup_handler_other (s : State P C α) {u v : P ⊕ C} (hv : v ≠ u) (hs : s.Owns v) :
    (s.cleanup_handler u).Owns v := by
  cases u <;> cases v <;>
    simp_all [Owns, State.cleanup_handler, setProducer, setConsumer, Function.update_of_ne]

theorem disciplined :
    Cancellable.Disciplined (threads : Threads (State P C α) _ (P ⊕ C)) Exclusive where
  next s a t hs h := (next_step h).exclusive hs
  act s u b t hs hlock h := by simp [threads] at hlock
  cleanup s u hs hu := hs.cleanup_handler hu
  act_owns s u b t h := by
    obtain ⟨rfl, hnot⟩ := cancel_eq_some h
    simpa [threads] using hnot
  next_other s a t u h hu hs := by
    cases u with
    | inl k => exact (congrArg ProducerPc.owns ((next_step h).producer_other hu)).trans hs
    | inr k => exact (congrArg ConsumerPc.owns ((next_step h).consumer_other hu)).trans hs
  act_other s u b t v h _ hs := by
    obtain ⟨rfl, _⟩ := cancel_eq_some h
    exact hs
  cleanup_other s u v hv hs := cleanup_handler_other s hv hs

end State

end OsispLabs.Lab5.Semaphore
