import OsispLabs.Lab5.Condvar.Wakeup
import OsispLabs.Lib.Cancellation

/-!
# Cancelled threads of `lab5_2.c`

A thread cancelled inside `pthread_cond_wait` acquires the mutex again before its handler runs.
The other cancellation points, the prints and the `sleep` at the end of a turn, come after the
unlock.
-/
namespace OsispLabs.Lab5.Condvar
open Lib

variable {P C α : Type*} [DecidableEq P] [DecidableEq C]

namespace State

/-- The thread that performs the operation, `none` for the main thread. -/
def threadOf : Action P C α → Option (P ⊕ C)
  | .produce i _ | .producer i | .signalFull i _ | .wakeProducer i => some (.inl i)
  | .consumer j | .signalEmpty j _ | .wakeConsumer j => some (.inr j)
  | .incremSize | .discrSize | .main | .signalGrown _ => none

def atStart (s : State P C α) : P ⊕ C → Bool
  | .inl i =>
    match s.producer i with
    | .outside => true
    | .testing _ | .waiting _ | .signalled _ | .spurious _ | .inserted | .leaving => false
  | .inr j => s.consumer j = .outside

/-- The cancellation points: `pthread_cond_wait`, and the end of a turn with its prints and its
`sleep`, which a thread in its first turn has not reached. -/
def cancel (s : State P C α) (t : P ⊕ C) (turned : Bool) : Option (State P C α) :=
  match t with
  | .inl i =>
    match s.producer i with
    | .outside => if turned then some s else none
    | .waiting msg | .signalled msg | .spurious msg => s.lock (s.setProducer i (.testing msg))
    | .testing _ | .inserted | .leaving => none
  | .inr j =>
    match s.consumer j with
    | .outside => if turned then some s else none
    | .waiting | .signalled | .spurious => s.lock (s.setConsumer j .testing)
    | .testing | .taken | .notified | .leaving => none

/-- The thread is inside `pthread_cond_wait`. -/
def inWait (s : State P C α) : P ⊕ C → Bool
  | .inl i =>
    match s.producer i with
    | .waiting _ | .signalled _ | .spurious _ => true
    | .outside | .testing _ | .inserted | .leaving => false
  | .inr j =>
    match s.consumer j with
    | .waiting | .signalled | .spurious => true
    | .outside | .testing | .taken | .notified | .leaving => false

/-- `pthread_mutex_unlock` by a thread that then ends. -/
def cleanup_handler (s : State P C α) : P ⊕ C → State P C α
  | .inl i => { s.setProducer i .outside with mutex := false }
  | .inr j => { s.setConsumer j .outside with mutex := false }

/-- The thread has the mutex. -/
def Owns (s : State P C α) : P ⊕ C → Prop
  | .inl i => (s.producer i).owns = 1
  | .inr j => (s.consumer j).owns = 1

end State

variable [Fintype P] [Fintype C]

/-- The worker threads of `lab5_2.c` as the victims of `destroyThread`. -/
def threads : Threads (State P C α) (Action P C α) (P ⊕ C) where
  next := State.next
  thread := State.threadOf
  idle s := s.main = .menu
  atStart := State.atStart
  act := State.cancel
  cleanup := State.cleanup_handler
  locking := State.inWait
  owns := State.Owns

namespace State

/-- At most one thread, the main thread included, is inside a critical section. -/
def AtMostOne (s : State P C α) : Prop :=
  total ProducerPc.owns s.producer + total ConsumerPc.owns s.consumer + s.main.owns ≤ 1

variable {s t : State P C α} {a : Action P C α}

omit [DecidableEq P] [DecidableEq C] in
theorem Exclusive.atMostOne (hs : s.Exclusive) : s.AtMostOne := by
  have hle := s.mutex.toNat_le
  rw [Exclusive] at hs
  rw [AtMostOne]
  omega

omit [Fintype P] [Fintype C] in
/-- A thread keeps the mutex while the others move: a signal reaches waiting threads only. -/
theorem Step.producer_owns (h : Step s a t) {k : P} (hk : threadOf a ≠ some (.inl k))
    (hs : (s.producer k).owns = 1) : (t.producer k).owns = 1 := by
  have hkeep : ∀ i pc, k ≠ i → (Function.update s.producer i pc k).owns = 1 := by
    intro i pc hki
    rw [Function.update_of_ne hki]
    exact hs
  have hne : ∀ i, threadOf a = some (.inl i) → k ≠ i := fun i hi heq => hk (heq ▸ hi)
  have hawake : ∀ i msg, s.producer i = .waiting msg → k ≠ i := by
    rintro i msg hwait rfl
    simp [hwait, ProducerPc.owns] at hs
  cases h with
  | lockProducer i | sleepProducer i | insert i | relockSignalled i | relockSpurious i
  | signalFull i | signalFullNone i | unlockProducer i | wakeProducer i =>
    exact hkeep i _ (hne i rfl)
  | signalEmpty j i msg hpc hwait => exact hkeep i _ (hawake i msg hwait)
  | signalGrown i msg hpc hwait => exact hkeep i _ (hawake i msg hwait)
  | lockConsumer | sleepConsumer | take | relockConsumer | signalEmptyNone | decrement
  | unlockConsumer | wakeConsumer | lockGrow | enlarge | signalGrownNone | openGap | lockShrink
  | shrink | unlockMain => exact hs

omit [Fintype P] [Fintype C] in
theorem Step.consumer_owns (h : Step s a t) {k : C} (hk : threadOf a ≠ some (.inr k))
    (hs : (s.consumer k).owns = 1) : (t.consumer k).owns = 1 := by
  have hkeep : ∀ j pc, k ≠ j → (Function.update s.consumer j pc k).owns = 1 := by
    intro j pc hkj
    rw [Function.update_of_ne hkj]
    exact hs
  have hne : ∀ j, threadOf a = some (.inr j) → k ≠ j := fun j hj heq => hk (heq ▸ hj)
  cases h with
  | lockConsumer j | sleepConsumer j | take j | relockConsumer j | signalEmpty j
  | signalEmptyNone j | decrement j | unlockConsumer j | wakeConsumer j =>
    exact hkeep j _ (hne j rfl)
  | signalFull i j hpc hwait =>
    refine hkeep j _ ?_
    rintro rfl
    simp [hwait, ConsumerPc.owns] at hs
  | lockProducer | sleepProducer | insert | relockSignalled | relockSpurious | signalFullNone
  | unlockProducer | wakeProducer | signalGrown | lockGrow | enlarge | signalGrownNone | openGap
  | lockShrink | shrink | unlockMain => exact hs

/-- Acting on a cancellation: at the end of a turn nothing changes, and inside
`pthread_cond_wait` the thread takes the mutex and stands where its wait returns. -/
inductive Cancels (s : State P C α) : P ⊕ C → State P C α → Prop
  | turnedProducer (i : P) (hpc : s.producer i = .outside) : Cancels s (.inl i) s
  | turnedConsumer (j : C) (hpc : s.consumer j = .outside) : Cancels s (.inr j) s
  | waitingProducer (i : P) (msg : α) (hwait : s.inWait (.inl i) = true)
      (hpc : (s.producer i).owns = 0) (hfree : s.mutex = false) :
    Cancels s (.inl i) { s.setProducer i (.testing msg) with mutex := true }
  | waitingConsumer (j : C) (hwait : s.inWait (.inr j) = true) (hpc : (s.consumer j).owns = 0)
      (hfree : s.mutex = false) :
    Cancels s (.inr j) { s.setConsumer j .testing with mutex := true }

omit [Fintype P] [Fintype C] in
theorem cancel_eq_some {u : P ⊕ C} {b : Bool} (h : s.cancel u b = some t) : s.Cancels u t := by
  cases u with
  | inl i =>
    simp only [cancel] at h
    split at h
    case h_1 hpc =>
      split at h
      · obtain rfl := Option.some.inj h
        exact .turnedProducer i hpc
      · cases h
    case h_5 | h_6 | h_7 => cases h
    all_goals
      obtain ⟨hfree, rfl⟩ := lock_eq_some h
      exact .waitingProducer i _ (by simp [inWait, *]) (by simp [ProducerPc.owns, *]) hfree
  | inr j =>
    simp only [cancel] at h
    split at h
    case h_1 hpc =>
      split at h
      · obtain rfl := Option.some.inj h
        exact .turnedConsumer j hpc
      · cases h
    case h_5 | h_6 | h_7 | h_8 => cases h
    all_goals
      obtain ⟨hfree, rfl⟩ := lock_eq_some h
      exact .waitingConsumer j (by simp [inWait, *]) (by simp [ConsumerPc.owns, *]) hfree

theorem Cancels.exclusive {u : P ⊕ C} (h : s.Cancels u t) (hs : s.Exclusive) : t.Exclusive := by
  cases h with
  | turnedProducer i hpc => exact hs
  | turnedConsumer j hpc => exact hs
  | waitingProducer i msg hwait hpc hfree =>
    exact hs.moveProducer rfl (by rw [hfree, hpc]; rfl)
  | waitingConsumer j hwait hpc hfree => exact hs.moveConsumer rfl (by rw [hfree, hpc]; rfl)

omit [Fintype P] [Fintype C] in
theorem Cancels.owns_iff {u : P ⊕ C} (h : s.Cancels u t) : t.Owns u ↔ s.inWait u = true := by
  cases h with
  | turnedProducer i hpc => simp [Owns, inWait, hpc, ProducerPc.owns]
  | turnedConsumer j hpc => simp [Owns, inWait, hpc, ConsumerPc.owns]
  | waitingProducer i msg hwait => simp [Owns, hwait, setProducer, ProducerPc.owns]
  | waitingConsumer j hwait => simp [Owns, hwait, setConsumer, ConsumerPc.owns]

omit [Fintype P] [Fintype C] in
theorem Cancels.owns_other {u v : P ⊕ C} (h : s.Cancels u t) (hv : v ≠ u) (hs : s.Owns v) :
    t.Owns v := by
  cases h <;> cases v <;> simp_all [Owns, setProducer, setConsumer, Function.update_of_ne]

theorem Exclusive.cleanup_handler (hs : s.Exclusive) {u : P ⊕ C} (hu : s.Owns u) :
    (s.cleanup_handler u).Exclusive := by
  cases u with
  | inl i =>
    have hmutex := (hs.of_producer hu).1
    exact hs.moveProducer rfl (by rw [hmutex, show (s.producer i).owns = 1 from hu]; rfl)
  | inr j =>
    have hmutex := (hs.of_consumer hu).1
    exact hs.moveConsumer rfl (by rw [hmutex, show (s.consumer j).owns = 1 from hu]; rfl)

omit [Fintype P] [Fintype C] in
theorem cleanup_handler_other (s : State P C α) {u v : P ⊕ C} (hv : v ≠ u) (hs : s.Owns v) :
    (s.cleanup_handler u).Owns v := by
  cases u <;> cases v <;>
    simp_all [Owns, State.cleanup_handler, setProducer, setConsumer, Function.update_of_ne]

theorem disciplined :
    Cancellable.Disciplined (threads : Threads (State P C α) _ (P ⊕ C)) Exclusive where
  next s a t hs h := (next_step h).exclusive hs
  act s u b t hs _ h := (cancel_eq_some h).exclusive hs
  cleanup s u hs hu := hs.cleanup_handler hu
  act_owns s u b t h := (cancel_eq_some h).owns_iff
  next_other s a t u h hu hs := by
    cases u with
    | inl k => exact (next_step h).producer_owns hu hs
    | inr k => exact (next_step h).consumer_owns hu hs
  act_other s u b t v h hv hs := (cancel_eq_some h).owns_other hv hs
  cleanup_other s u v hv hs := cleanup_handler_other s hv hs

end State

end OsispLabs.Lab5.Condvar
