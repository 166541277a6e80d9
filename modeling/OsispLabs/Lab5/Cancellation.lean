import OsispLabs.Lab5.Semaphore.Cancellation
import OsispLabs.Lab5.Condvar.Cancellation

/-!
# Cancellation in both programs

`cleanup_handler` keeps the lock discipline exactly when the thread that runs it was cancelled
inside `pthread_cond_wait`. `lab5_1.c` has no such point, so there every cancellation breaks it.
-/
namespace OsispLabs.Lab5
open Lib Lib.Cancellable

variable {P C α : Type*} [DecidableEq P] [DecidableEq C] [Fintype P] [Fintype C]

/-- Every handler is run by the owner of the mutex and at most one thread is inside a critical
section, throughout the run, exactly when all cancellations are acted on in `pthread_cond_wait`. -/
theorem run_handlers_own_iff :
    (∀ n (as : List (Cancellable.Action (Semaphore.Action P C α) (P ⊕ C)))
      (c : Cancellable (Semaphore.State P C α) (P ⊕ C)),
      exec (next Semaphore.threads) (start (.start n)) as = some c →
      (Throughout (next Semaphore.threads)
          (fun c => c.HandlersOwn Semaphore.threads ∧ c.base.AtMostOne) (start (.start n)) as ↔
        StepsMeet (next Semaphore.threads) (ActsLocking Semaphore.threads) (start (.start n)) as)) ∧
    ∀ (as : List (Cancellable.Action (Condvar.Action P C α) (P ⊕ C)))
      (c : Cancellable (Condvar.State P C α) (P ⊕ C)),
      exec (next Condvar.threads) (start .start) as = some c →
      (Throughout (next Condvar.threads)
          (fun c => c.HandlersOwn Condvar.threads ∧ c.base.AtMostOne) (start .start) as ↔
        StepsMeet (next Condvar.threads) (ActsLocking Condvar.threads) (start .start) as) := by
  constructor
  · intro n as c hrun
    exact handlers_own_iff Semaphore.State.disciplined
      (fun _ => Semaphore.State.Exclusive.atMostOne) (Semaphore.State.start_exclusive n) hrun
  · intro as c hrun
    exact handlers_own_iff Condvar.State.disciplined
      (fun _ => Condvar.State.Exclusive.atMostOne) Condvar.State.start_lawful.exclusive hrun

/-- A consumer that waits for a message in `lab5_2.c` is destroyed. -/
def destroyWaiting :
    List (Cancellable.Action (Condvar.Action Bool Unit ℕ) (Bool ⊕ Unit)) :=
  [.step (.consumer ()), .step (.consumer ()), .request (.inr ()), .act (.inr ()),
    .cleanup (.inr ()), .step (.produce true 7)]

theorem run_handlers_own_waiting :
    Throughout (next Condvar.threads)
      (fun c => c.HandlersOwn Condvar.threads ∧ c.base.AtMostOne) (start .start) destroyWaiting :=
  have hrun : exec (next Condvar.threads) (start .start) destroyWaiting = some _ := rfl
  (run_handlers_own_iff.2 destroyWaiting _ hrun).mpr
    ⟨trivial, trivial, trivial, rfl, trivial, trivial, trivial⟩

/-- One producer of `lab5_1.c` waits for a slot and the other is inside when the first is
destroyed; a consumer of the message before joins the second. -/
def destroyIdle₁ :
    List (Cancellable.Action (Semaphore.Action Bool Unit ℕ) (Bool ⊕ Unit)) :=
  [.step (.produce true 7), .step (.producer true), .step (.producer true), .step (.producer true),
    .step (.consumer ()), .request (.inl false), .act (.inl false), .cleanup (.inl false),
    .step (.consumer ())]

/-- One producer of `lab5_2.c` sleeps after its turn and the other is inside when the first is
destroyed; a consumer joins the second. -/
def destroyIdle₂ :
    List (Cancellable.Action (Condvar.Action Bool Unit ℕ) (Bool ⊕ Unit)) :=
  [.step (.produce false 7), .step (.producer false), .step (.signalFull false none),
    .step (.producer false), .step (.produce true 8), .request (.inl false), .act (.inl false),
    .cleanup (.inl false), .step (.consumer ())]

/-- In either program an idle thread that is destroyed lets two threads into their critical
sections. -/
theorem idle_cancelled_not_exclusive :
    ¬ Throughout (next Semaphore.threads)
        (fun c => c.HandlersOwn Semaphore.threads ∧ c.base.AtMostOne) (start (.start 10))
        destroyIdle₁ ∧
      ¬ Throughout (next Condvar.threads)
        (fun c => c.HandlersOwn Condvar.threads ∧ c.base.AtMostOne) (start .start)
        destroyIdle₂ := by
  constructor
  · intro hall
    have h := (hall destroyIdle₁ (List.prefix_refl _) _ rfl).2
    exact absurd h (by unfold Semaphore.State.AtMostOne; decide)
  · intro hall
    have h := (hall destroyIdle₂ (List.prefix_refl _) _ rfl).2
    exact absurd h (by unfold Condvar.State.AtMostOne; decide)

end OsispLabs.Lab5
